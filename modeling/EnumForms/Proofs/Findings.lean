import EnumForms.Attempt
import EnumForms.Proofs.Units
import EnumForms.Report

/-!
What a transformation says about the declarations it leaves out. Every warning has words, so it has
a line unless its place has too many digits, and the report holds it in any case.
-/
namespace EnumForms

namespace Diagnostic

def words (d : Diagnostic) : Text := d.message.toOption.getD []

/-- A diagnostic that says something. -/
def IsWorded (d : Diagnostic) : Prop := d.message = .ok d.words

theorem line_eq {d : Diagnostic} (h : d.IsWorded) (label : Text) :
    d.line label = if d.pos.hasOverlong then .error .overlong
      else .ok (d.pos.text ++ lit ": " ++ label ++ d.words) := by
  rw [line, h]
  rfl

end Diagnostic

namespace Findings

variable {file label : Text} {ds : List Diagnostic}

theorem all_ofFile (file : Text) (ds : List Diagnostic) : (ofFile file ds).all = ds := by
  cases ds <;> simp [ofFile, all]

theorem isAny_ofFile (file : Text) (ds : List Diagnostic) :
    (ofFile file ds).isAny = !ds.isEmpty := by
  cases ds <;> simp [ofFile, isAny]

/-- A line for each finding, in their order, unless the place of one has too many digits. -/
theorem lines_ofFile (h : ∀ d ∈ ds, d.IsWorded) :
    (ofFile file ds).lines label = if ds.any (·.pos.hasOverlong) then .error .overlong
      else .ok (ds.map fun d => file ++ lit ":" ++ (d.pos.text ++ lit ": " ++ label ++ d.words)) := by
  have hm := Attempt.mapM_ite (f := fun d : Diagnostic => (d.line label).map fun l => file ++ lit ":" ++ l)
    (fun d : Diagnostic => d.pos.hasOverlong) MessageError.overlong
    (fun d => file ++ lit ":" ++ (d.pos.text ++ lit ": " ++ label ++ d.words)) fun d hd => by
      rw [Diagnostic.line_eq (h d hd)]
      split <;> rfl
  cases ds with
  | nil => rfl
  | cons d ds =>
    simp only [ofFile, lines, reduceCtorEq, if_false, List.mapM_cons, List.mapM_nil] at hm ⊢
    rw [hm]
    split
    · rfl
    · exact congrArg Except.ok (List.append_nil _)

end Findings

/-! ## Declarations that are left out -/

namespace Declaration

variable {earlier ds : List Declaration} {w : Diagnostic}

def warnings (ds : List Declaration) : List Diagnostic := (verdicts [] ds).filterMap warning?

theorem isWorded_of_verdict {d : Declaration} (h : verdict earlier d = .error w) : w.IsWorded := by
  unfold verdict at h
  split at h
  · split at h
    · cases h
      rfl
    · unfold normalizeEntries at h
      split at h
      · cases h
      · cases h
        rfl
  · cases h
    rfl

theorem exists_verdict_of_mem {v : Except Diagnostic (Text × List Entry)}
    (h : v ∈ verdicts earlier ds) : ∃ before d, d ∈ ds ∧ v = verdict before d := by
  induction ds generalizing earlier with
  | nil => cases h
  | cons d ds ih =>
    rw [verdicts, List.mem_cons] at h
    obtain rfl | h := h
    · exact ⟨earlier, d, List.mem_cons_self, rfl⟩
    · obtain ⟨before, d', hd, rfl⟩ := ih h
      exact ⟨before, d', List.mem_cons_of_mem d hd, rfl⟩

theorem exists_verdict_of_mem_warnings (h : w ∈ warnings ds) :
    ∃ before d, d ∈ ds ∧ verdict before d = .error w := by
  obtain ⟨v, hv, hw⟩ := List.mem_filterMap.1 h
  obtain ⟨before, d, hd, rfl⟩ := exists_verdict_of_mem hv
  refine ⟨before, d, hd, ?_⟩
  unfold warning? at hw
  split at hw
  · cases hw
  · next hv => cases hw; exact hv

theorem isWorded_of_mem_warnings (h : w ∈ warnings ds) : w.IsWorded := by
  obtain ⟨before, d, -, hv⟩ := exists_verdict_of_mem_warnings h
  exact isWorded_of_verdict hv

end Declaration

theorem Registry.warnings_addAll (ds : List Declaration) :
    (empty.addAll ds).findings.warnings = Declaration.warnings ds := (addAll_append [] ds).2.1

/-! ## What a transformation finds -/

namespace Transformation

/-- The warnings are about the declarations of the body, under the name of the file. -/
theorem findings_ofUnit (fs : List Form) (u : UnitParts) :
    (ofUnit fs u).file = u.file ∧
      (ofUnit fs u).warnings = .ofFile u.file (Declaration.warnings (Declaration.find u.body)) ∧
      (ofUnit fs u).errors = [] := by
  have hw : (u.registry.findings.drain .warning).1 =
      Declaration.warnings (Declaration.find u.body) := Registry.warnings_addAll _
  rw [ofUnit_eq, ← hw]
  split <;> exact ⟨rfl, rfl, rfl⟩

theorem warnings_ofUnit (fs : List Form) (u : UnitParts) :
    (ofUnit fs u).warnings.all = u.registry.findings.warnings := by
  rw [(findings_ofUnit fs u).2.1, Findings.all_ofFile, UnitParts.registry, Registry.warnings_addAll]

def warningItem (d : Diagnostic) : Json :=
  .obj [(lit "line", .int d.pos.lineNumber), (lit "message", .str d.words)]

def document (t : Transformation) : Json := .obj [
  (lit "file", .str t.file),
  (lit "outcome", .str t.outcome.name),
  (lit "enums", .obj (t.table.enums.map fun (name, entries) => (name, .arr (entries.map entryJson)))),
  (lit "functions", .arr (t.generated.map fun f => .str f.signature)),
  (lit "warnings", .arr (t.warnings.all.map warningItem)),
  (lit "stats", .obj [
    (lit "declarations", .int t.stats.declarations),
    (lit "enums", .int t.stats.enums),
    (lit "entries", .int t.stats.entries),
    (lit "functions", .int t.stats.functions)])]

theorem report_eq {t : Transformation} (h : ∀ d ∈ t.warnings.all, d.IsWorded) :
    t.report = .ok t.document := by
  have hm : t.warnings.all.mapM warningJson = .ok (t.warnings.all.map warningItem) := by
    refine Attempt.mapM_ok _ fun d hd => ?_
    rw [warningJson, h d hd]
    rfl
  rw [report, hm]
  rfl

theorem isWorded_of_mem_ofUnit {fs : List Form} {u : UnitParts} :
    ∀ d ∈ (ofUnit fs u).warnings.all, d.IsWorded := by
  rw [(findings_ofUnit fs u).2.1, Findings.all_ofFile]
  exact fun d => Declaration.isWorded_of_mem_warnings

end Transformation

end EnumForms
