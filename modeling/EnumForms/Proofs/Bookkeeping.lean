import EnumForms.Proofs.Framed
import EnumForms.Proofs.Readable

/-!
The counts of a transformation and its views on what it found. They are filled in at two exits, one
for a unit that stays as it is and one for a unit with new functions, and agree at both.
-/
namespace EnumForms

open Transformation

def Form.isEnum : Form → Bool
  | .attribute _ name _ => name = lit "enum"
  | _ => false

theorem Declaration.length_find (fs : List Form) : (find fs).length = fs.countP Form.isEnum := by
  induction fs with
  | nil => rfl
  | cons f fs ih =>
    match f with
    | .attribute pos name value =>
      rw [find_cons_attribute, List.countP_cons, ← ih]
      by_cases hn : name = lit "enum" <;> simp [hn, Form.isEnum]
    | .eof _ | .raw _ | .function _ => exact ih

def Json.member? (key : String) : Json → Option Json
  | .obj members => members.lookup (lit key)
  | _ => none

/-- Every view of a transformation lists the diagnostics `ws`, in this order and under the name of
its file. The view in lines is missing if the place of one has too many digits. -/
structure Transformation.Lists (tr : Transformation) (ws : List Diagnostic) : Prop where
  warnings : tr.warnings = .ofFile tr.file ws
  worded : ∀ w ∈ ws, w.IsWorded
  diagnostics : tr.diagnostics = if ws.any (·.pos.hasOverlong) then .error .overlong
    else .ok (Text.join (lit "\n") (ws.map fun w =>
      tr.file ++ lit ":" ++ (w.pos.text ++ lit ": " ++ lit "[WARNING] " ++ w.words)))
  returnValue : tr.returnValue =
    if ws = [] then .forms tr.forms else .warning tr.forms [(tr.file, ws)]
  report : ∃ j, tr.report = .ok j ∧ j.member? "file" = some (.str tr.file) ∧
    j.member? "warnings" = some (.arr (ws.map warningItem))

/-- The counts and views of the transformation of a unit. -/
structure Booked (fs : List Form) (tr : Transformation) : Prop where
  outcome : tr.outcome = if tr.table.size = 0 then .passThrough else .transformed
  forms : tr.forms.isSome
  file : ∃ pos line, fs.head? = some (.attribute pos (lit "file") (.tuple [.str tr.file, line]))
  noErrors : tr.errors = [] ∧ tr.stats.errors = 0
  declarations : tr.stats.declarations = (fs.drop 2).countP Form.isEnum
  judged : tr.stats.declarations = tr.stats.enums + tr.stats.warnings
  enums : tr.stats.enums = tr.table.size
  entries : tr.stats.entries = (tr.table.enums.map fun e => e.2.length).sum
  functions : tr.stats.functions = tr.generated.length
  generated : tr.generated.length =
    if tr.outcome = .transformed then 2 * tr.stats.enums + 4 else 0
  warnings : tr.stats.warnings = tr.warnings.all.length
  lists : tr.Lists (Declaration.warnings (Declaration.find (fs.drop 2)))
  places : (tr.warnings.all.map (·.pos)).Sublist
    ((Declaration.find (fs.drop 2)).map fun d => .line d.line)

namespace Transformation

variable {fs : List Form} {u : UnitParts}

theorem stats_ofUnit (fs : List Form) (u : UnitParts) :
    (ofUnit fs u).stats =
      { declarations := (Declaration.find u.body).length
        enums := u.table.size
        entries := u.table.entryCount
        functions := (ofUnit fs u).generated.length
        warnings := (Declaration.warnings (Declaration.find u.body)).length
        errors := 0 } := by
  rw [ofUnit_eq, ← Registry.warnings_addAll]
  split <;> rfl

theorem outcome_ofUnit (fs : List Form) (u : UnitParts) :
    (ofUnit fs u).outcome = if u.table.size = 0 then .passThrough else .transformed := by
  rw [ofUnit_eq]
  split <;> rfl

theorem length_generated_ofUnit (fs : List Form) (u : UnitParts) :
    (ofUnit fs u).generated.length = if u.table.size = 0 then 0 else 2 * u.table.size + 4 := by
  by_cases hs : u.table.size = 0
  · rw [ofUnit_of_size_eq_zero hs, if_pos hs]
    rfl
  · rw [generated_ofUnit hs, if_neg hs]
    exact Accessors.length_synthesize _ _ _

theorem lists_ofUnit (fs : List Form) (u : UnitParts) :
    (ofUnit fs u).Lists (Declaration.warnings (Declaration.find u.body)) := by
  obtain ⟨hfile, hwarnings, herrors⟩ := findings_ofUnit fs u
  have hworded : ∀ w ∈ Declaration.warnings (Declaration.find u.body), w.IsWorded :=
    fun w => Declaration.isWorded_of_mem_warnings
  have hne : (ofUnit fs u).outcome ≠ .failed := by
    rw [outcome_ofUnit]
    split <;> exact Outcome.noConfusion
  refine ⟨?_, hworded, ?_, ?_, _, report_eq isWorded_of_mem_ofUnit, rfl, ?_⟩
  · rw [hfile, hwarnings]
  · have hnone (label : Text) : Findings.lines label [] = .ok [] := rfl
    rw [diagnostics, herrors, hwarnings, hfile, hnone, Findings.lines_ofFile hworded]
    split <;> rfl
  · rw [returnValue, if_neg hne, hwarnings, Findings.isAny_ofFile, hfile, Findings.ofFile]
    cases Declaration.warnings (Declaration.find u.body) <;> rfl
  · rw [document, hwarnings, Findings.all_ofFile]
    rfl

end Transformation

/-- A unit that is taken never fails, and its counts and views agree, whatever declarations it has:
valid ones, wrong ones, repeated ones, between end marks. But one of the views, that in lines, is
missing if a wrong declaration stands at a line with too many digits. -/
theorem transform_booked (fs : List Form) (tr : Transformation) (h : transform fs = .ok tr) :
    Booked fs tr := by
  obtain ⟨u, hu, rfl⟩ := transform_eq_ok_iff.1 h
  have hs := UnitParts.splits_of_ofForms hu
  obtain ⟨pos, line, hf⟩ := UnitParts.fileOf?_eq_some_iff.1 (UnitParts.fileOf?_of_ofForms hu)
  obtain ⟨hfile, hwarnings, herrors⟩ := findings_ofUnit fs u
  have hstats := stats_ofUnit fs u
  have houtcome := outcome_ofUnit fs u
  have hdrop : fs.drop 2 = u.body := by rw [hs.forms]; rfl
  refine ⟨?_, ?_, ⟨pos, line, ?_⟩, ⟨herrors, ?_⟩, ?_, ?_, ?_, ?_, ?_, ?_, ?_, ?_, ?_⟩
  · rw [houtcome, table_ofUnit]
  · by_cases hz : u.table.size = 0
    · rw [forms_ofUnit_of_size_eq_zero hz]
      rfl
    · rw [forms_ofUnit hz]
      rfl
  · rw [hfile, hs.forms, hf]
    rfl
  · rw [hstats]
  · rw [hstats, hdrop, ← Declaration.length_find]
  · rw [hstats, ← Registry.size_add_length_warnings, Registry.warnings_addAll]
    rfl
  · rw [hstats, table_ofUnit]
  · rw [hstats, table_ofUnit, Table.entryCount, List.length_flatMap]
  · rw [hstats]
  · rw [length_generated_ofUnit, houtcome, hstats]
    by_cases hz : u.table.size = 0 <;> simp [hz]
  · rw [hstats, hwarnings, Findings.all_ofFile]
  · rw [hdrop]
    exact lists_ofUnit fs u
  · rw [warnings_ofUnit, hdrop]
    exact Registry.pos_warnings_addAll_sublist _

/-- A unit with an enum, the same enum once more, and one of which nothing is right, around an end
mark. -/
def mingled : List Form :=
  [.attribute (.line 1) (lit "file") (.tuple [.str (lit "f"), .int 1]),
    .attribute (.line 2) (lit "module") (.atom (lit "m")),
    .attribute (.line 3) (lit "enum") (.tuple [.atom (lit "e"), .list [.atom (lit "a")]]),
    .attribute (.line 4) (lit "enum") (.tuple [.atom (lit "e"), .list []]),
    .eof (.line 5),
    .attribute (.line 6) (lit "enum") (.int 7),
    .eof (.line 7)]

theorem transform_booked_mingled : ∃ tr, transform mingled = .ok tr ∧
    Booked mingled tr ∧ tr.stats = ⟨3, 1, 1, 6, 2, 0⟩ ∧
    tr.returnValue = .warning tr.forms
      [(lit "f", [.duplicate (.line 4) (lit "e"), .malformed (.line 6)])] := by
  have hs : ((transform mingled).toOption.map fun tr => (tr.file, tr.stats)) =
      some (lit "f", ⟨3, 1, 1, 6, 2, 0⟩) := by decide +kernel
  obtain ⟨tr, ht, hfound⟩ := Option.map_eq_some_iff.1 hs
  obtain ⟨hfile, hstats⟩ := Prod.mk.inj hfound
  have hok := Attempt.toOption_eq_some.1 ht
  have hb := transform_booked mingled tr hok
  have hw : Declaration.warnings (Declaration.find (mingled.drop 2)) =
      [.duplicate (.line 4) (lit "e"), .malformed (.line 6)] := by decide
  refine ⟨tr, hok, hb, hstats, ?_⟩
  rw [hb.lists.returnValue, hw, hfile]
  rfl

def faulty (line : Int) : List Form :=
  [.attribute (.line 1) (lit "file") (.tuple [.str (lit "f"), .int 1]),
    .attribute (.line 2) (lit "module") (.atom (lit "m")),
    .attribute (.line line) (lit "enum") (.int 5),
    .eof (.line 4)]

theorem exists_transform_faulty (line : Int) : ∃ tr, transform (faulty line) = .ok tr ∧
    tr.stats.warnings = 1 ∧ tr.Lists [.malformed (.line line)] := by
  have hok : transform (faulty line) = .ok (ofUnit (faulty line) _) := rfl
  exact ⟨_, hok, rfl, lists_ofUnit _ _⟩

theorem Decimal.isOverlong_of_le {i : Int} (h : 10 ^ limit ≤ i.natAbs) : isOverlong i = true := by
  by_contra ho
  exact Nat.not_lt.2 h (natAbs_lt_of_not_overlong (Bool.eq_false_iff.2 ho))

theorem Decimal.isOverlong_pow_limit : isOverlong (10 ^ limit) = true := by
  have hpow (k : Nat) : ((10 : Int) ^ k).natAbs = 10 ^ k := Int.natAbs_pow 10 k
  exact isOverlong_of_le (hpow limit).ge

/-- The return value and the report list a diagnostic that the view in lines does not. -/
theorem not_diagnostics_faulty : ∃ tr, transform (faulty (10 ^ Decimal.limit)) = .ok tr ∧
    tr.stats.warnings = 1 ∧
    tr.returnValue = .warning tr.forms
      [(tr.file, [.malformed (.line (10 ^ Decimal.limit))])] ∧
    ¬ ∃ t, tr.diagnostics = .ok t := by
  obtain ⟨tr, hok, hcount, hl⟩ := exists_transform_faulty (10 ^ Decimal.limit)
  refine ⟨tr, hok, hcount, hl.returnValue, ?_⟩
  rintro ⟨t, ht⟩
  have ho : Diagnostic.pos (.malformed (.line (10 ^ Decimal.limit))) =
      .line (10 ^ Decimal.limit) := rfl
  rw [hl.diagnostics, List.any_cons, ho, Position.hasOverlong, Decimal.isOverlong_pow_limit] at ht
  cases ht

end EnumForms
