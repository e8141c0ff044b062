import EnumForms.Proofs.Registry
import Mathlib.Data.List.Induction

/-!
What becomes of a sequence of declarations. Each one is judged by those before it: it is taken in at
the end of the table or leaves one warning, and it is a duplicate only if a valid declaration of its
name came before it.
-/
namespace EnumForms

namespace Declaration

/-- The entries that a valid declaration gives to the enum of this name. -/
def entriesFor? (d : Declaration) (name : Text) : Option (List Entry) :=
  match d.payload with
  | .tuple [.atom n, entries] => if n = name then Entry.listOfTerm? entries else none
  | _ => none

def isValidFor (d : Declaration) (name : Text) : Bool := (d.entriesFor? name).isSome

/-- The enum that a declaration adds after some others, or the warning it gets. -/
def verdict (earlier : List Declaration) (d : Declaration) : Except Diagnostic (Text × List Entry) :=
  match d.payload with
  | .tuple [.atom name, entries] =>
    if earlier.any (·.isValidFor name) then .error (.duplicate (.line d.line) name)
    else (normalizeEntries name entries (.line d.line)).map (name, ·)
  | _ => .error (.malformed (.line d.line))

def verdicts (earlier : List Declaration) :
    List Declaration → List (Except Diagnostic (Text × List Entry))
  | [] => []
  | d :: ds => verdict earlier d :: verdicts (earlier ++ [d]) ds

def warning? : Except Diagnostic (Text × List Entry) → Option Diagnostic
  | .ok _ => none
  | .error w => some w

variable {d : Declaration} {n name : Text} {entries : Term} {earlier : List Declaration}

theorem entriesFor?_of_payload (h : d.payload = .tuple [.atom n, entries]) :
    d.entriesFor? name = if n = name then Entry.listOfTerm? entries else none := by
  rw [entriesFor?, h]

theorem entriesFor?_of_malformed (h : ∀ n entries, d.payload ≠ .tuple [.atom n, entries]) :
    d.entriesFor? name = none := by
  unfold entriesFor?
  split
  · next n entries hp => exact absurd hp (h n entries)
  · rfl

theorem verdict_of_payload (h : d.payload = .tuple [.atom n, entries]) :
    verdict earlier d =
      if earlier.any (·.isValidFor n) then .error (.duplicate (.line d.line) n)
      else (normalizeEntries n entries (.line d.line)).map (n, ·) := by
  rw [verdict, h]

theorem verdict_of_malformed (h : ∀ n entries, d.payload ≠ .tuple [.atom n, entries]) :
    verdict earlier d = .error (.malformed (.line d.line)) := by
  unfold verdict
  split
  · next n entries hp => exact absurd hp (h n entries)
  · rfl

theorem pos_of_verdict {w : Diagnostic} (h : verdict earlier d = .error w) :
    w.pos = .line d.line := by
  unfold verdict at h
  split at h
  · split at h
    · cases h
      rfl
    · unfold normalizeEntries at h
      split at h
      · cases h
      · cases h
        rfl
  · cases h
    rfl

theorem pos_verdicts_sublist (earlier ds : List Declaration) :
    (((verdicts earlier ds).filterMap warning?).map (·.pos)).Sublist
      (ds.map fun d => .line d.line) := by
  induction ds generalizing earlier with
  | nil => exact List.Sublist.slnil
  | cons d ds ih =>
    have hs := ih (earlier ++ [d])
    cases hv : verdict earlier d with
    | ok e =>
      have hw : warning? (Except.ok e) = none := rfl
      rw [verdicts, hv, List.filterMap_cons_none hw, List.map_cons]
      exact hs.cons _
    | error w =>
      have hw : warning? (Except.error w) = some w := rfl
      rw [verdicts, hv, List.filterMap_cons_some hw, List.map_cons, List.map_cons,
        pos_of_verdict hv]
      exact hs.cons_cons _

theorem length_verdicts (earlier ds : List Declaration) :
    ((verdicts earlier ds).filterMap Except.toOption).length +
      ((verdicts earlier ds).filterMap warning?).length = ds.length := by
  induction ds generalizing earlier with
  | nil => rfl
  | cons d ds ih =>
    have hl := ih (earlier ++ [d])
    cases hv : verdict earlier d with
    | ok e =>
      simp only [verdicts, hv, List.filterMap_cons, Except.toOption, warning?, List.length_cons]
      omega
    | error w =>
      simp only [verdicts, hv, List.filterMap_cons, Except.toOption, warning?, List.length_cons]
      omega

end Declaration

theorem Table.put_of_notMem {key : Text} {es : List (Text × List Entry)}
    (h : key ∉ es.map (·.1)) (value : List Entry) : put key value es = es ++ [(key, value)] := by
  induction es with
  | nil => rfl
  | cons e es ih =>
    obtain ⟨k, v⟩ := e
    rw [List.map_cons, List.mem_cons, not_or] at h
    rw [put, if_neg (Ne.symm h.1), ih h.2, List.cons_append]

theorem Table.contains_iff {t : Table} {name : Text} :
    t.contains name = true ↔ name ∈ t.names := by
  rw [contains, Option.isSome_iff_exists]
  constructor
  · rintro ⟨es, h⟩
    exact mem_names_of_get? h
  · exact get?_of_mem_names

namespace Registry

open Declaration

/-- What a verdict does: an enum comes in at the end of the table, or a warning comes up and the
table stays. -/
def Applies (r r' : Registry) : Except Diagnostic (Text × List Entry) → Prop
  | .ok (name, es) => name ∉ r.table.names ∧ r'.table.enums = r.table.enums ++ [(name, es)] ∧
      r'.findings = r.findings
  | .error w => r'.table = r.table ∧ r'.findings.warnings = r.findings.warnings ++ [w] ∧
      r'.findings.errors = r.findings.errors

theorem get?_add (r : Registry) (d : Declaration) (name : Text) :
    (r.add d).table.get? name = (r.table.get? name).or (d.entriesFor? name) := by
  have had := adds_add r d
  generalize r.add d = r' at had
  cases had with
  | @accepted n entries es hd hc he =>
    rw [Table.get?_insert, entriesFor?_of_payload hd, he]
    rw [Table.contains, Option.isSome_eq_false_iff, Option.isNone_iff_eq_none] at hc
    by_cases hn : name = n
    · subst hn
      simp [hc]
    · simp [hn, Ne.symm hn]
  | @duplicate n entries hd hc =>
    rw [entriesFor?_of_payload hd]
    by_cases hn : n = name
    · subst hn
      obtain ⟨es, hes⟩ := Option.isSome_iff_exists.1 hc
      rw [hes]
      exact hes
    · simp [hn, reject]
  | invalid hd hc he =>
    rw [entriesFor?_of_payload hd, he, ite_self, Option.or_none]
    rfl
  | malformed hd =>
    rw [entriesFor?_of_malformed hd, Option.or_none]
    rfl

theorem get?_addAll (r : Registry) (ds : List Declaration) (name : Text) :
    (r.addAll ds).table.get? name = (r.table.get? name).or (ds.findSome? (·.entriesFor? name)) := by
  induction ds generalizing r with
  | nil => rw [List.findSome?_nil, Option.or_none]; rfl
  | cons d ds ih =>
    have hs : (r.addAll (d :: ds)).table.get? name = ((r.add d).addAll ds).table.get? name := rfl
    rw [hs, ih, get?_add, Option.or_assoc]
    cases hd : d.entriesFor? name <;> simp [hd]

theorem get?_addAll_empty (ds : List Declaration) (name : Text) :
    (empty.addAll ds).table.get? name = ds.findSome? (·.entriesFor? name) := by
  rw [get?_addAll]
  rfl

theorem contains_addAll_empty (ds : List Declaration) (name : Text) :
    (empty.addAll ds).table.contains name = ds.any (·.isValidFor name) := by
  rw [Table.contains, get?_addAll_empty, List.isSome_findSome?]
  rfl

theorem applies_add (earlier : List Declaration) (d : Declaration) :
    (empty.addAll earlier).Applies ((empty.addAll earlier).add d) (verdict earlier d) := by
  have hcontains := contains_addAll_empty earlier
  have had := adds_add (empty.addAll earlier) d
  generalize (empty.addAll earlier).add d = r' at had
  generalize empty.addAll earlier = r at had hcontains
  cases had with
  | @accepted n entries es hd hc he =>
    have hv : verdict earlier d = .ok (n, es) := by
      rw [verdict_of_payload hd, ← hcontains, hc, normalizeEntries, he]
      rfl
    have hn : n ∉ r.table.names := by
      rw [← Table.contains_iff, hc]
      exact Bool.false_ne_true
    rw [hv]
    exact ⟨hn, Table.put_of_notMem hn es, rfl⟩
  | @duplicate n entries hd hc =>
    rw [verdict_of_payload hd, ← hcontains, if_pos hc]
    exact ⟨rfl, rfl, rfl⟩
  | @invalid n entries hd hc he =>
    rw [verdict_of_payload hd, ← hcontains, hc, normalizeEntries, he]
    exact ⟨rfl, rfl, rfl⟩
  | malformed hd =>
    rw [verdict_of_malformed hd]
    exact ⟨rfl, rfl, rfl⟩

theorem addAll_concat (r : Registry) (ds : List Declaration) (d : Declaration) :
    r.addAll (ds ++ [d]) = (r.addAll ds).add d := by
  simp [addAll]

/-- The enums and warnings that more declarations add are those of their verdicts. -/
theorem addAll_append (earlier ds : List Declaration) :
    (empty.addAll (earlier ++ ds)).table.enums =
        (empty.addAll earlier).table.enums ++ (verdicts earlier ds).filterMap Except.toOption ∧
      (empty.addAll (earlier ++ ds)).findings.warnings =
        (empty.addAll earlier).findings.warnings ++ (verdicts earlier ds).filterMap warning? ∧
      (empty.addAll (earlier ++ ds)).findings.errors = (empty.addAll earlier).findings.errors := by
  induction ds generalizing earlier with
  | nil => simp [verdicts]
  | cons d ds ih =>
    -- one step judges `d`, and the rest is judged with `d` among the earlier ones
    have ha := applies_add earlier d
    obtain ⟨ht, hw, he⟩ := ih (earlier ++ [d])
    rw [addAll_concat] at ht hw he
    rw [List.append_cons, verdicts, ht, hw, he]
    cases hv : verdict earlier d with
    | ok e =>
      rw [hv] at ha
      obtain ⟨-, ht', hf'⟩ := ha
      rw [ht', hf', List.filterMap_cons, List.filterMap_cons]
      exact ⟨List.append_assoc .., rfl, rfl⟩
    | error w =>
      rw [hv] at ha
      obtain ⟨ht', hw', he'⟩ := ha
      rw [ht', hw', he', List.filterMap_cons, List.filterMap_cons]
      exact ⟨rfl, List.append_assoc .., rfl⟩

theorem names_addAll_pairwise (ds : List Declaration) :
    (empty.addAll ds).table.names.Pairwise fun a b =>
      ds.findIdx (·.isValidFor a) < ds.findIdx (·.isValidFor b) := by
  induction ds using List.reverseRecOn with
  | nil => exact List.Pairwise.nil
  | append_singleton ds d ih =>
    have hlt : ∀ a ∈ (empty.addAll ds).table.names, ds.findIdx (·.isValidFor a) < ds.length := by
      intro a ha
      rw [← Table.contains_iff, contains_addAll_empty, List.any_eq_true] at ha
      exact List.findIdx_lt_length.2 ha
    have hkeep : ∀ a ∈ (empty.addAll ds).table.names,
        (ds ++ [d]).findIdx (·.isValidFor a) = ds.findIdx (·.isValidFor a) := by
      intro a ha
      rw [List.findIdx_append, if_pos (hlt a ha)]
    have hold : (empty.addAll ds).table.names.Pairwise fun a b =>
        (ds ++ [d]).findIdx (·.isValidFor a) < (ds ++ [d]).findIdx (·.isValidFor b) := by
      refine ih.imp_of_mem fun ha hb h => ?_
      rw [hkeep _ ha, hkeep _ hb]
      exact h
    have ha := applies_add ds d
    rw [addAll_concat]
    cases hv : verdict ds d with
    | error w =>
      rw [hv] at ha
      rw [ha.1]
      exact hold
    | ok e =>
      obtain ⟨name, es⟩ := e
      rw [hv] at ha
      obtain ⟨hn, ht, -⟩ := ha
      have hnames : ((empty.addAll ds).add d).table.names = (empty.addAll ds).table.names ++ [name] := by
        rw [Table.names, ht, List.map_append]
        rfl
      rw [hnames, List.pairwise_append]
      refine ⟨hold, List.pairwise_singleton _ _, fun a ha b hb => ?_⟩
      rw [List.mem_singleton.1 hb, hkeep a ha]
      -- the new name is valid nowhere before, so its first place is past all of theirs
      have hlast : ¬ ds.findIdx (·.isValidFor name) < ds.length := by
        rw [List.findIdx_lt_length, ← List.any_eq_true, ← contains_addAll_empty, Table.contains_iff]
        exact hn
      rw [List.findIdx_append, if_neg hlast]
      exact Nat.lt_of_lt_of_le (hlt a ha) (Nat.le_add_left _ _)

/-- No verdict is an error, so the channel of errors stays empty. -/
theorem hasErrors_addAll (ds : List Declaration) :
    (empty.addAll ds).findings.hasErrors = false := by
  obtain ⟨-, -, he⟩ := addAll_append [] ds
  rw [List.nil_append] at he
  rw [Collector.hasErrors, he]
  rfl

theorem pos_warnings_addAll_sublist (ds : List Declaration) :
    ((empty.addAll ds).findings.warnings.map (·.pos)).Sublist (ds.map fun d => .line d.line) := by
  obtain ⟨-, hw, -⟩ := addAll_append [] ds
  rw [List.nil_append] at hw
  rw [hw]
  exact pos_verdicts_sublist [] ds

theorem size_add_length_warnings (ds : List Declaration) :
    (empty.addAll ds).table.size + (empty.addAll ds).findings.warnings.length = ds.length := by
  obtain ⟨ht, hw, -⟩ := addAll_append [] ds
  rw [List.nil_append] at ht hw
  rw [Table.size, ht, hw]
  exact length_verdicts [] ds

/-- What some declarations make of an empty registry. Each one more does what its verdict says; a
name has the entries of its first valid declaration, and the names stand in the order of these; and
every declaration is an enum of the table or a warning at its own line, both in the order of the
declarations. -/
theorem addAll_empty_verdicts (ds : List Declaration) :
    (∀ d, (empty.addAll ds).Applies (empty.addAll (ds ++ [d])) (verdict ds d)) ∧
    (∀ name, (empty.addAll ds).table.get? name = ds.findSome? (·.entriesFor? name)) ∧
    ((empty.addAll ds).table.names.Pairwise fun a b =>
      ds.findIdx (·.isValidFor a) < ds.findIdx (·.isValidFor b)) ∧
    (empty.addAll ds).table.enums = (verdicts [] ds).filterMap Except.toOption ∧
    (empty.addAll ds).findings.warnings = (verdicts [] ds).filterMap warning? ∧
    ((empty.addAll ds).findings.warnings.map (·.pos)).Sublist (ds.map fun d => .line d.line) ∧
    (empty.addAll ds).table.size + (empty.addAll ds).findings.warnings.length = ds.length ∧
    (empty.addAll ds).findings.errors = [] := by
  obtain ⟨ht, hw, he⟩ := addAll_append [] ds
  rw [List.nil_append] at ht hw he
  refine ⟨fun d => ?_, get?_addAll_empty ds, names_addAll_pairwise ds, ht, hw,
    pos_warnings_addAll_sublist ds, size_add_length_warnings ds, he⟩
  rw [addAll_concat]
  exact applies_add ds d

end Registry

end EnumForms
