import EnumForms.Proofs.Generated

/-!
A transformed unit is a unit again, and the transformation finds in it what it found before. Every
generated function is then defined twice, and the module still answers as the table does.
-/
namespace EnumForms

open Transformation

namespace Table

/-- What an accessor answers: what the table holds, or `bad_enum` thrown. -/
def answer (t : Table) : Accessor → List Term → Except CallError Term
  | .toInt, [enum, key] =>
    orBadEnum ((t.entriesOf? enum).bind fun es => (codeOf? es key).map .int)
  | .toAtom, [enum, code] =>
    orBadEnum ((t.entriesOf? enum).bind fun es => (nameOf? es code).map .atom)
  | .keys, [enum] => orBadEnum ((t.entriesOf? enum).map fun es => .list ((keys es).map .atom))
  | .values, [enum] => orBadEnum ((t.entriesOf? enum).map fun es => .list ((codes es).map .int))
  | _, _ => .error .wrongArgumentCount

end Table

theorem Module.Serves.access_eq {m : Module} {t : Table} (h : m.Serves t)
    (ht : m.functions.lookup (Accessors.throw, 1) = none) (a : Accessor) (args : List Term) :
    m.access a args = t.answer a args := by
  unfold Table.answer
  split
  · obtain ⟨d, hd⟩ := h.access_toInt _ _
    rw [hd, orThrow_eq ht]
  · obtain ⟨d, hd⟩ := h.access_toAtom _ _
    rw [hd, orThrow_eq ht]
  · obtain ⟨d, hd⟩ := h.access_keys _
    rw [hd, orThrow_eq ht]
  · obtain ⟨d, hd⟩ := h.access_values _
    rw [hd, orThrow_eq ht]
  · unfold access
    split <;> simp_all

namespace UnitParts

variable {u : UnitParts} {fs : List Form}

def assembled (u : UnitParts) (functions : List FunctionDef) (last : Int) : UnitParts :=
  let style := u.modulePos.style
  { u with
    body := exportForm (style.encode u.modulePos.lineNumber) :: u.body.eraseP isEof ++
      functions.map .function ++ [.eof (style.encode (last + 1))]
    endPos := style.encode (last + 1) }

theorem fileOf?_of_ofForms (h : ofForms fs = .ok u) : fileOf? u.fileForm = some u.file := by
  unfold ofForms at h
  split at h
  · split at h
    · cases h
    · cases h
    · cases h
    · next hf hm he =>
      cases h
      exact hf
  · cases h

theorem ofForms_assemble (h : ofForms fs = .ok u) (functions : List FunctionDef) (last : Int) :
    ofForms (assemble u functions last) = .ok (u.assembled functions last) := by
  obtain ⟨name, value, hm⟩ := (splits_of_ofForms h).moduleForm
  have hpos : attributePos? u.moduleForm = some u.modulePos := by rw [hm]; rfl
  have hend (first : Form) (l : List Form) (p : Position) :
      eofPos? ((first :: (l ++ [.eof p])).getLast (by simp)) = some p := by
    rw [List.getLast_cons (by simp), List.getLast_append_singleton]
    rfl
  simp only [assemble, List.cons_append, ofForms, fileOf?_of_ofForms h, hpos, hend]
  rfl

/-- What a transformation adds declares nothing, and what it takes away neither. -/
theorem find_assembled (u : UnitParts) (functions : List FunctionDef) (last : Int) :
    Declaration.find (u.assembled functions last).body = Declaration.find u.body := by
  have hexport (p : Position) (fs : List Form) :
      Declaration.find (exportForm p :: fs) = Declaration.find fs := by
    have hn : lit "export" ≠ lit "enum" := by decide
    simp [Declaration.find, exportForm, hn]
  have herase : Declaration.find (u.body.eraseP isEof) = Declaration.find u.body := by
    refine filterMap_eraseP (fun f hf => ?_) u.body
    obtain ⟨pos, rfl⟩ := eq_eof_of_isEof hf
    rfl
  have hmade : Declaration.find (functions.map .function) = [] := by
    simp [Declaration.find, List.filterMap_map]
  have hend (p : Position) : Declaration.find [.eof p] = [] := rfl
  have happend (fs gs : List Form) :
      Declaration.find (fs ++ gs) = Declaration.find fs ++ Declaration.find gs :=
    List.filterMap_append
  simp only [assembled, List.cons_append, hexport, happend, herase, hmade, hend, List.append_nil]

theorem table_assembled (u : UnitParts) (functions : List FunctionDef) (last : Int) :
    (u.assembled functions last).table = u.table := by
  rw [table, table, registry, registry, find_assembled]

end UnitParts

namespace Transformation

theorem findings_ofUnit_congr (fs gs : List Form) (u v : UnitParts) (hfile : v.file = u.file)
    (hfind : Declaration.find v.body = Declaration.find u.body) :
    (ofUnit gs v).outcome = (ofUnit fs u).outcome ∧ (ofUnit gs v).file = (ofUnit fs u).file ∧
      (ofUnit gs v).table = (ofUnit fs u).table ∧
      (ofUnit gs v).warnings = (ofUnit fs u).warnings ∧
      (ofUnit gs v).errors = (ofUnit fs u).errors ∧ (ofUnit gs v).stats = (ofUnit fs u).stats := by
  have hr : v.registry = u.registry := by rw [UnitParts.registry, UnitParts.registry, hfind]
  have hc : v.counts = u.counts := by rw [UnitParts.counts, UnitParts.counts, hfind, hr]
  rw [ofUnit_eq gs v, ofUnit_eq fs u, UnitParts.table, UnitParts.table, hr]
  split
  · simp [unchanged, hfile, hr, hc]
  · simp [extended, hfile, hr, hc, Accessors.length_synthesize]

theorem access_ofUnit {fs : List Form} {u : UnitParts} (h : u.Splits fs)
    (hs : u.table.size ≠ 0) (ht : ∀ f, .function f ∈ fs → f.key ≠ (Accessors.throw, 1))
    (a : Accessor) (args : List Term) :
    (ofUnit fs u).module.access a args = u.table.answer a args := by
  refine (serves_ofUnit hs fs).access_eq ?_ a args
  rw [h.module_ofUnit hs]
  exact Module.lookup_ofFunctions_eq_none (h.throw_notMem ht)

end Transformation

/-- The unit that a transformation makes is transformed once more: to the same findings and the same
table, and, unless the unit defines `throw/1`, to a module that answers the same. -/
theorem transform_transformed (fs : List Form) (tr : Transformation) (h : transform fs = .ok tr)
    (ho : tr.outcome = .transformed) :
    ∃ new again, tr.forms = some new ∧ transform new = .ok again ∧ again.outcome = .transformed ∧
      again.file = tr.file ∧ again.table = tr.table ∧ again.warnings = tr.warnings ∧
      again.errors = tr.errors ∧ again.stats = tr.stats ∧
      ((∀ f, .function f ∈ fs → f.key ≠ (Accessors.throw, 1)) →
        ∀ a args, again.module.access a args = tr.module.access a args) := by
  obtain ⟨u, hu, rfl⟩ := Attempt.map_eq_ok.1 h
  have hs := outcome_ofUnit_iff.1 ho
  have hsplits := UnitParts.splits_of_ofForms hu
  have hagain := UnitParts.ofForms_assemble hu u.made.1 u.made.2
  have htable := u.table_assembled u.made.1 u.made.2
  have hs' : (u.assembled u.made.1 u.made.2).table.size ≠ 0 := by
    rw [htable]
    exact hs
  obtain ⟨houtcome, hfile, htab, hwarnings, herrors, hstats⟩ :=
    findings_ofUnit_congr fs (assemble u u.made.1 u.made.2) u (u.assembled u.made.1 u.made.2) rfl
      (u.find_assembled _ _)
  refine ⟨_, _, forms_ofUnit hs fs, Attempt.map_eq_ok.2 ⟨_, hagain, rfl⟩, houtcome.trans ho, hfile,
    htab, hwarnings, herrors, hstats, fun ht a args => ?_⟩
  -- the functions of the new unit are those written in the old one and the generated ones
  have ht' : ∀ f, .function f ∈ assemble u u.made.1 u.made.2 → f.key ≠ (Accessors.throw, 1) := by
    intro f hf he
    rw [← Form.mem_filterMap_function?, hsplits.functions_assemble] at hf
    exact hsplits.throw_notMem ht (List.mem_map.2 ⟨f, hf, he⟩)
  rw [access_ofUnit (UnitParts.splits_of_ofForms hagain) hs' ht', htable,
    access_ofUnit hsplits hs ht]

theorem transform_transformed_crowded : ∃ tr, transform crowded = .ok tr ∧
    tr.outcome = .transformed ∧
    ∃ new again, tr.forms = some new ∧ transform new = .ok again ∧ again.outcome = .transformed ∧
      again.file = tr.file ∧ again.table = tr.table ∧ again.warnings = tr.warnings ∧
      again.errors = tr.errors ∧ again.stats = tr.stats ∧
      (∀ f, .function f ∈ crowded → f.key ≠ (Accessors.throw, 1)) ∧
      ∀ a args, again.module.access a args = tr.module.access a args := by
  obtain ⟨tr, hok, ho⟩ := exists_transform_crowded
  obtain ⟨new, again, hf, ha, hoa, hfile, ht, hw, he, hs, haccess⟩ :=
    transform_transformed crowded tr hok ho
  exact ⟨tr, hok, ho, new, again, hf, ha, hoa, hfile, ht, hw, he, hs, throw_notMem_crowded,
    haccess throw_notMem_crowded⟩

end EnumForms
