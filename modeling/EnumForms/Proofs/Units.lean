import EnumForms.Proofs.Access
import EnumForms.Proofs.Verdicts
import EnumForms.Transformation

/-!
A text that is transformed: the table its declarations make, and the module it becomes. The
functions made for the table come last in the module, so they stand whatever functions the unit
has of its own.
-/
namespace EnumForms

theorem transformText_eq_ok_iff {s : Text} {tr : Transformation} :
    transformText s = .ok tr ↔
      ∃ fs u, readForms s = .ok fs ∧ UnitParts.ofForms fs = .ok u ∧ tr = .ofUnit fs u := by
  rw [transformText, Attempt.bind_eq_ok]
  constructor
  · rintro ⟨fs, hf, ht⟩
    rw [Attempt.mapError_eq_ok] at hf ht
    obtain ⟨u, hu, rfl⟩ := Attempt.map_eq_ok.1 ht
    exact ⟨fs, u, hf, hu, rfl⟩
  · rintro ⟨fs, u, hf, hu, rfl⟩
    refine ⟨fs, Attempt.mapError_eq_ok.2 hf, Attempt.mapError_eq_ok.2 ?_⟩
    exact Attempt.map_eq_ok.2 ⟨u, hu, rfl⟩

def Form.function? : Form → Option FunctionDef
  | .function f => some f
  | _ => none

theorem Module.ofForms_eq (fs : List Form) :
    ofForms fs = ofFunctions (fs.filterMap Form.function?) := rfl

namespace UnitParts

def table (u : UnitParts) : Table := u.registry.table

def made (u : UnitParts) : List FunctionDef × Int :=
  Accessors.synthesize u.modulePos.style u.table u.endPos.lineNumber

theorem ascending_of_get? {u : UnitParts} {enum : Text} {es : List Entry}
    (h : u.table.get? enum = some es) : Entry.Ascending es := by
  obtain ⟨t, ht⟩ := Registry.described_addAll Registry.described_empty _ enum es h
  exact Entry.ascending_of_listOfTerm? ht

end UnitParts

namespace Transformation

/-- No declaration is an error, so no transformation fails. -/
theorem ofUnit_eq (fs : List Form) (u : UnitParts) :
    ofUnit fs u = if u.table.size = 0 then unchanged fs u else extended u := by
  have he : u.registry.findings.hasErrors = false := Registry.hasErrors_addAll _
  rw [ofUnit, he, if_neg Bool.false_ne_true]
  rfl

theorem ofUnit_of_size_eq_zero {u : UnitParts} (h : u.table.size = 0) (fs : List Form) :
    ofUnit fs u = unchanged fs u := by
  rw [ofUnit_eq, if_pos h]

theorem ofUnit_of_size_ne_zero {u : UnitParts} (h : u.table.size ≠ 0) (fs : List Form) :
    ofUnit fs u = extended u := by
  rw [ofUnit_eq, if_neg h]

theorem table_ofUnit (fs : List Form) (u : UnitParts) : (ofUnit fs u).table = u.table := by
  rw [ofUnit_eq]
  split <;> rfl

theorem forms_ofUnit {u : UnitParts} (h : u.table.size ≠ 0) (fs : List Form) :
    (ofUnit fs u).forms = some (assemble u u.made.1 u.made.2) := by
  rw [ofUnit_of_size_ne_zero h]
  rfl

theorem ofForms_assemble (u : UnitParts) (functions : List FunctionDef) (last : Int) :
    ∃ before, Module.ofForms (assemble u functions last) = .ofFunctions (before ++ functions) := by
  have hnew : (functions.map Form.function).filterMap Form.function? = functions := by
    simp [List.filterMap_map, Function.comp_def, Form.function?]
  have hend (pos : Position) : [Form.eof pos].filterMap Form.function? = [] := rfl
  simp only [Module.ofForms_eq, assemble, List.filterMap_append, hnew, hend, List.append_nil]
  exact ⟨_, rfl⟩

theorem serves_ofUnit {u : UnitParts} (h : u.table.size ≠ 0) (fs : List Form) :
    (ofUnit fs u).module.Serves u.table := by
  obtain ⟨before, hb⟩ := ofForms_assemble u u.made.1 u.made.2
  have hm : (ofUnit fs u).module = .ofFunctions (before ++ u.made.1) := by
    rw [Transformation.module, forms_ofUnit h, Option.getD_some, hb]
  rw [hm]
  exact (Module.hosts_append before (Accessors.nodup_keys_synthesize _ _ _)).serves

end Transformation

/-- What is known of an enum of a text that is transformed: its codes go up, and the module answers
as the table does. -/
theorem serves_transformText {s : Text} {tr : Transformation} (h : transformText s = .ok tr)
    {enum : Text} {es : List Entry} (he : tr.table.get? enum = some es) :
    Entry.Ascending es ∧ tr.module.Serves tr.table := by
  obtain ⟨fs, u, -, -, rfl⟩ := transformText_eq_ok_iff.1 h
  rw [Transformation.table_ofUnit] at he ⊢
  refine ⟨UnitParts.ascending_of_get? he, Transformation.serves_ofUnit (fun hs => ?_) fs⟩
  rw [Table.get?, List.length_eq_zero_iff.1 hs] at he
  cases he

end EnumForms
