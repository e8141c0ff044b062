import EnumForms.Proofs.Assembly
import EnumForms.Proofs.Calls

/-!
The functions of a transformed unit are those written in it and then those made for its table. The
latter answer as if they stood alone, whatever is written, unless `throw/1` is.
-/
namespace EnumForms

open Transformation

theorem filterMap_eraseP {α β : Type*} {p : α → Bool} {g : α → Option β}
    (h : ∀ a, p a = true → g a = none) (l : List α) : (l.eraseP p).filterMap g = l.filterMap g := by
  induction l with
  | nil => rfl
  | cons a l ih =>
    by_cases ha : p a = true
    · simp [ha, h a ha]
    · simp [ha, ih, List.filterMap_cons]

theorem Form.function?_of_isEof (f : Form) (h : isEof f = true) : f.function? = none := by
  obtain ⟨pos, rfl⟩ := eq_eof_of_isEof h
  rfl

theorem Form.mem_filterMap_function? {f : FunctionDef} {fs : List Form} :
    f ∈ fs.filterMap Form.function? ↔ .function f ∈ fs := by
  rw [List.mem_filterMap]
  constructor
  · rintro ⟨g, hg, he⟩
    cases g with
    | function g =>
      cases he
      exact hg
    | _ => cases he
  · exact fun hf => ⟨.function f, hf, rfl⟩

namespace UnitParts

variable {u : UnitParts} {fs : List Form}

def written (u : UnitParts) : List FunctionDef := u.body.filterMap Form.function?

theorem Splits.function_mem_of_written (h : u.Splits fs) {f : FunctionDef} (hf : f ∈ u.written) :
    .function f ∈ fs := by
  rw [h.forms]
  exact List.mem_cons_of_mem _ (List.mem_cons_of_mem _ (Form.mem_filterMap_function?.1 hf))

theorem Splits.throw_notMem (h : u.Splits fs)
    (ht : ∀ f, .function f ∈ fs → f.key ≠ (Accessors.throw, 1)) :
    (Accessors.throw, 1) ∉ (u.written ++ u.made.1).map FunctionDef.key := by
  rw [List.map_append, List.mem_append, not_or]
  refine ⟨fun hm => ?_, Accessors.throw_notMem_keys_synthesize _ _ _⟩
  obtain ⟨f, hf, he⟩ := List.mem_map.1 hm
  exact ht f (h.function_mem_of_written hf) he

/-- The end mark left out is no function and the first forms are attributes, so what is written
stays. -/
theorem Splits.functions_assemble (h : u.Splits fs) (functions : List FunctionDef) (last : Int) :
    (assemble u functions last).filterMap Form.function? = u.written ++ functions := by
  obtain ⟨pos, name, value, hf⟩ := h.fileForm
  obtain ⟨name', value', hm⟩ := h.moduleForm
  have hnew : (functions.map Form.function).filterMap Form.function? = functions := by
    simp [List.filterMap_map, Function.comp_def, Form.function?]
  have hold := filterMap_eraseP Form.function?_of_isEof u.body
  simp [assemble, hf, hm, exportForm, Form.function?, List.filterMap_cons, hnew, hold, written]

theorem Splits.module_ofUnit (h : u.Splits fs) (hs : u.table.size ≠ 0) :
    (ofUnit fs u).module = .ofFunctions (u.written ++ u.made.1) := by
  rw [Transformation.module, forms_ofUnit hs, Option.getD_some, Module.ofForms_eq,
    h.functions_assemble]

end UnitParts

theorem Transformation.outcome_ofUnit_iff {fs : List Form} {u : UnitParts} :
    (ofUnit fs u).outcome = .transformed ↔ u.table.size ≠ 0 := by
  by_cases hs : u.table.size = 0
  · simp [ofUnit_of_size_eq_zero hs, unchanged, hs]
  · simp [ofUnit_of_size_ne_zero hs, extended, hs]

theorem Module.Shares.access {m m' : Module} {K : Text × Int → Prop} (h : m.Shares m' K)
    (he : ∀ k ∈ Accessors.exports, K k) (a : Accessor) (args : List Term) :
    m.access a args = m'.access a args := by
  simp only [Accessors.exports, List.forall_mem_cons] at he
  obtain ⟨hi, ha, hk, hv, -⟩ := he
  unfold Module.access
  split
  · exact h.call rfl _ hi
  · exact h.call rfl _ ha
  · exact h.call rfl _ hk
  · exact h.call rfl _ hv
  · rfl

theorem Accessors.exports_subset_keys_synthesize (s : PositionStyle) (t : Table) (seed : Int) :
    ∀ k ∈ exports, k ∈ (synthesize s t seed).1.map FunctionDef.key := by
  rw [keys_synthesize]
  simp [exports]

/-- In a unit that is transformed and does not define `throw/1`, the accessors answer as they do in
the module of the generated functions alone, and so does every one of these functions, those of the
enums among them. -/
theorem module_transform_shares (fs : List Form) (tr : Transformation) (h : transform fs = .ok tr)
    (ho : tr.outcome = .transformed)
    (ht : ∀ f, .function f ∈ fs → f.key ≠ (Accessors.throw, 1)) :
    let alone := Module.ofFunctions tr.generated
    (∀ a args, tr.module.access a args = alone.access a args) ∧
    (∀ f ∈ tr.generated, ∀ name args, name.asAtom = .atom f.name → (args.length : Int) = f.arity →
      tr.module.call name args = alone.call name args) ∧
    ∀ enum ∈ tr.table.names, ∀ x,
      tr.module.call (.atom (Accessors.toIntOf enum)) [x] =
        alone.call (.atom (Accessors.toIntOf enum)) [x] ∧
      tr.module.call (.atom (Accessors.toAtomOf enum)) [x] =
        alone.call (.atom (Accessors.toAtomOf enum)) [x] := by
  obtain ⟨u, hu, rfl⟩ := Attempt.map_eq_ok.1 h
  have hsplits := UnitParts.splits_of_ofForms hu
  have hs := outcome_ofUnit_iff.1 ho
  have hshares : (ofUnit fs u).module.Shares (.ofFunctions u.made.1) (Module.reach u.made.1) := by
    rw [hsplits.module_ofUnit hs]
    refine Module.shares_append (Accessors.nodup_keys_synthesize _ _ _) (hsplits.throw_notMem ht) ?_
    exact Accessors.callsOnly_synthesize _ _ _ (List.mem_cons_self ..) fun k hk =>
      List.mem_cons_of_mem _ hk
  rw [table_ofUnit, generated_ofUnit hs]
  refine ⟨fun a args => ?_, fun f hf name args hn hl => ?_, fun enum he x => ⟨?_, ?_⟩⟩
  · exact hshares.access (fun k hk => List.mem_cons_of_mem _
      (Accessors.exports_subset_keys_synthesize _ _ _ k hk)) a args
  · refine hshares.call hn args (List.mem_cons_of_mem _ ?_)
    rw [hl]
    exact List.mem_map_of_mem hf
  · exact hshares.call rfl [x]
      (List.mem_cons_of_mem _ (Accessors.toIntOf_mem_keys_synthesize _ _ he))
  · exact hshares.call rfl [x]
      (List.mem_cons_of_mem _ (Accessors.toAtomOf_mem_keys_synthesize _ _ he))

def crowded : List Form :=
  [.attribute (.line 1) (lit "file") (.tuple [.str (lit "f"), .int 1]),
    .attribute (.line 2) (lit "module") (.atom (lit "m")),
    .attribute (.line 3) (lit "enum") (.tuple [.atom (lit "e"), .list [.atom (lit "a")]]),
    .function ⟨.line 4, lit "to_int", 2, []⟩,
    .eof (.line 5),
    .function ⟨.line 6, lit "e_to_int", 1, []⟩,
    .attribute (.line 7) (lit "enum") (.tuple [.atom (lit "e"), .list []]),
    .function ⟨.line 8, lit "throw", 2, []⟩,
    .eof (.line 9)]

theorem exists_transform_crowded :
    ∃ tr, transform crowded = .ok tr ∧ tr.outcome = .transformed := by
  have ho : ((transform crowded).toOption.map fun tr => tr.outcome) = some .transformed := by
    decide +kernel
  obtain ⟨tr, ht, ho⟩ := Option.map_eq_some_iff.1 ho
  exact ⟨tr, Attempt.toOption_eq_some.1 ht, ho⟩

theorem throw_notMem_crowded (f : FunctionDef) (hf : .function f ∈ crowded) :
    f.key ≠ (Accessors.throw, 1) := by
  simp only [crowded, List.mem_cons, List.not_mem_nil, or_false, reduceCtorEq, false_or,
    Form.function.injEq] at hf
  obtain rfl | rfl | rfl := hf <;> decide

theorem module_transform_shares_crowded : ∃ tr, transform crowded = .ok tr ∧
    tr.outcome = .transformed ∧
    (∀ f, .function f ∈ crowded → f.key ≠ (Accessors.throw, 1)) ∧
    let alone := Module.ofFunctions tr.generated
    (∀ a args, tr.module.access a args = alone.access a args) ∧
    (∀ f ∈ tr.generated, ∀ name args, name.asAtom = .atom f.name → (args.length : Int) = f.arity →
      tr.module.call name args = alone.call name args) ∧
    ∀ enum ∈ tr.table.names, ∀ x,
      tr.module.call (.atom (Accessors.toIntOf enum)) [x] =
        alone.call (.atom (Accessors.toIntOf enum)) [x] ∧
      tr.module.call (.atom (Accessors.toAtomOf enum)) [x] =
        alone.call (.atom (Accessors.toAtomOf enum)) [x] := by
  obtain ⟨tr, hok, ho⟩ := exists_transform_crowded
  exact ⟨tr, hok, ho, throw_notMem_crowded,
    module_transform_shares crowded tr hok ho throw_notMem_crowded⟩

end EnumForms
