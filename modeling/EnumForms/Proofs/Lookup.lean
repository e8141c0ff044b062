import EnumForms.Module
import Mathlib.Data.List.Nodup

/-!
Which function a name and a number of arguments lead to: the last one defined. The functions made
for a table all have signatures of their own, so a module that defines them last runs them.
-/
namespace EnumForms

def FunctionDef.key (f : FunctionDef) : Text × Int := (f.name, f.arity)

namespace Module

theorem lookup_cons_eq_ite {α β : Type*} [BEq α] [LawfulBEq α] [DecidableEq α]
    (k k' : α) (v : β) (es : List (α × β)) :
    ((k', v) :: es).lookup k = if k = k' then some v else es.lookup k := by
  rw [List.lookup_cons]
  by_cases h : k = k'
  · simp [h]
  · simp [h, beq_false_of_ne h]

theorem lookup_define (f : FunctionDef) (ms : List ((Text × Int) × FunctionDef)) (k : Text × Int) :
    (define f ms).lookup k = if k = f.key then some f else ms.lookup k := by
  induction ms with
  | nil => exact lookup_cons_eq_ite k f.key f []
  | cons e ms ih =>
    obtain ⟨k', g⟩ := e
    by_cases hk : k' = f.key
    · have hd : define f ((k', g) :: ms) = (k', f) :: ms := if_pos hk
      rw [hd, lookup_cons_eq_ite, lookup_cons_eq_ite, hk]
      by_cases h : k = f.key <;> simp [h]
    · have hd : define f ((k', g) :: ms) = (k', g) :: define f ms := if_neg hk
      rw [hd, lookup_cons_eq_ite, lookup_cons_eq_ite, ih]
      by_cases h : k = k'
      · subst h; simp [hk]
      · simp [h]

theorem lookup_foldl_define (fs : List FunctionDef) (ms : List ((Text × Int) × FunctionDef))
    (k : Text × Int) :
    (fs.foldl (fun m f => define f m) ms).lookup k =
      (fs.reverse.find? (·.key = k)).or (ms.lookup k) := by
  induction fs generalizing ms with
  | nil => rfl
  | cons f fs ih =>
    rw [List.foldl_cons, ih, lookup_define, List.reverse_cons, List.find?_append, Option.or_assoc]
    by_cases h : k = f.key
    · simp [h]
    · simp [h, Ne.symm h]

theorem lookup_ofFunctions (fs : List FunctionDef) (k : Text × Int) :
    (ofFunctions fs).functions.lookup k = fs.reverse.find? (·.key = k) := by
  rw [ofFunctions, lookup_foldl_define]
  simp

def Hosts (m : Module) (fs : List FunctionDef) : Prop :=
  ∀ f ∈ fs, m.functions.lookup f.key = some f

theorem find?_key_of_nodup {fs : List FunctionDef} (h : (fs.map FunctionDef.key).Nodup)
    {f : FunctionDef} (hf : f ∈ fs) : fs.find? (·.key = f.key) = some f := by
  induction fs with
  | nil => cases hf
  | cons g fs ih =>
    rw [List.map_cons, List.nodup_cons] at h
    rcases List.mem_cons.1 hf with rfl | hm
    · simp
    · have hg : g.key ≠ f.key := fun e => h.1 (e ▸ List.mem_map_of_mem hm)
      rw [List.find?_cons_of_neg (by simpa using hg)]
      exact ih h.2 hm

/-- Functions defined last stand, whatever was defined before them. -/
theorem hosts_append (before : List FunctionDef) {fs : List FunctionDef}
    (h : (fs.map FunctionDef.key).Nodup) : (ofFunctions (before ++ fs)).Hosts fs := by
  intro f hf
  -- the last definition is the first from the end
  have hr : (fs.reverse.map FunctionDef.key).Nodup := by
    rw [List.map_reverse]; exact List.nodup_reverse.2 h
  rw [lookup_ofFunctions, List.reverse_append, List.find?_append,
    find?_key_of_nodup hr (List.mem_reverse.2 hf), Option.some_or]

theorem lookup_ofFunctions_eq_none {fs : List FunctionDef} {k : Text × Int}
    (h : k ∉ fs.map FunctionDef.key) : (ofFunctions fs).functions.lookup k = none := by
  rw [lookup_ofFunctions, List.find?_eq_none]
  intro f hf he
  exact h (List.mem_map.2 ⟨f, List.mem_reverse.1 hf, by simpa using he⟩)

end Module

namespace Accessors

theorem numbered_map (line : Int) (t : Table) : (numbered line t).map (·.2) = t.enums := by
  simp [numbered, Function.comp_def]

theorem keys_synthesize (s : PositionStyle) (t : Table) (seed : Int) :
    (synthesize s t seed).1.map FunctionDef.key =
      (toInt, 2) :: t.names.map (fun n => (toIntOf n, 1)) ++
        (toAtom, 2) :: t.names.map (fun n => (toAtomOf n, 1)) ++ [(keys, 1), (values, 1)] := by
  have hn (line : Int) (f : Text → Text) :
      (numbered line t).map (fun x => (f x.2.1, (1 : Int))) = t.names.map fun n => (f n, 1) := by
    rw [Table.names, ← numbered_map line t]
    simp [Function.comp_def]
  simp [synthesize, dispatcher, dedicated, listing, functionOf, FunctionDef.key, Function.comp_def,
    hn]

theorem length_synthesize (s : PositionStyle) (t : Table) (seed : Int) :
    (synthesize s t seed).1.length = 2 * t.size + 4 := by
  have h := congrArg List.length (keys_synthesize s t seed)
  simp only [List.length_map, List.length_append, List.length_cons, List.length_nil,
    Table.names] at h
  rw [h, Table.size]
  omega

theorem getLast?_toIntOf (enum : Text) : (toIntOf enum).getLast? = some (.ofChar 't') := by
  simp [toIntOf, lit]

theorem getLast?_toAtomOf (enum : Text) : (toAtomOf enum).getLast? = some (.ofChar 'm') := by
  simp [toAtomOf, lit]

theorem toIntOf_injective : Function.Injective toIntOf := fun _ _ h => List.append_cancel_right h

theorem toAtomOf_injective : Function.Injective toAtomOf := fun _ _ h => List.append_cancel_right h

/-- Names with different last letters differ, whatever enums they are made from. -/
theorem ne_of_getLast? {u v : Text} {a b : CodePoint} (hu : u.getLast? = some a)
    (hv : v.getLast? = some b) (h : a ≠ b) : u ≠ v := by
  rintro rfl
  exact h (Option.some.inj (hu.symm.trans hv))

theorem toIntOf_ne_toAtomOf (a b : Text) : toIntOf a ≠ toAtomOf b :=
  ne_of_getLast? (getLast?_toIntOf a) (getLast?_toAtomOf b) (by decide)

theorem nodup_keys_synthesize (s : PositionStyle) (t : Table) (seed : Int) :
    ((synthesize s t seed).1.map FunctionDef.key).Nodup := by
  have hk : keys.getLast? = some (.ofChar 's') := by decide
  have hv : values.getLast? = some (.ofChar 's') := by decide
  have hint (n : Text) : toIntOf n ≠ keys ∧ toIntOf n ≠ values :=
    ⟨ne_of_getLast? (getLast?_toIntOf n) hk (by decide),
      ne_of_getLast? (getLast?_toIntOf n) hv (by decide)⟩
  have hatom (n : Text) : toAtomOf n ≠ keys ∧ toAtomOf n ≠ values :=
    ⟨ne_of_getLast? (getLast?_toAtomOf n) hk (by decide),
      ne_of_getLast? (getLast?_toAtomOf n) hv (by decide)⟩
  have hia : toInt ≠ toAtom := by decide
  have hkv : keys ≠ values := by decide
  have hni : (t.names.map fun n => (toIntOf n, (1 : Int))).Nodup :=
    t.nodup.map fun a b h => toIntOf_injective (Prod.mk.inj h).1
  have hna : (t.names.map fun n => (toAtomOf n, (1 : Int))).Nodup :=
    t.nodup.map fun a b h => toAtomOf_injective (Prod.mk.inj h).1
  rw [keys_synthesize]
  refine List.nodup_append.2 ⟨List.nodup_append.2 ⟨?_, ?_, ?_⟩, ?_, ?_⟩
  · simp [hni]
  · simp [hna]
  · simp only [List.forall_mem_cons, List.forall_mem_map]
    simp [hia, toIntOf_ne_toAtomOf]
  · simp [hkv]
  · simp only [List.forall_mem_append, List.forall_mem_cons, List.forall_mem_map]
    simp [hint, hatom]

theorem throw_notMem_keys_synthesize (s : PositionStyle) (t : Table) (seed : Int) :
    (throw, 1) ∉ (synthesize s t seed).1.map FunctionDef.key := by
  have ht : throw.getLast? = some (.ofChar 'w') := by decide
  have hint (n : Text) : toIntOf n ≠ throw := ne_of_getLast? (getLast?_toIntOf n) ht (by decide)
  have hatom (n : Text) : toAtomOf n ≠ throw := ne_of_getLast? (getLast?_toAtomOf n) ht (by decide)
  have hk : throw ≠ keys ∧ throw ≠ values := by decide
  rw [keys_synthesize]
  simp [hint, hatom, hk]

end Accessors

end EnumForms
