import EnumForms.Proofs.Generated

/-!
The functions made for a table as a module. Each has a signature of its own, which its clauses fit,
none is `throw/1`, and they call `throw/1` and one another only. So whatever the enums are called, a
module of these functions keeps all of them.
-/
namespace EnumForms

/-- A function whose clauses all take the number of arguments it says, without guards. -/
def FunctionDef.Regular (f : FunctionDef) : Prop :=
  ∀ c ∈ f.clauses, (c.patterns.length : Int) = f.arity ∧ c.guards = []

namespace Module

theorem define_of_notMem {f : FunctionDef} {ms : List ((Text × Int) × FunctionDef)}
    (h : f.key ∉ ms.map (·.1)) : define f ms = ms ++ [(f.key, f)] := by
  induction ms with
  | nil => rfl
  | cons m ms ih =>
    obtain ⟨k, g⟩ := m
    rw [List.map_cons, List.mem_cons, not_or] at h
    have hd : define f ((k, g) :: ms) = (k, g) :: define f ms := if_neg (Ne.symm h.1)
    rw [hd, ih h.2, List.cons_append]

theorem foldl_define {fs : List FunctionDef} {ms : List ((Text × Int) × FunctionDef)}
    (h : (ms.map (·.1) ++ fs.map FunctionDef.key).Nodup) :
    fs.foldl (fun m f => define f m) ms = ms ++ fs.map fun f => (f.key, f) := by
  induction fs generalizing ms with
  | nil => rw [List.foldl_nil, List.map_nil, List.append_nil]
  | cons f fs ih =>
    rw [List.map_cons, List.append_cons] at h
    have hf : f.key ∉ ms.map (·.1) := by
      have hn := (List.nodup_append.1 h).1
      exact fun hm => (List.nodup_append.1 hn).2.2 _ hm _ (List.mem_singleton_self _) rfl
    have hms : ((ms ++ [(f.key, f)]).map (·.1) ++ fs.map FunctionDef.key).Nodup := by
      rw [List.map_append]
      exact h
    rw [List.foldl_cons, define_of_notMem hf, ih hms, List.map_cons, List.append_assoc,
      List.singleton_append]

theorem functions_ofFunctions {fs : List FunctionDef} (h : (fs.map FunctionDef.key).Nodup) :
    (ofFunctions fs).functions = fs.map fun f => (f.key, f) := by
  rw [ofFunctions, foldl_define, List.nil_append]
  exact h

end Module

namespace Accessors

variable {s : PositionStyle} {t : Table} {line : Int}

theorem regular_functionOf (p last : Position) (name : Text) {arity : Nat} {cs : List Clause}
    (h : ∀ c ∈ cs, c.patterns.length = arity ∧ c.guards = []) :
    (functionOf p last name arity cs).Regular := by
  intro c hc
  rcases List.mem_append.1 hc with hc | hc
  · obtain ⟨hp, hg⟩ := h c hc
    exact ⟨congrArg Nat.cast hp, hg⟩
  · obtain rfl := List.mem_singleton.1 hc
    exact ⟨congrArg Nat.cast List.length_replicate, rfl⟩

theorem regular_dispatcher (name : Text) (target : Text → Text) :
    (dispatcher s t line name target).1.Regular := by
  refine regular_functionOf _ _ _ fun c hc => ?_
  obtain ⟨x, -, rfl⟩ := List.mem_map.1 hc
  exact ⟨rfl, rfl⟩

theorem regular_dedicated (name : Text → Text) {entryClause : Position → Entry → Clause}
    (h : ∀ p e, (entryClause p e).patterns.length = 1 ∧ (entryClause p e).guards = []) :
    ∀ f ∈ (dedicated s t line name entryClause).1, f.Regular := by
  intro f hf
  obtain ⟨x, -, rfl⟩ := List.mem_map.1 hf
  refine regular_functionOf _ _ _ fun c hc => ?_
  obtain ⟨e, -, rfl⟩ := List.mem_map.1 hc
  exact h _ e

theorem regular_listing (name : Text) (item : Position → Entry → Expr) :
    (listing s t line name item).1.Regular := by
  refine regular_functionOf _ _ _ fun c hc => ?_
  obtain ⟨x, -, rfl⟩ := List.mem_map.1 hc
  exact ⟨rfl, rfl⟩

theorem regular_synthesize (s : PositionStyle) (t : Table) (seed : Int) :
    ∀ f ∈ (synthesize s t seed).1, f.Regular := by
  intro f hf
  simp only [synthesize, List.mem_append, List.mem_cons, List.not_mem_nil, or_false] at hf
  rcases hf with ((rfl | hf) | rfl | hf) | rfl | rfl
  · exact regular_dispatcher toInt toIntOf
  · exact regular_dedicated toIntOf (fun p e => ⟨rfl, rfl⟩) f hf
  · exact regular_dispatcher toAtom toAtomOf
  · exact regular_dedicated toAtomOf (fun p e => ⟨rfl, rfl⟩) f hf
  · exact regular_listing keys _
  · exact regular_listing values _

end Accessors

open Accessors in
/-- Two functions for each enum and four more are made for a table. Their signatures differ, and
none is `throw/1`; every clause fits the signature of its function and has no guards; every call
leads to `throw/1` or to one of these functions, with as many arguments as that takes; and each
function that units export is made once. So a module of them holds all, each under its signature. -/
theorem synthesize_selfContained (s : PositionStyle) (t : Table) (seed : Int) :
    let fs := (synthesize s t seed).1
    fs.length = 2 * t.size + 4 ∧
    (fs.map FunctionDef.key).Nodup ∧
    (throw, 1) ∉ fs.map FunctionDef.key ∧
    (∀ f ∈ fs, f.Regular) ∧
    (∀ f ∈ fs, f.CallsOnly fun k => k = (throw, 1) ∨ k ∈ fs.map FunctionDef.key) ∧
    (∀ k ∈ exports, (fs.map FunctionDef.key).count k = 1) ∧
    (Module.ofForms (fs.map .function)).functions = fs.map fun f => (f.key, f) := by
  intro fs
  have hnodup : (fs.map FunctionDef.key).Nodup := nodup_keys_synthesize s t seed
  have hforms : Module.ofForms (fs.map .function) = .ofFunctions fs := by
    simp [Module.ofForms_eq, List.filterMap_map, Function.comp_def, Form.function?]
  refine ⟨length_synthesize s t seed, hnodup, throw_notMem_keys_synthesize s t seed,
    regular_synthesize s t seed, ?_, fun k hk => ?_, ?_⟩
  · exact callsOnly_synthesize s t seed (.inl rfl) fun k hk => .inr hk
  · exact List.count_eq_one_of_mem hnodup (exports_subset_keys_synthesize s t seed k hk)
  · rw [hforms, Module.functions_ofFunctions hnodup]

end EnumForms
