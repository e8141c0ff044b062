import EnumForms.Proofs.Access

/-!
What a call depends on. An expression that names the functions it calls depends on those only, so
two modules that have some functions in common give the same answers to calls of them, if these
functions call nothing but one another. The functions made for a table are such functions, with
`throw/1`.
-/
namespace EnumForms

namespace Expr

variable {K : Text × Int → Prop} {call call' : Text → List Term → Except CallError Term}

mutual

def CallsOnly (K : Text × Int → Prop) : Expr → Prop
  | .cons _ head tail => head.CallsOnly K ∧ tail.CallsOnly K
  | .call _ (.atom _ name) args => K (name, args.length) ∧ AllCallOnly K args
  | .call .. => False
  | _ => True

def AllCallOnly (K : Text × Int → Prop) : List Expr → Prop
  | [] => True
  | e :: es => e.CallsOnly K ∧ AllCallOnly K es

end

theorem length_evalAll {b : Bindings} {es : List Expr} {vs : List Term}
    (h : evalAll call b es = .ok vs) : vs.length = es.length := by
  induction es generalizing vs with
  | nil =>
    cases h
    rfl
  | cons e es ih =>
    obtain ⟨v, -, h⟩ := Attempt.bind_eq_ok.1 h
    obtain ⟨ws, hw, h⟩ := Attempt.bind_eq_ok.1 h
    cases h
    rw [List.length_cons, List.length_cons, ih hw]

mutual

theorem eval_congr (h : ∀ name vs, K (name, (vs.length : Int)) → call name vs = call' name vs)
    (b : Bindings) (e : Expr) (he : e.CallsOnly K) : eval call b e = eval call' b e := by
  cases e with
  | atom | integer | var | nil => simp only [eval]
  | cons p head tail =>
    simp only [CallsOnly] at he
    simp only [eval, eval_congr h b head he.1, eval_congr h b tail he.2]
  | call p function args =>
    cases function with
    | atom q name =>
      simp only [CallsOnly] at he
      simp only [eval, Attempt.ok_bind, evalAll_congr h b args he.2]
      cases hv : evalAll call' b args with
      | error e => rfl
      | ok vs =>
        -- as many values as arguments, so the function is one of `K`
        have hk : K (name, (vs.length : Int)) := by
          rw [length_evalAll hv]
          exact he.1
        exact h name vs hk
    | _ => exact he.elim

theorem evalAll_congr (h : ∀ name vs, K (name, (vs.length : Int)) → call name vs = call' name vs)
    (b : Bindings) (es : List Expr) (he : AllCallOnly K es) :
    evalAll call b es = evalAll call' b es := by
  cases es with
  | nil => simp only [evalAll]
  | cons e es =>
    simp only [AllCallOnly] at he
    simp only [evalAll, eval_congr h b e he.1, evalAll_congr h b es he.2]

end

end Expr

theorem Clause.mem_of_select {args : List Term} {cs : List Clause} {c : Clause} {b : Bindings}
    (h : select args cs = .ok (some (c, b))) : c ∈ cs := by
  induction cs with
  | nil => cases h
  | cons c' cs ih =>
    obtain ⟨r, -, h⟩ := Attempt.bind_eq_ok.1 h
    cases r with
    | some b' =>
      cases h
      exact List.mem_cons_self ..
    | none => exact List.mem_cons_of_mem c' (ih h)

def FunctionDef.CallsOnly (K : Text × Int → Prop) (f : FunctionDef) : Prop :=
  ∀ c ∈ f.clauses, Expr.AllCallOnly K c.body

namespace Module

variable {m m' : Module} {K : Text × Int → Prop}

/-- Both modules have the same functions of `K`, and these call functions of `K` only. -/
structure Shares (m m' : Module) (K : Text × Int → Prop) : Prop where
  lookup : ∀ k, K k → m.functions.lookup k = m'.functions.lookup k
  calls : ∀ k f, K k → m.functions.lookup k = some f → f.CallsOnly K

/-- Calls of shared functions end alike, to whatever depth they are followed. -/
theorem Shares.callWithin (h : m.Shares m' K) (d : Nat) (name : Text) (args : List Term)
    (hk : K (name, (args.length : Int))) : m.callWithin d name args = m'.callWithin d name args := by
  induction d generalizing name args with
  | zero => rfl
  | succ d ih =>
    simp only [Module.callWithin, find?, ← h.lookup _ hk]
    cases hf : m.functions.lookup (name, (args.length : Int)) with
    | none => rfl
    | some f =>
      have hcalls := h.calls _ f hk hf
      cases hs : Clause.select args f.clauses with
      | error e => simp only [hs, Attempt.error_bind]
      | ok r =>
        simp only [hs, Attempt.ok_bind]
        cases r with
        | none => rfl
        | some p =>
          obtain ⟨c, b⟩ := p
          have hb := hcalls c (Clause.mem_of_select hs)
          simp only [Expr.evalBody, Expr.evalAll_congr ih b c.body hb]

theorem Shares.call (h : m.Shares m' K) {name : Term} {n : Text} (hn : name.asAtom = .atom n)
    (args : List Term) (hk : K (n, (args.length : Int))) : m.call name args = m'.call name args := by
  have hc := h.callWithin depthLimit n args hk
  cases name with
  | atom =>
    cases hn
    exact hc
  | str =>
    cases hn
    exact hc
  | _ => cases hn

end Module

namespace Accessors

open EnumForms.Expr

variable {K : Text × Int → Prop} {s : PositionStyle} {t : Table} {line : Int}

theorem callsOnly_functionOf (ht : K (throw, 1)) (p last : Position) (name : Text) (arity : Nat)
    {cs : List Clause} (hcs : ∀ c ∈ cs, AllCallOnly K c.body) :
    (functionOf p last name arity cs).CallsOnly K := by
  intro c hc
  rcases List.mem_append.1 hc with hc | hc
  · exact hcs c hc
  · obtain rfl := List.mem_singleton.1 hc
    simpa [lastClause, clause, AllCallOnly, Expr.CallsOnly] using ht

theorem callsOnly_dispatcher (ht : K (throw, 1)) (name : Text) {target : Text → Text}
    (htarget : ∀ n ∈ t.names, K (target n, 1)) :
    (dispatcher s t line name target).1.CallsOnly K := by
  refine callsOnly_functionOf ht _ _ _ _ fun c hc => ?_
  obtain ⟨x, hx, rfl⟩ := List.mem_map.1 hc
  have hm : x.2 ∈ t.enums := by
    rw [← numbered_map line t]
    exact List.mem_map_of_mem hx
  simpa [clause, AllCallOnly, Expr.CallsOnly] using htarget x.2.1 (List.mem_map_of_mem hm)

theorem callsOnly_dedicated (ht : K (throw, 1)) (name : Text → Text)
    {entryClause : Position → Entry → Clause} (hc : ∀ p e, AllCallOnly K (entryClause p e).body) :
    ∀ f ∈ (dedicated s t line name entryClause).1, f.CallsOnly K := by
  intro f hf
  obtain ⟨x, -, rfl⟩ := List.mem_map.1 hf
  refine callsOnly_functionOf ht _ _ _ _ fun c hm => ?_
  obtain ⟨e, -, rfl⟩ := List.mem_map.1 hm
  exact hc _ e

theorem callsOnly_listOf (p : Position) {es : List Expr} (he : ∀ e ∈ es, e.CallsOnly K) :
    (listOf p es).CallsOnly K := by
  induction es with
  | nil => simp [listOf, Expr.CallsOnly]
  | cons e es ih =>
    rw [List.forall_mem_cons] at he
    have hl : listOf p (e :: es) = .cons p e (listOf p es) := rfl
    rw [hl, Expr.CallsOnly]
    exact ⟨he.1, ih he.2⟩

theorem callsOnly_listing (ht : K (throw, 1)) (name : Text) {item : Position → Entry → Expr}
    (hi : ∀ p e, (item p e).CallsOnly K) : (listing s t line name item).1.CallsOnly K := by
  refine callsOnly_functionOf ht _ _ _ _ fun c hc => ?_
  obtain ⟨x, -, rfl⟩ := List.mem_map.1 hc
  refine ⟨callsOnly_listOf _ fun e he => ?_, trivial⟩
  obtain ⟨entry, -, rfl⟩ := List.mem_map.1 he
  exact hi _ entry

theorem toIntOf_mem_keys_synthesize (s : PositionStyle) (seed : Int) {n : Text} (hn : n ∈ t.names) :
    (toIntOf n, 1) ∈ (synthesize s t seed).1.map FunctionDef.key := by
  have hm : (toIntOf n, (1 : Int)) ∈ t.names.map fun n => (toIntOf n, 1) := List.mem_map_of_mem hn
  rw [keys_synthesize]
  exact List.mem_append_left _ (List.mem_append_left _ (List.mem_cons_of_mem _ hm))

theorem toAtomOf_mem_keys_synthesize (s : PositionStyle) (seed : Int) {n : Text}
    (hn : n ∈ t.names) : (toAtomOf n, 1) ∈ (synthesize s t seed).1.map FunctionDef.key := by
  have hm : (toAtomOf n, (1 : Int)) ∈ t.names.map fun n => (toAtomOf n, 1) := List.mem_map_of_mem hn
  rw [keys_synthesize]
  exact List.mem_append_left _ (List.mem_append_right _ (List.mem_cons_of_mem _ hm))

theorem callsOnly_synthesize (s : PositionStyle) (t : Table) (seed : Int) (ht : K (throw, 1))
    (hk : ∀ k ∈ (synthesize s t seed).1.map FunctionDef.key, K k) :
    ∀ f ∈ (synthesize s t seed).1, f.CallsOnly K := by
  have hi : ∀ n ∈ t.names, K (toIntOf n, 1) := fun n hn => hk _ (toIntOf_mem_keys_synthesize s seed hn)
  have ha : ∀ n ∈ t.names, K (toAtomOf n, 1) :=
    fun n hn => hk _ (toAtomOf_mem_keys_synthesize s seed hn)
  intro f hf
  simp only [synthesize, List.mem_append, List.mem_cons, List.not_mem_nil, or_false] at hf
  rcases hf with ((rfl | hf) | rfl | hf) | rfl | rfl
  · exact callsOnly_dispatcher ht toInt hi
  · refine callsOnly_dedicated ht toIntOf (fun p e => ?_) f hf
    simp [nameToCode, clause, AllCallOnly, Expr.CallsOnly]
  · exact callsOnly_dispatcher ht toAtom ha
  · refine callsOnly_dedicated ht toAtomOf (fun p e => ?_) f hf
    simp [codeToName, clause, AllCallOnly, Expr.CallsOnly]
  · exact callsOnly_listing ht keys fun p e => by simp [Expr.CallsOnly]
  · exact callsOnly_listing ht values fun p e => by simp [Expr.CallsOnly]

end Accessors

def Module.reach (fs : List FunctionDef) (k : Text × Int) : Prop :=
  k ∈ (Accessors.throw, 1) :: fs.map FunctionDef.key

/-- Functions that call one another only, and `throw/1`, answer as they do alone, whatever else was
defined before them. -/
theorem Module.shares_append {before fs : List FunctionDef}
    (hnodup : (fs.map FunctionDef.key).Nodup)
    (hthrow : (Accessors.throw, 1) ∉ (before ++ fs).map FunctionDef.key)
    (hc : ∀ f ∈ fs, f.CallsOnly (reach fs)) :
    (ofFunctions (before ++ fs)).Shares (ofFunctions fs) (reach fs) := by
  have hall : (ofFunctions (before ++ fs)).Hosts fs := hosts_append before hnodup
  have halone : (ofFunctions fs).Hosts fs := hosts_append [] hnodup
  have hnone := lookup_ofFunctions_eq_none hthrow
  refine ⟨fun k hk => ?_, fun k f hk hf => ?_⟩
  · rcases List.mem_cons.1 hk with rfl | hk
    · rw [List.map_append, List.mem_append, not_or] at hthrow
      rw [hnone, lookup_ofFunctions_eq_none hthrow.2]
    · obtain ⟨f, hf, rfl⟩ := List.mem_map.1 hk
      rw [hall f hf, halone f hf]
  · rcases List.mem_cons.1 hk with rfl | hk
    · cases hnone.symm.trans hf
    · obtain ⟨g, hg, rfl⟩ := List.mem_map.1 hk
      cases (hall g hg).symm.trans hf
      exact hc _ hg

end EnumForms
