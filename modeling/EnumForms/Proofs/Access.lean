import EnumForms.Attempt
import EnumForms.Proofs.Lookup

/-!
The functions made for a table answer as the table does: a name gives the code of the first entry
of that name, a code the name of the first entry with it, and everything that is not in the table
throws `bad_enum`.
-/
namespace EnumForms

theorem Term.equal_atom (v : Term) (n : Text) : v.equal (.atom n) = true ↔ v = .atom n := by
  cases v <;> simp [Term.equal, Term.equalNumbers]

namespace Clause

theorem select_map_append {β : Type*} {xs : List β} {c : β → Clause} {q : β → Bool} {b : Bindings}
    {last : Clause} {args : List Term}
    (hc : ∀ x ∈ xs, (c x).matches? args = .ok (if q x then some b else none))
    (hl : last.matches? args = .ok (some [])) :
    select args (xs.map c ++ [last]) =
      .ok (some (((xs.find? q).map fun x => (c x, b)).getD (last, []))) := by
  induction xs with
  | nil => simp [select, hl]
  | cons x xs ih =>
    have hx := hc x (by simp)
    have hr := ih fun y hy => hc y (List.mem_cons_of_mem x hy)
    by_cases h : q x
    · simp [select, hx, h]
    · simp [select, hx, h, ← hr]

end Clause

namespace Accessors

theorem matches_lastClause (p : Position) (args : List Term) :
    (lastClause p args.length).matches? args = .ok (some []) := by
  have h (vs : List Term) :
      Expr.matchAll? (List.replicate vs.length (.var p (lit "_"))) vs [] = .ok (some []) := by
    induction vs with
    | nil => rfl
    | cons v vs ih => simp [List.replicate_succ, Expr.matchAll?, Expr.matches?, ih]
  simp [lastClause, clause, Clause.matches?, h]

theorem matches_clause (p : Position) (pattern body : Expr) (v : Term) :
    (clause p [pattern] body).matches? [v] = pattern.matches? v [] := by
  cases h : pattern.matches? v [] with
  | error e => simp [clause, Clause.matches?, Expr.matchAll?, h]
  | ok r => cases r <;> simp [clause, Clause.matches?, Expr.matchAll?, h]

theorem matches_dispatch (p : Position) (enum : Text) (body : Expr) (u v : Term) :
    (clause p [.atom p enum, .var p (lit "Enum")] body).matches? [u, v] =
      .ok (if u.equal (.atom enum) then some [(lit "Enum", v)] else none) := by
  have he : lit "Enum" ≠ lit "_" := by decide
  by_cases h : u.equal (.atom enum) <;>
    simp [clause, Clause.matches?, Expr.matchAll?, Expr.matches?, h, he]

end Accessors

open Accessors

namespace Module

variable {m : Module} {d : Nat}

theorem evalBody_one (b : Bindings) (e : Expr) :
    Expr.evalBody (m.callWithin d) b [e] = Expr.eval (m.callWithin d) b e := by
  cases h : Expr.eval (m.callWithin d) b e <;> simp [Expr.evalBody, Expr.evalAll, h]

theorem callWithin_functionOf {β : Type*} {p l : Position} {name : Text} {xs : List β}
    {c : β → Clause} {q : β → Bool} {b : Bindings} (args : List Term)
    (hf : m.functions.lookup (name, (args.length : Int)) =
      some (functionOf p l name args.length (xs.map c)))
    (hc : ∀ x ∈ xs, (c x).matches? args = .ok (if q x then some b else none)) :
    m.callWithin (d + 1) name args =
      ((xs.find? q).map fun x => Expr.evalBody (m.callWithin d) b (c x).body).getD
        (m.callWithin d throw [.atom badEnum]) := by
  have hs := Clause.select_map_append hc (matches_lastClause l args)
  have hl : Expr.evalBody (m.callWithin d) [] (lastClause l args.length).body =
      m.callWithin d throw [.atom badEnum] := by
    simp [lastClause, clause, evalBody_one, Expr.eval, Expr.evalAll]
  cases h : xs.find? q <;> simp [callWithin, find?, hf, functionOf, hs, h, hl]

theorem callWithin_throw (ht : m.functions.lookup (throw, 1) = none) :
    m.callWithin (d + 1) throw [.atom badEnum] = .error .badEnum := by
  have hb : (Term.atom badEnum).equal (.atom badEnum) = true := (Term.equal_atom _ _).2 rfl
  simp [callWithin, find?, ht, callUndefined, hb]

/-- A value, or what comes of throwing `bad_enum` where there is none. -/
def orThrow (m : Module) (d : Nat) (v : Option Term) : Except CallError Term :=
  (v.map .ok).getD (m.callWithin d throw [.atom badEnum])

variable {s : PositionStyle} {t : Table} {line : Int}

theorem callWithin_dispatcher {name : Text} {target : Text → Text}
    (hf : m.functions.lookup (name, 2) = some (dispatcher s t line name target).1) (u v : Term) :
    m.callWithin (d + 1) name [u, v] =
      ((t.enums.find? fun e => u.equal (.atom e.1)).map fun e =>
        m.callWithin d (target e.1) [v]).getD (m.callWithin d throw [.atom badEnum]) := by
  have hn : ((numbered line t).find? fun x => u.equal (.atom x.2.1)).map (·.2) =
      t.enums.find? fun e => u.equal (.atom e.1) := by
    rw [← numbered_map line t, List.find?_map]
    rfl
  rw [callWithin_functionOf [u, v] hf fun x _ => matches_dispatch _ x.2.1 _ u v, ← hn,
    Option.map_map]
  congr 2
  funext x
  simp [clause, evalBody_one, Expr.eval, Expr.evalAll]

theorem callWithin_nameToCode {p : Position} {name : Text} {es : List Entry}
    (hf : m.functions.lookup (name, 1) = some (functionOf p p name 1 (es.map (nameToCode p))))
    (v : Term) :
    m.callWithin (d + 1) name [v] =
      m.orThrow d ((es.find? fun e => v.equal (.atom e.name)).map fun e => .int e.code) := by
  rw [callWithin_functionOf [v] hf fun e _ => matches_clause p (.atom p e.name) _ v]
  simp [orThrow, Function.comp_def, nameToCode, clause, evalBody_one, Expr.eval]

theorem callWithin_codeToName {p : Position} {name : Text} {es : List Entry}
    (hf : m.functions.lookup (name, 1) = some (functionOf p p name 1 (es.map (codeToName p))))
    (v : Term) :
    m.callWithin (d + 1) name [v] =
      m.orThrow d ((es.find? fun e => v.int? = some e.code).map fun e => .atom e.name) := by
  have hm (e : Entry) (_ : e ∈ es) : (codeToName p e).matches? [v] =
      .ok (if decide (v.int? = some e.code) then some [] else none) := by
    simp [codeToName, matches_clause, Expr.matches?]
  rw [callWithin_functionOf [v] hf hm]
  simp [orThrow, Function.comp_def, codeToName, clause, evalBody_one, Expr.eval]

theorem eval_listOf (call : Text → List Term → Except CallError Term) (b : Bindings) (p : Position)
    {item : Entry → Expr} {value : Entry → Term} (es : List Entry)
    (hi : ∀ e, Expr.eval call b (item e) = .ok (value e)) :
    Expr.eval call b (listOf p (es.map item)) = .ok (.list (es.map value)) := by
  induction es with
  | nil => simp [listOf, Expr.eval]
  | cons e es ih =>
    have hr : Expr.eval call b (List.foldr (.cons p) (.nil p) (es.map item)) =
        .ok (.list (es.map value)) := ih
    simp [listOf, Expr.eval, hr, hi]

theorem callWithin_listing {name : Text} {item : Position → Entry → Expr} (value : Entry → Term)
    (hf : m.functions.lookup (name, 1) = some (listing s t line name item).1)
    (hi : ∀ p e, Expr.eval (m.callWithin d) [] (item p e) = .ok (value e)) (v : Term) :
    m.callWithin (d + 1) name [v] =
      m.orThrow d ((t.enums.find? fun e => v.equal (.atom e.1)).map fun e =>
        .list (e.2.map value)) := by
  rw [callWithin_functionOf [v] hf fun e _ => matches_clause _ (.atom _ e.1) _ v, orThrow,
    Option.map_map]
  congr 2
  funext e
  simp only [clause, evalBody_one, eval_listOf _ _ _ _ (hi _), Function.comp_apply]

end Module

namespace Table

/-- The entries of the enum that a term names. A string names what the atom does. -/
def entriesOf? (t : Table) (enum : Term) : Option (List Entry) :=
  match enum.asAtom with
  | .atom name => t.get? name
  | _ => none

def codeOf? (es : List Entry) (key : Term) : Option Int :=
  match key.asAtom with
  | .atom name => (es.find? (·.name = name)).map (·.code)
  | _ => none

def nameOf? (es : List Entry) (code : Term) : Option Text :=
  match code with
  | .int c => (es.find? (·.code = c)).map (·.name)
  | _ => none

theorem find?_enum (t : Table) (name : Text) :
    t.enums.find? (fun e => (Term.atom name).equal (.atom e.1)) =
      (t.get? name).map fun es => (name, es) := by
  rw [get?]
  induction t.enums with
  | nil => rfl
  | cons e enums ih =>
    obtain ⟨k, es⟩ := e
    rw [Module.lookup_cons_eq_ite]
    by_cases h : name = k
    · subst h
      simp [(Term.equal_atom _ _).2]
    · have hn : (Term.atom name).equal (.atom k) = false := by
        rw [Bool.eq_false_iff, ne_eq, Term.equal_atom]
        simpa using h
      rw [List.find?_cons_of_neg (by simp [hn]), ih, if_neg h]

theorem find?_asAtom (t : Table) (u : Term) :
    (t.enums.find? fun e => u.asAtom.equal (.atom e.1)).map (·.2) = t.entriesOf? u := by
  unfold entriesOf?
  split
  · next name h => rw [h, find?_enum]; cases t.get? name <;> rfl
  · next h =>
    rw [Option.map_eq_none_iff, List.find?_eq_none]
    intro e _ he
    exact h e.1 ((Term.equal_atom _ _).1 he)

theorem find?_key (es : List Entry) (v : Term) :
    (es.find? fun e => v.asAtom.equal (.atom e.name)).map (·.code) = codeOf? es v := by
  unfold codeOf?
  split
  · next name h =>
    have hp (e : Entry) : (v.asAtom.equal (.atom e.name)) = decide (e.name = name) := by
      rw [Bool.eq_iff_iff, Term.equal_atom, h]
      simp [eq_comm]
    simp only [hp]
  · next h =>
    rw [Option.map_eq_none_iff, List.find?_eq_none]
    intro e _ he
    exact h e.name ((Term.equal_atom _ _).1 he)

theorem find?_code (es : List Entry) (v : Term) :
    (es.find? fun e => v.int? = some e.code).map (·.name) = nameOf? es v := by
  unfold nameOf?
  split
  · next c => simp [Term.int?, eq_comm]
  · next h =>
    rw [Option.map_eq_none_iff, List.find?_eq_none]
    intro e _ he
    cases v <;> simp_all [Term.int?]

end Table

namespace Module

variable {m : Module} {d : Nat} {s : PositionStyle} {t : Table} {seed : Int}

theorem mem_dedicated {line : Int} {name : Text → Text} {entryClause : Position → Entry → Clause}
    {e : Text × List Entry} (he : e ∈ t.enums) :
    ∃ p, functionOf p p (name e.1) 1 (e.2.map (entryClause p)) ∈
      (dedicated s t line name entryClause).1 := by
  rw [← numbered_map line t] at he
  obtain ⟨x, hx, rfl⟩ := List.mem_map.1 he
  exact ⟨s.encode x.1, List.mem_map.2 ⟨x, hx, rfl⟩⟩

/-- A module in which the accessors of a table lead to the functions made for it. -/
structure Serves (m : Module) (t : Table) : Prop where
  toInt : ∃ s line, m.functions.lookup (toInt, 2) = some (dispatcher s t line toInt toIntOf).1
  toIntOf : ∀ e ∈ t.enums, ∃ p, m.functions.lookup (toIntOf e.1, 1) =
    some (functionOf p p (toIntOf e.1) 1 (e.2.map (nameToCode p)))
  toAtom : ∃ s line, m.functions.lookup (toAtom, 2) = some (dispatcher s t line toAtom toAtomOf).1
  toAtomOf : ∀ e ∈ t.enums, ∃ p, m.functions.lookup (toAtomOf e.1, 1) =
    some (functionOf p p (toAtomOf e.1) 1 (e.2.map (codeToName p)))
  keys : ∃ s line, m.functions.lookup (keys, 1) =
    some (listing s t line keys fun p e => .atom p e.name).1
  values : ∃ s line, m.functions.lookup (values, 1) =
    some (listing s t line values fun p e => .integer p e.code).1

theorem Hosts.serves (h : m.Hosts (synthesize s t seed).1) : m.Serves t where
  toInt := ⟨s, _, h (dispatcher s t seed Accessors.toInt Accessors.toIntOf).1 (by simp [synthesize])⟩
  toIntOf e he := by
    obtain ⟨p, hp⟩ := mem_dedicated he
    exact ⟨p, h _ (List.mem_append_left _ (List.mem_append_left _ (List.mem_cons_of_mem _ hp)))⟩
  toAtom := ⟨s, _, h _ (List.mem_append_left _ (List.mem_append_right _ (List.mem_cons_self ..)))⟩
  toAtomOf e he := by
    obtain ⟨p, hp⟩ := mem_dedicated he
    exact ⟨p, h _ (List.mem_append_left _ (List.mem_append_right _ (List.mem_cons_of_mem _ hp)))⟩
  keys := ⟨s, _, h _ (List.mem_append_right _ (List.mem_cons_self ..))⟩
  values := ⟨s, _, h _ (List.mem_append_right _ (List.mem_cons_of_mem _ (List.mem_cons_self ..)))⟩

theorem callWithin_dispatched {name : Text} {target : Text → Text} {line : Int} {v : Term}
    (answer : List Entry → Option Term)
    (hd : m.functions.lookup (name, 2) = some (dispatcher s t line name target).1)
    (ha : ∀ e ∈ t.enums, m.callWithin (d + 1 + 1) (target e.1) [v] = m.orThrow (d + 1) (answer e.2))
    (u : Term) : ∃ d', m.callWithin (d + 1 + 1 + 1) name [u.asAtom, v] =
      m.orThrow (d' + 1) ((t.entriesOf? u).bind answer) := by
  rw [callWithin_dispatcher hd, ← t.find?_asAtom u]
  -- an unknown enum is thrown out by the first function, anything else one call deeper
  cases hf : t.enums.find? fun e => u.asAtom.equal (.atom e.1) with
  | none => exact ⟨d + 1, rfl⟩
  | some e => exact ⟨d, ha e (List.mem_of_find?_eq_some hf)⟩

theorem Serves.access_toInt (h : m.Serves t) (u v : Term) :
    ∃ d, m.access .toInt [u, v] = m.orThrow (d + 1)
      ((t.entriesOf? u).bind fun es => (Table.codeOf? es v).map .int) := by
  obtain ⟨s, line, hd⟩ := h.toInt
  refine callWithin_dispatched (d := 997) _ hd (fun e he => ?_) u
  obtain ⟨p, hp⟩ := h.toIntOf e he
  rw [callWithin_nameToCode hp, ← Table.find?_key, Option.map_map]
  rfl

theorem Serves.access_toAtom (h : m.Serves t) (u v : Term) :
    ∃ d, m.access .toAtom [u, v] = m.orThrow (d + 1)
      ((t.entriesOf? u).bind fun es => (Table.nameOf? es v).map .atom) := by
  obtain ⟨s, line, hd⟩ := h.toAtom
  refine callWithin_dispatched (d := 997) _ hd (fun e he => ?_) u
  obtain ⟨p, hp⟩ := h.toAtomOf e he
  rw [callWithin_codeToName hp, ← Table.find?_code, Option.map_map]
  rfl

theorem callWithin_listed {name : Text} {item : Position → Entry → Expr} {line : Int}
    (value : Entry → Term)
    (hf : m.functions.lookup (name, 1) = some (listing s t line name item).1)
    (hi : ∀ p e, Expr.eval (m.callWithin d) [] (item p e) = .ok (value e)) (u : Term) :
    m.callWithin (d + 1) name [u.asAtom] =
      m.orThrow d ((t.entriesOf? u).map fun es => .list (es.map value)) := by
  rw [callWithin_listing value hf hi, ← t.find?_asAtom u, Option.map_map]
  rfl

theorem Serves.access_keys (h : m.Serves t) (u : Term) :
    ∃ d, m.access .keys [u] = m.orThrow (d + 1)
      ((t.entriesOf? u).map fun es => .list ((Table.keys es).map .atom)) := by
  obtain ⟨s, line, hk⟩ := h.keys
  refine ⟨998, ?_⟩
  simp only [Table.keys, List.map_map]
  exact callWithin_listed (fun e => .atom e.name) hk (fun p e => by simp [Expr.eval]) u

theorem Serves.access_values (h : m.Serves t) (u : Term) :
    ∃ d, m.access .values [u] = m.orThrow (d + 1)
      ((t.entriesOf? u).map fun es => .list ((Table.codes es).map .int)) := by
  obtain ⟨s, line, hv⟩ := h.values
  refine ⟨998, ?_⟩
  simp only [Table.codes, List.map_map]
  exact callWithin_listed (fun e => .int e.code) hv (fun p e => by simp [Expr.eval]) u

end Module

def orBadEnum (v : Option Term) : Except CallError Term := (v.map .ok).getD (.error .badEnum)

theorem Module.orThrow_eq {m : Module} (ht : m.functions.lookup (throw, 1) = none) (d : Nat)
    (v : Option Term) : m.orThrow (d + 1) v = orBadEnum v := by
  rw [orThrow, callWithin_throw ht, orBadEnum]

/-- The functions made for a table answer every call as the table does: `to_int` with the code of
the first entry of that name, `to_atom` with the name of the first entry of that code, `keys` and
`values` with the names and the codes in order, and all else by throwing `bad_enum`. -/
theorem access_synthesize (t : Table) (s : PositionStyle) (seed : Int) (enum x : Term) :
    let m := Module.ofFunctions (synthesize s t seed).1
    m.access .toInt [enum, x] =
        orBadEnum (((t.entriesOf? enum).bind fun es => Table.codeOf? es x).map .int) ∧
      m.access .toAtom [enum, x] =
        orBadEnum (((t.entriesOf? enum).bind fun es => Table.nameOf? es x).map .atom) ∧
      m.access .keys [enum] =
        orBadEnum ((t.entriesOf? enum).map fun es => .list ((Table.keys es).map .atom)) ∧
      m.access .values [enum] =
        orBadEnum ((t.entriesOf? enum).map fun es => .list ((Table.codes es).map .int)) := by
  intro m
  -- with no functions before them and no `throw/1` among them
  have hs : m.Serves t :=
    (Module.hosts_append [] (nodup_keys_synthesize s t seed)).serves
  have ht : m.functions.lookup (throw, 1) = none :=
    Module.lookup_ofFunctions_eq_none (throw_notMem_keys_synthesize s t seed)
  obtain ⟨d₁, h₁⟩ := hs.access_toInt enum x
  obtain ⟨d₂, h₂⟩ := hs.access_toAtom enum x
  obtain ⟨d₃, h₃⟩ := hs.access_keys enum
  obtain ⟨d₄, h₄⟩ := hs.access_values enum
  rw [Module.orThrow_eq ht] at h₁ h₂ h₃ h₄
  refine ⟨?_, ?_, h₃, h₄⟩
  · rw [h₁, Option.map_bind]
    rfl
  · rw [h₂, Option.map_bind]
    rfl

end EnumForms
