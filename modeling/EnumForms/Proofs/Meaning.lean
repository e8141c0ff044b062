import EnumForms.Proofs.Bookkeeping
import EnumForms.Proofs.Erasure

/-!
Positions never influence what functions do. The same calls of functions that are the same but for
their positions end alike, to whatever depth they are followed.

There is one exception. A call that stands in a pattern matches nothing; the error shows it with its
position, and an integer with too many digits cannot be shown.
-/
namespace EnumForms

/-! ## Calls in patterns -/

def Expr.refused : Expr → List Expr
  | .cons _ head tail => head.refused ++ tail.refused
  | .call p function args => [.call p function args]
  | _ => []

def Clause.refused (c : Clause) : List Expr := c.patterns.flatMap Expr.refused

def FunctionDef.refused (f : FunctionDef) : List Expr := f.clauses.flatMap Clause.refused

def Form.refused (fs : List Form) : List Expr :=
  (fs.filterMap function?).flatMap FunctionDef.refused

/-! ## Runs of two modules -/

/-- Both end in the same way, or each stops at a call in a pattern, one of `cs` and one of `ds`, and
the two are the same but for their positions. -/
inductive Alike {α : Type} (cs ds : List Expr) : Except CallError α → Except CallError α → Prop
  | same (x : Except CallError α) : Alike cs ds x x
  | refused {c d : Expr} : c ∈ cs → d ∈ ds → c.erase = d.erase →
      Alike cs ds (.error (.ofPattern c)) (.error (.ofPattern d))

namespace Alike

variable {α β : Type} {cs ds cs' ds' : List Expr} {x y : Except CallError α}

theorem bind {f g : α → Except CallError β} (h : Alike cs ds x y)
    (hf : ∀ a, Alike cs ds (f a) (g a)) : Alike cs ds (x >>= f) (y >>= g) := by
  cases h with
  | same x =>
    cases x with
    | ok a => exact hf a
    | error e => exact .same _
  | refused hc hd he => exact .refused hc hd he

theorem mono (h : Alike cs ds x y) (hc : cs ⊆ cs') (hd : ds ⊆ ds') : Alike cs' ds' x y := by
  cases h with
  | same x => exact .same x
  | refused hm hm' he => exact .refused (hc hm) (hd hm') he

theorem eq (h : Alike [] ds x y) : x = y := by
  cases h with
  | same x => rfl
  | refused hc => cases hc

end Alike

namespace Expr

theorem alike_matches? (p q : Expr) (h : p.erase = q.erase) (v : Term) (b : Bindings) :
    Alike p.refused q.refused (p.matches? v b) (q.matches? v b) := by
  cases p with
  | atom | integer | var | nil =>
    cases q <;> cases h
    exact .same _
  | cons p head tail =>
    cases q with
    | cons q head' tail' =>
      rw [erase, erase, cons.injEq] at h
      cases v with
      | list vs =>
        cases vs with
        | nil => exact .same _
        | cons x xs =>
          have hhead := alike_matches? head head' h.2.1 x b
          rw [matches?, matches?]
          refine (hhead.mono (List.subset_append_left ..)
            (List.subset_append_left ..)).bind fun r => ?_
          cases r with
          | none => exact .same _
          | some b =>
            exact (alike_matches? tail tail' h.2.2 (.list xs) b).mono
              (List.subset_append_right ..) (List.subset_append_right ..)
      | _ => exact .same _
    | _ => cases h
  | call p function args =>
    cases q with
    | call q function' args' =>
      exact .refused (List.mem_singleton_self _) (List.mem_singleton_self _) h
    | _ => cases h

theorem exists_of_map_erase_cons {p : Expr} {ps qs : List Expr}
    (h : (p :: ps).map erase = qs.map erase) :
    ∃ q qs', qs = q :: qs' ∧ p.erase = q.erase ∧ ps.map erase = qs'.map erase := by
  cases qs with
  | nil => cases h
  | cons q qs =>
    obtain ⟨hq, hqs⟩ := List.cons.inj h
    exact ⟨q, qs, rfl, hq, hqs⟩

theorem alike_matchAll? (ps qs : List Expr) (h : ps.map erase = qs.map erase) (vs : List Term)
    (b : Bindings) :
    Alike (ps.flatMap refused) (qs.flatMap refused) (matchAll? ps vs b) (matchAll? qs vs b) := by
  induction ps generalizing qs vs b with
  | nil =>
    obtain rfl := List.map_eq_nil_iff.1 h.symm
    exact .same _
  | cons p ps ih =>
    obtain ⟨q, qs, rfl, hp, hps⟩ := exists_of_map_erase_cons h
    cases vs with
    | nil => exact .same _
    | cons v vs =>
      rw [List.flatMap_cons, List.flatMap_cons, matchAll?, matchAll?]
      refine ((alike_matches? p q hp v b).mono (List.subset_append_left ..)
        (List.subset_append_left ..)).bind fun r => ?_
      cases r with
      | none => exact .same _
      | some b =>
        exact (ih qs hps vs b).mono (List.subset_append_right ..) (List.subset_append_right ..)

variable {cs ds : List Expr} {call call' : Text → List Term → Except CallError Term}

mutual

theorem alike_eval (hcall : ∀ name vs, Alike cs ds (call name vs) (call' name vs)) (b : Bindings)
    (e e' : Expr) (h : e.erase = e'.erase) : Alike cs ds (eval call b e) (eval call' b e') := by
  cases e with
  | atom | integer | var | nil =>
    cases e' <;> cases h
    exact .same _
  | cons p head tail =>
    cases e' with
    | cons q head' tail' =>
      rw [erase, erase, cons.injEq] at h
      rw [eval, eval]
      refine (alike_eval hcall b tail tail' h.2.2).bind fun w => ?_
      cases w with
      | list vs => exact (alike_eval hcall b head head' h.2.1).bind fun v => .same _
      | _ => exact .same _
    | _ => cases h
  | call p function args =>
    cases e' with
    | call q function' args' =>
      rw [erase, erase, Expr.call.injEq] at h
      rw [eval, eval]
      refine (alike_eval hcall b function function' h.2.1).bind fun w => ?_
      cases w with
      | atom name => exact (alike_evalAll hcall b args args' h.2.2).bind fun vs => hcall name vs
      | _ => exact .same _
    | _ => cases h

theorem alike_evalAll (hcall : ∀ name vs, Alike cs ds (call name vs) (call' name vs))
    (b : Bindings) (es es' : List Expr) (h : eraseAll es = eraseAll es') :
    Alike cs ds (evalAll call b es) (evalAll call' b es') := by
  cases es with
  | nil =>
    cases es' with
    | nil => exact .same _
    | cons => cases h
  | cons e es =>
    cases es' with
    | nil => cases h
    | cons e' es' =>
      rw [eraseAll, eraseAll, List.cons.injEq] at h
      rw [evalAll, evalAll]
      exact (alike_eval hcall b e e' h.1).bind fun v =>
      (alike_evalAll hcall b es es' h.2).bind fun vs => .same _

end

theorem alike_evalBody (hcall : ∀ name vs, Alike cs ds (call name vs) (call' name vs))
    (b : Bindings) (es es' : List Expr) (h : es.map erase = es'.map erase) :
    Alike cs ds (evalBody call b es) (evalBody call' b es') := by
  rw [← eraseAll_eq_map, ← eraseAll_eq_map] at h
  exact (alike_evalAll hcall b es es' h).bind fun vs => .same _

end Expr

namespace Clause

theorem alike_matches? (c d : Clause) (h : c.erase = d.erase) (args : List Term) :
    Alike c.refused d.refused (c.matches? args) (d.matches? args) := by
  rw [erase, erase, mk.injEq] at h
  have hlength : c.patterns.length = d.patterns.length := by
    simpa using congrArg List.length h.2.1
  have hguards : c.guards = [] ↔ d.guards = [] := by
    have hnil := congrArg (· = []) h.2.2.1
    simpa only [List.map_eq_nil_iff, eq_iff_iff] using hnil
  simp only [matches?, hlength, ne_eq, hguards]
  split
  · exact .same _
  · split
    · exact .same _
    · exact Expr.alike_matchAll? _ _ h.2.1 args []

theorem alike_select_bind {α : Type} {ps qs : List Expr}
    {k k' : Option (Clause × Bindings) → Except CallError α}
    (hnone : Alike ps qs (k none) (k' none))
    (hsome : ∀ c d b, c.erase = d.erase → Alike ps qs (k (some (c, b))) (k' (some (d, b))))
    (args : List Term) (cs ds : List Clause) (h : cs.map erase = ds.map erase)
    (hps : cs.flatMap refused ⊆ ps) (hqs : ds.flatMap refused ⊆ qs) :
    Alike ps qs (select args cs >>= k) (select args ds >>= k') := by
  induction cs generalizing ds with
  | nil =>
    obtain rfl := List.map_eq_nil_iff.1 h.symm
    exact hnone
  | cons c cs ih =>
    cases ds with
    | nil => cases h
    | cons d ds =>
      obtain ⟨hc, hcs⟩ := List.cons.inj h
      rw [List.flatMap_cons, List.append_subset] at hps hqs
      rw [select, select, bind_assoc, bind_assoc]
      refine ((alike_matches? c d hc args).mono hps.1 hqs.1).bind fun r => ?_
      cases r with
      | none => exact ih ds hcs hps.2 hqs.2
      | some b => exact hsome c d b hc

end Clause

namespace Module

variable {fs gs : List FunctionDef}

theorem lookup_erase (h : fs.map FunctionDef.erase = gs.map FunctionDef.erase) (k : Text × Int) :
    ((ofFunctions fs).functions.lookup k).map FunctionDef.erase =
      ((ofFunctions gs).functions.lookup k).map FunctionDef.erase := by
  have hfind (es : List FunctionDef) : ((ofFunctions es).functions.lookup k).map FunctionDef.erase =
      (es.map FunctionDef.erase).reverse.find? (·.key = k) := by
    rw [lookup_ofFunctions, ← List.map_reverse, List.find?_map]
    rfl
  rw [hfind, hfind, h]

theorem mem_of_lookup {k : Text × Int} {f : FunctionDef}
    (h : (ofFunctions fs).functions.lookup k = some f) : f ∈ fs := by
  rw [lookup_ofFunctions] at h
  exact List.mem_reverse.1 (List.mem_of_find?_eq_some h)

/-- Functions that are the same but for their positions end calls alike, to whatever depth these are
followed. -/
theorem alike_callWithin (h : fs.map FunctionDef.erase = gs.map FunctionDef.erase) (depth : Nat)
    (name : Text) (args : List Term) :
    Alike (fs.flatMap FunctionDef.refused) (gs.flatMap FunctionDef.refused)
      ((ofFunctions fs).callWithin depth name args)
      ((ofFunctions gs).callWithin depth name args) := by
  induction depth generalizing name args with
  | zero => exact .same _
  | succ depth ih =>
    have hfound := lookup_erase h (name, (args.length : Int))
    rw [callWithin, callWithin, find?, find?]
    cases hf : (ofFunctions fs).functions.lookup (name, (args.length : Int)) with
    | none =>
      rw [hf, Option.map_none, eq_comm, Option.map_eq_none_iff] at hfound
      rw [hfound]
      exact .same _
    | some f =>
      rw [hf, Option.map_some, eq_comm, Option.map_eq_some_iff] at hfound
      obtain ⟨g, hg, he⟩ := hfound
      rw [hg]
      obtain ⟨-, hname, -, hclauses⟩ := FunctionDef.mk.inj he
      refine Clause.alike_select_bind ?_ (fun c d b hcd => ?_) args _ _ hclauses.symm
        (fun _ hp => List.mem_flatMap.2 ⟨f, mem_of_lookup hf, hp⟩)
        (fun _ hq => List.mem_flatMap.2 ⟨g, mem_of_lookup hg, hq⟩)
      · rw [show f.name = g.name from hname.symm]
        exact .same _
      · exact Expr.alike_evalBody ih b _ _ (Clause.mk.inj hcd).2.2.2

end Module

/-! ## What is shown of a pattern -/

theorem Position.hasOverlong_toTerm (p : Position) : p.toTerm.hasOverlong = p.hasOverlong := by
  cases p with
  | line l => rfl
  | lineColumn l c =>
    rw [toTerm, Term.hasOverlong, Term.anyOverlong, Term.anyOverlong, Term.anyOverlong,
      Bool.or_false]
    rfl

namespace Expr

def standsFar (e : Expr) : Bool := e.positions.any Position.hasOverlong

mutual

theorem hasOverlong_toTerm (e : Expr) : e.toTerm.hasOverlong = (e.hasOverlong || e.standsFar) := by
  cases e with
  | atom p | integer p | var p | nil p =>
    simp only [toTerm, Term.hasOverlong, Term.anyOverlong, p.hasOverlong_toTerm, hasOverlong,
      standsFar, positions, List.any_cons, List.any_nil, Bool.or_false, Bool.false_or, Bool.or_comm]
  | cons p head tail =>
    simp only [toTerm, Term.hasOverlong, Term.anyOverlong, p.hasOverlong_toTerm, hasOverlong,
      hasOverlong_toTerm head, hasOverlong_toTerm tail, standsFar, positions, List.cons_append,
      List.any_cons, List.any_append, Bool.or_false, Bool.false_or, Bool.or_assoc,
      Bool.or_left_comm]
  | call p function args =>
    simp only [toTerm, Term.hasOverlong, Term.anyOverlong, p.hasOverlong_toTerm, hasOverlong,
      hasOverlong_toTerm function, anyOverlong_toTerms args, standsFar, positions, List.cons_append,
      List.any_cons, List.any_append, Bool.or_false, Bool.false_or, Bool.or_assoc,
      Bool.or_left_comm]

theorem anyOverlong_toTerms (es : List Expr) : Term.anyOverlong (toTerms es) =
    (anyOverlong es || (positionsOf es).any Position.hasOverlong) := by
  cases es with
  | nil => rfl
  | cons e es =>
    simp only [toTerms, Term.anyOverlong, anyOverlong, positionsOf, hasOverlong_toTerm e,
      anyOverlong_toTerms es, standsFar, List.any_append, Bool.or_assoc, Bool.or_left_comm]

end

theorem hasOverlong_of_erase_eq {c d : Expr} (h : c.erase = d.erase) :
    c.hasOverlong = d.hasOverlong := by
  rw [← hasOverlong_erase c, h, hasOverlong_erase d]

end Expr

namespace CallError

inductive Kind where
  | badEnum
  | thrown
  | noClause
  | undefinedFunction
  | evaluation
  | misuse
  | overlong
  | tooDeep
  deriving DecidableEq

def kind : CallError → Kind
  | .badEnum => .badEnum
  | .thrown _ => .thrown
  | .noClause .. => .noClause
  | .undefinedFunction .. => .undefinedFunction
  | .guarded | .unsupportedPattern _ | .unbound _ | .improperList | .badFunctionName _ =>
    .evaluation
  | .listAsName | .wrongArgumentCount => .misuse
  | .overlong => .overlong
  | .tooDeep => .tooDeep

theorem kind_ofPattern (p : Expr) :
    (ofPattern p).kind = if p.hasOverlong || p.standsFar then .overlong else .evaluation := by
  rw [ofPattern, ← p.hasOverlong_toTerm]
  split <;> rfl

end CallError

/-! ## Ends of calls -/

/-- Two calls stop at one call in a pattern, and only one of them can show it: in the other a
position has too many digits. -/
def Form.ShownByOne (fs gs : List Form) (x y : Except CallError Term) : Prop :=
  ∃ c ∈ refused fs, ∃ d ∈ refused gs, c.erase = d.erase ∧
    x = .error (.ofPattern c) ∧ y = .error (.ofPattern d) ∧
    c.hasOverlong = false ∧ c.standsFar ≠ d.standsFar

/-- Two calls end with the same value or in an error of the same kind, but for the pattern that only
one of them can show. -/
structure Form.SameEnd (fs gs : List Form) (x y : Except CallError Term) : Prop where
  value : ∀ v, x = .ok v ↔ y = .ok v
  kind : x.mapError CallError.kind = y.mapError CallError.kind ↔ ¬ ShownByOne fs gs x y

theorem Alike.sameEnd {fs gs : List Form} {x y : Except CallError Term}
    (h : Alike (Form.refused fs) (Form.refused gs) x y) : Form.SameEnd fs gs x y := by
  -- a pattern that only one side can show ends the other one in an error of its own kind
  have hdiffer (hs : Form.ShownByOne fs gs x y) :
      x.mapError CallError.kind ≠ y.mapError CallError.kind := by
    obtain ⟨c, -, d, -, he, rfl, rfl, ho, hfar⟩ := hs
    have hd : d.hasOverlong = false := Expr.hasOverlong_of_erase_eq he ▸ ho
    rw [Attempt.mapError_error, Attempt.mapError_error, CallError.kind_ofPattern,
      CallError.kind_ofPattern, ho, hd, Bool.false_or, Bool.false_or]
    revert hfar
    cases c.standsFar <;> cases d.standsFar <;> simp
  cases h with
  | same x => exact ⟨fun v => Iff.rfl, fun _ hs => hdiffer hs rfl, fun _ => rfl⟩
  | @refused c d hc hd he =>
    refine ⟨fun v => by simp, fun heq hs => hdiffer hs heq, fun hn => ?_⟩
    rw [Attempt.mapError_error, Attempt.mapError_error, CallError.kind_ofPattern,
      CallError.kind_ofPattern, ← Expr.hasOverlong_of_erase_eq he]
    by_cases ho : c.hasOverlong = true
    · rw [ho, Bool.true_or, Bool.true_or]
    · have hfar : c.standsFar = d.standsFar := by
        by_contra hfar
        exact hn ⟨c, hc, d, hd, he, rfl, rfl, Bool.eq_false_iff.2 ho, hfar⟩
      rw [hfar]

/-- Forms that mean the same: their source is the same, and so are the ends of all calls, followed
to any depth, called by any term, or made through an accessor. -/
structure Form.SameMeaning (fs gs : List Form) : Prop where
  source : sourceText fs = sourceText gs
  within : ∀ depth name args, SameEnd fs gs ((Module.ofForms fs).callWithin depth name args)
    ((Module.ofForms gs).callWithin depth name args)
  call : ∀ name args, SameEnd fs gs ((Module.ofForms fs).call name args)
    ((Module.ofForms gs).call name args)
  access : ∀ a args, SameEnd fs gs ((Module.ofForms fs).access a args)
    ((Module.ofForms gs).access a args)

namespace Module

variable {fs gs : List Form}

theorem alike_ofForms (h : fs.map Form.erase = gs.map Form.erase) (depth : Nat) (name : Text)
    (args : List Term) : Alike (Form.refused fs) (Form.refused gs)
      ((ofForms fs).callWithin depth name args) ((ofForms gs).callWithin depth name args) := by
  have hfunctions := congrArg (List.filterMap Form.function?) h
  rw [Form.filterMap_function?_erase, Form.filterMap_function?_erase] at hfunctions
  exact alike_callWithin hfunctions depth name args

theorem alike_call (h : fs.map Form.erase = gs.map Form.erase) (name : Term) (args : List Term) :
    Alike (Form.refused fs) (Form.refused gs) ((ofForms fs).call name args)
      ((ofForms gs).call name args) := by
  cases name with
  | atom n | str n => exact alike_ofForms h depthLimit n args
  | _ => exact .same _

theorem alike_access (h : fs.map Form.erase = gs.map Form.erase) (a : Accessor)
    (args : List Term) : Alike (Form.refused fs) (Form.refused gs) ((ofForms fs).access a args)
      ((ofForms gs).access a args) := by
  unfold access
  split
  · exact alike_call h _ _
  · exact alike_call h _ _
  · exact alike_call h _ _
  · exact alike_call h _ _
  · exact .same _

end Module

/-! ## Functions made for a table -/

namespace Accessors

variable {s s' : PositionStyle} {t : Table} {line line' : Int}

theorem refused_functionOf (p last : Position) (name : Text) (arity : Nat) {cs : List Clause}
    (h : ∀ c ∈ cs, c.refused = []) : (functionOf p last name arity cs).refused = [] := by
  refine List.flatMap_eq_nil_iff.2 fun c hc => ?_
  rcases List.mem_append.1 hc with hc | hc
  · exact h c hc
  · obtain rfl := List.mem_singleton.1 hc
    refine List.flatMap_eq_nil_iff.2 fun e he => ?_
    rw [List.eq_of_mem_replicate he]
    rfl

theorem refused_dispatcher (name : Text) (target : Text → Text) :
    (dispatcher s t line name target).1.refused = [] := by
  refine refused_functionOf _ _ _ _ fun c hc => ?_
  obtain ⟨x, -, rfl⟩ := List.mem_map.1 hc
  rfl

theorem refused_dedicated (name : Text → Text) {entryClause : Position → Entry → Clause}
    (h : ∀ p e, (entryClause p e).refused = []) :
    ∀ f ∈ (dedicated s t line name entryClause).1, f.refused = [] := by
  intro f hf
  obtain ⟨x, -, rfl⟩ := List.mem_map.1 hf
  refine refused_functionOf _ _ _ _ fun c hc => ?_
  obtain ⟨e, -, rfl⟩ := List.mem_map.1 hc
  exact h _ e

theorem refused_listing (name : Text) (item : Position → Entry → Expr) :
    (listing s t line name item).1.refused = [] := by
  refine refused_functionOf _ _ _ _ fun c hc => ?_
  obtain ⟨x, -, rfl⟩ := List.mem_map.1 hc
  rfl

theorem refused_synthesize (s : PositionStyle) (t : Table) (line : Int) :
    Form.refused ((synthesize s t line).1.map .function) = [] := by
  rw [Form.refused, List.filterMap_map]
  refine List.flatMap_eq_nil_iff.2 fun f hf => ?_
  simp only [Function.comp_def, Form.function?, List.filterMap_some, synthesize, List.mem_append,
    List.mem_cons, List.not_mem_nil, or_false] at hf
  rcases hf with ((rfl | hf) | rfl | hf) | rfl | rfl
  · exact refused_dispatcher toInt toIntOf
  · exact refused_dedicated toIntOf (fun p e => rfl) f hf
  · exact refused_dispatcher toAtom toAtomOf
  · exact refused_dedicated toAtomOf (fun p e => rfl) f hf
  · exact refused_listing keys _
  · exact refused_listing values _

theorem erase_forms_synthesize (s s' : PositionStyle) (t : Table) (line line' : Int) :
    ((synthesize s t line).1.map Form.function).map Form.erase =
      ((synthesize s' t line').1.map Form.function).map Form.erase := by
  have hforms (fs : List FunctionDef) : (fs.map Form.function).map Form.erase =
      (fs.map FunctionDef.erase).map Form.function := by
    rw [List.map_map, List.map_map]
    rfl
  rw [hforms, hforms, erase_synthesize s s' t line line']

end Accessors

/-! ## The theorem -/

open Accessors in
/-- Forms that are the same but for their positions mean the same. But where a call stands in a
pattern, and a position in it has too many digits, there a run ends in another kind of error. The
functions made for a table do and print the same, whatever line and style they are made for. -/
theorem sameMeaning_of_erase (fs gs : List Form) (t : Table) (s s' : PositionStyle)
    (line line' : Int) :
    (fs.map Form.erase = gs.map Form.erase → Form.SameMeaning fs gs) ∧
    let made := (synthesize s t line).1.map Form.function
    let made' := (synthesize s' t line').1.map Form.function
    made.map Form.erase = made'.map Form.erase ∧
    Form.sourceText made = Form.sourceText made' ∧
    (∀ depth name args, (Module.ofForms made).callWithin depth name args =
      (Module.ofForms made').callWithin depth name args) ∧
    (∀ name args, (Module.ofForms made).call name args = (Module.ofForms made').call name args) ∧
    ∀ a args, (Module.ofForms made).access a args = (Module.ofForms made').access a args := by
  have hsource {fs gs : List Form} (h : fs.map Form.erase = gs.map Form.erase) :
      Form.sourceText fs = Form.sourceText gs := by
    rw [← Form.sourceText_erase fs, h, Form.sourceText_erase]
  refine ⟨fun h => ?_, ?_⟩
  · exact ⟨hsource h, fun depth name args => (Module.alike_ofForms h depth name args).sameEnd,
      fun name args => (Module.alike_call h name args).sameEnd,
      fun a args => (Module.alike_access h a args).sameEnd⟩
  · intro made made'
    have h : made.map Form.erase = made'.map Form.erase := erase_forms_synthesize s s' t line line'
    have hnone : Form.refused made = [] := refused_synthesize s t line
    refine ⟨h, hsource h, fun depth name args => ?_, fun name args => ?_, fun a args => ?_⟩
    · have halike := Module.alike_ofForms h depth name args
      rw [hnone] at halike
      exact halike.eq
    · have halike := Module.alike_call h name args
      rw [hnone] at halike
      exact halike.eq
    · have halike := Module.alike_access h a args
      rw [hnone] at halike
      exact halike.eq

def wandering (p : Position) : List Form :=
  let x : Expr := .var p (lit "X")
  let more : Expr := .var p (lit "Xs")
  [.attribute p (lit "export") (.list [.tuple [.atom (lit "f"), .int 2]]),
    .function ⟨p, lit "f", 2,
      [⟨p, [x, .cons p x more], [],
          [.cons p (.call p (.atom p (lit "g")) [.cons p x more]) (.nil p)]⟩,
        ⟨p, [x, .call p (.atom p (lit "g")) []], [], [x]⟩]⟩,
    .function ⟨p, lit "g", 1, [⟨p, [.cons p (.integer p 1) more], [], [.integer p 7, more]⟩]⟩,
    .eof p]

def switched (s : PositionStyle) (line : Int) : List Form :=
  (Accessors.synthesize s (Table.empty.insert (lit "switch") [⟨lit "off", 0⟩, ⟨lit "on", 1⟩])
    line).1.map Form.function

theorem sameMeaning_wandering :
    (wandering (.line 1)).map Form.erase = (wandering (.lineColumn 7 (-3))).map Form.erase ∧
    Form.SameMeaning (wandering (.line 1)) (wandering (.lineColumn 7 (-3))) ∧
    (Module.ofForms (wandering (.line 1))).call (.atom (lit "f"))
      [.int 1, .list [.int 1, .atom (lit "a")]] = .ok (.list [.list [.atom (lit "a")]]) ∧
    (Module.ofForms (wandering (.lineColumn 7 (-3)))).call (.atom (lit "f"))
      [.int 1, .list [.int 1, .atom (lit "a")]] = .ok (.list [.list [.atom (lit "a")]]) ∧
    (Module.ofForms (switched .line 3)).access .toInt [.atom (lit "switch"), .atom (lit "on")] =
      .ok (.int 1) ∧
    (Module.ofForms (switched .lineColumn (-4))).access .toInt
      [.atom (lit "switch"), .atom (lit "on")] = .ok (.int 1) := by
  have he : (wandering (.line 1)).map Form.erase =
      (wandering (.lineColumn 7 (-3))).map Form.erase := rfl
  obtain ⟨himp, -, -, -, -, haccess⟩ := sameMeaning_of_erase (wandering (.line 1))
    (wandering (.lineColumn 7 (-3)))
    (Table.empty.insert (lit "switch") [⟨lit "off", 0⟩, ⟨lit "on", 1⟩]) .line .lineColumn 3 (-4)
  have h := himp he
  have hcall : (Module.ofForms (wandering (.line 1))).call (.atom (lit "f"))
      [.int 1, .list [.int 1, .atom (lit "a")]] = .ok (.list [.list [.atom (lit "a")]]) := rfl
  have hon : (Module.ofForms (switched .line 3)).access .toInt
      [.atom (lit "switch"), .atom (lit "on")] = .ok (.int 1) := rfl
  exact ⟨he, h, hcall, ((h.call _ _).value _).1 hcall, hon, (haccess _ _).symm.trans hon⟩

def barred (line : Int) : List Form :=
  [.function ⟨.line 1, lit "f", 1,
    [⟨.line 1, [.call (.line line) (.atom (.line 1) (lit "g")) []], [],
      [.atom (.line 1) (lit "a")]⟩]⟩]

theorem not_sameKind_barred :
    (barred 1).map Form.erase = (barred (10 ^ Decimal.limit)).map Form.erase ∧
    ((Module.ofForms (barred 1)).call (.atom (lit "f")) [.atom (lit "b")]).mapError
      CallError.kind = .error .evaluation ∧
    ((Module.ofForms (barred (10 ^ Decimal.limit))).call (.atom (lit "f"))
      [.atom (lit "b")]).mapError CallError.kind = .error .overlong := by
  have hcall (line : Int) : (Module.ofForms (barred line)).call (.atom (lit "f"))
      [.atom (lit "b")] =
        .error (.ofPattern (.call (.line line) (.atom (.line 1) (lit "g")) [])) := rfl
  have hkind (line : Int) : ((Module.ofForms (barred line)).call (.atom (lit "f"))
      [.atom (lit "b")]).mapError CallError.kind =
        .error (if Decimal.isOverlong line then .overlong else .evaluation) := by
    have hone : Decimal.isOverlong 1 = false := by decide
    rw [hcall, Attempt.mapError_error, CallError.kind_ofPattern]
    simp only [Expr.hasOverlong, Expr.anyOverlong, Expr.standsFar, Expr.positions,
      Expr.positionsOf, Position.hasOverlong, hone, List.any_cons, List.any_append, List.any_nil,
      Bool.or_false, Bool.false_or]
  have herase (line : Int) : (barred 1).map Form.erase = (barred line).map Form.erase := rfl
  refine ⟨herase _, ?_, ?_⟩
  · rw [hkind]
    rfl
  · rw [hkind, Decimal.isOverlong_pow_limit, if_pos rfl]

end EnumForms
