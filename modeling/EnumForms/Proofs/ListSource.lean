import EnumForms.Module
import EnumForms.Form.Source
import EnumForms.Proofs.Printing
import EnumForms.ReadError.Message

/-!
Lists as source code. A chain of list cells is written as one list, with a bar before a tail that is
no list; running the chain and reading its source come to the same term, or both refuse it because
some list in it is improper.
-/
namespace EnumForms

theorem stops_space (r : Text) : Stops (.space :: r) :=
  stops_cons (by decide) (by decide) (by decide) r

theorem Cut.space {p : Place} {v : Text} {vs : List Token} (hv : Cut (p.next .space) v vs) :
    Cut p (.space :: v) vs := by
  intro rest hr ts
  rw [List.cons_append, Lexed.layout_cons_iff (by decide)]
  exact hv rest hr ts

namespace Expr

/-- Expressions without variables and calls, whose integers are not too long. -/
inductive Ground : Expr → Prop where
  | atom (pos : Position) (name : Text) : Ground (.atom pos name)
  | integer (pos : Position) {i : Int} : i.natAbs < 10 ^ Decimal.limit → Ground (.integer pos i)
  | nil (pos : Position) : Ground (.nil pos)
  | cons (pos : Position) {head tail : Expr} : Ground head → Ground tail →
      Ground (.cons pos head tail)

theorem Ground.hasOverlong_eq_false {e : Expr} (h : e.Ground) : e.hasOverlong = false := by
  induction h with
  | atom | nil => rfl
  | integer _ hi => exact Decimal.isOverlong_eq_false hi
  | cons _ _ _ ihh iht => simp [hasOverlong, ihh, iht]

/-- Running and reading come to the same, or both refuse an improper list. -/
inductive Agrees {α : Type} : Except CallError α → Except ReadError α → Prop where
  | ok (a : α) : Agrees (.ok a) (.ok a)
  | improper (place : Place) : Agrees (.error .improperList) (.error (.defect place .improperList))

theorem Agrees.map {α β : Type} {x : Except CallError α} {y : Except ReadError α} (h : Agrees x y)
    (f : α → β) : Agrees (x.map f) (y.map f) := by
  cases h with
  | ok a => exact .ok (f a)
  | improper place => exact .improper place

theorem Agrees.eq {α : Type} {x : Except CallError α} {y : Except ReadError α} (h : Agrees x y) :
    (∃ a, x = .ok a ∧ y = .ok a) ∨
      x = .error .improperList ∧ ∃ place, y = .error (.defect place .improperList) := by
  cases h with
  | ok a => exact .inl ⟨a, rfl, rfl⟩
  | improper place => exact .inr ⟨rfl, place, rfl⟩

/-! ## The items of a list -/

def items : Term → Except CallError (List Term)
  | .list vs => .ok vs
  | _ => .error .improperList

def cellItems (head tail : Except CallError Term) : Except CallError (List Term) := do
  let vs ← tail >>= items
  let v ← head
  .ok (v :: vs)

theorem eval_cons (call : Text → List Term → Except CallError Term) (b : Bindings) (p : Position)
    (head tail : Expr) :
    eval call b (.cons p head tail) = (cellItems (eval call b head) (eval call b tail)).map .list := by
  rw [eval, cellItems]
  cases eval call b tail with
  | error e => rfl
  | ok v => cases v <;> cases eval call b head <;> rfl

theorem items_map_list (x : Except CallError (List Term)) : x.map Term.list >>= items = x := by
  cases x <;> rfl

def listNode (place : Place) (ns : List Node) : Option Node → Node
  | none => .list place ns
  | some n => .listWithTail place ns n

def tailItems (place : Place) : Option Node → Except ReadError (List Term)
  | none => .ok []
  | some n => do
    match ← n.value with
    | .list ts => .ok ts
    | _ => .error (.defect place .improperList)

def listItems (place : Place) (ns : List Node) (tail : Option Node) :
    Except ReadError (List Term) := do
  let ts ← Node.values ns
  let more ← tailItems place tail
  .ok (ts ++ more)

theorem value_listNode (place : Place) (ns : List Node) (tail : Option Node) :
    (listNode place ns tail).value = (listItems place ns tail).map .list := by
  cases tail with
  | none =>
    rw [listNode, Node.value, listItems]
    cases Node.values ns <;> simp [tailItems, Except.map]
  | some n =>
    rw [listNode, Node.value, listItems, tailItems]
    cases Node.values ns with
    | error e => rfl
    | ok ts =>
      cases n.value with
      | error e => rfl
      | ok t => cases t <;> rfl

theorem listItems_cons (place : Place) (n : Node) (ns : List Node) (tail : Option Node) :
    listItems place (n :: ns) tail = (do
      let v ← n.value
      let vs ← listItems place ns tail
      .ok (v :: vs)) := by
  simp only [listItems, Node.values, bind_assoc, Attempt.ok_bind, List.cons_append]

theorem Agrees.cons {x y : Except CallError Term} {n : Node} {ns : List Node} {tail : Option Node}
    {place : Place} (hx : Agrees x n.value) (hy : Agrees (y >>= items) (listItems place ns tail)) :
    Agrees (cellItems x y) (listItems place (n :: ns) tail) := by
  rw [cellItems, listItems_cons]
  generalize y >>= items = y at hy
  generalize n.value = x' at hx
  generalize listItems place ns tail = y' at hy
  cases hx with
  | ok v =>
    cases hy with
    | ok vs => exact .ok (v :: vs)
    | improper p => exact .improper p
  | improper p =>
    cases hy with
    | ok vs => exact .improper p
    | improper p' => exact .improper p

inductive Inside : List Token → List Node → Option Node → Prop where
  | proper {us : List Token} {ns : List Node} : Derives .terms us ns → Inside us ns none
  | dotted {us vs : List Token} {ns : List Node} {n : Node} :
      Derives .terms us ns → Derives .tail vs [n] → Inside (us ++ vs) ns (some n)

theorem Inside.cons {us vs : List Token} {ns : List Node} {n : Node} {tail : Option Node} {c : Token}
    (hn : Derives .term us [n]) (hc : c.kind = .comma) (h : Inside vs ns tail) :
    Inside (us ++ c :: vs) (n :: ns) tail := by
  cases h with
  | proper hd => exact .proper (.more hn hc hd)
  | dotted hd ht => simpa using Inside.dotted (.more hn hc hd) ht

theorem Inside.derives {us : List Token} {ns : List Node} {tail : Option Node} {o c : Token}
    (h : Inside us ns tail) (ho : o.kind = .openList) (hc : c.kind = .closeList) :
    Derives .term (o :: us ++ [c]) [listNode o.place ns tail] := by
  cases h with
  | proper hd => exact .ofList (.list ho hd hc)
  | dotted hd ht => exact .ofList (by simpa [listNode] using Derives.listWithTail ho hd ht hc)

/-! ## Running and reading -/

/-- The text is cut, at every place, into the tokens of a term that agrees with a value. -/
def Written (u : Text) (x : Except CallError Term) : Prop :=
  ∀ p, ∃ us n, Cut p u us ∧ Derives .term us [n] ∧ Agrees x n.value

def Continued (u : Text) (x : Except CallError Term) : Prop :=
  ∀ p, ∃ us ns tail, Cut p u us ∧ (∀ vs n, Derives .term vs [n] → Inside (vs ++ us) (n :: ns) tail) ∧
    ∀ place, Agrees (x >>= items) (listItems place ns tail)

theorem written_of_spelled {u : Text} {t : Term} (h : Spelled u t) : Written u (.ok t) := by
  intro p
  obtain ⟨us, n, hc, hd, hv⟩ := h p
  exact ⟨us, n, hc, hd, hv ▸ .ok t⟩

theorem continued_nil : Continued [] (.ok (.list [])) := fun p =>
  ⟨[], [], none, .nil, fun vs n hn => by simpa using Inside.proper (.one hn), fun _ => .ok []⟩

theorem continued_bar {u : Text} {t : Term} (h : Spelled u t) (ht : ∀ vs, t ≠ .list vs) :
    Continued (lit " | " ++ u) (.ok t) := by
  intro p
  obtain ⟨us, n, hc, hd, hv⟩ := h (((p.next .space).next (.ofChar '|')).next .space)
  refine ⟨_, [], some n, .space (.sign (k := .bar) rfl (by decide) (.space hc)), fun vs m hm => ?_,
    fun place => ?_⟩
  · exact .dotted (.one hm) (.tail rfl hd)
  · rw [listItems, tailItems, hv]
    cases t with
    | list vs => exact absurd rfl (ht vs)
    | _ => exact .improper place

section

variable {u v : Text} {x y : Except CallError Term} (hu : Written u x) (hv : Continued v y)
  (hs : ∀ rest, Stops rest → Stops (v ++ rest))

include hu hv hs

theorem exists_inside (p : Place) : ∃ us ns tail, Cut p (u ++ v) us ∧ Inside us ns tail ∧
    ∀ place, Agrees (cellItems x y) (listItems place ns tail) := by
  obtain ⟨us, n, hc, hd, hx⟩ := hu p
  obtain ⟨vs, ns, tail, hcv, hin, hy⟩ := hv (p.advance u)
  exact ⟨us ++ vs, n :: ns, tail, hc.append hcv hs, hin us n hd, fun place => hx.cons (hy place)⟩

theorem written_cell : Written (lit "[" ++ (u ++ v) ++ lit "]") ((cellItems x y).map Term.list) := by
  intro p
  obtain ⟨us, ns, tail, hc, hin, hy⟩ := exists_inside hu hv hs (p.next (.ofChar '['))
  have hb := hc.append (.sign (k := .closeList) rfl (by decide) .nil)
    fun rest _ => stops_of_sign (.inr (.inr rfl)) rest
  refine ⟨_, _, .sign (k := .openList) rfl (by decide) hb, hin.derives rfl rfl, ?_⟩
  rw [value_listNode]
  exact (hy p).map Term.list

theorem continued_cell : Continued (lit ", " ++ (u ++ v)) ((cellItems x y).map Term.list) := by
  intro p
  obtain ⟨us, ns, tail, hc, hin, hy⟩ := exists_inside hu hv hs ((p.next (.ofChar ',')).next .space)
  refine ⟨_, ns, tail, .sign (k := .comma) rfl (by decide) (.space hc),
    fun vs n hn => hin.cons hn rfl, fun place => ?_⟩
  rw [items_map_list]
  exact hy place

end

theorem stops_rest (e : Expr) (rest : Text) (h : Stops rest) : Stops (e.sourceForms.2 ++ rest) := by
  cases e with
  | nil => exact h
  | cons p head tail => exact stops_of_sign (.inl rfl) _
  | _ => exact stops_space _

theorem Ground.written {e : Expr} (h : e.Ground) (call : Text → List Term → Except CallError Term)
    (b : Bindings) : Written e.source (e.eval call b) ∧ Continued e.sourceForms.2 (e.eval call b) := by
  induction h with
  | atom p name =>
    have hs := spelled_atom name
    exact ⟨written_of_spelled hs, continued_bar hs (by simp)⟩
  | integer p hi =>
    have hs := spelled_int hi
    exact ⟨written_of_spelled hs, continued_bar hs (by simp)⟩
  | nil p =>
    have hs : Spelled (Term.list []).text (.list []) := spelled_list (List.forall_mem_nil _)
    exact ⟨written_of_spelled hs, continued_nil⟩
  | @cons p head tail _ _ ihh iht =>
    rw [eval_cons]
    exact ⟨written_cell ihh.1 iht.2 tail.stops_rest, continued_cell ihh.1 iht.2 tail.stops_rest⟩

end Expr

open EnumForms.Expr

theorem agrees_readTerms {u : Text} {x : Except CallError Term} (h : Written u x) :
    Agrees (x.map fun v => [v]) (readTerms (u ++ lit ".")) := by
  obtain ⟨us, n, hc, hd, hx⟩ := h .start
  have hvalue : Node.values [n] = n.value.map fun v => [v] := by
    rw [Node.values, Node.values]
    cases n.value <;> rfl
  rw [readTerms, parse_dot hc hd, Attempt.ok_bind, hvalue]
  exact hx.map _

/-- The value of an expression without variables and calls, if it has one, is the only term that is
read from its source with a dot behind it. If it has none, then because a list in it is improper, and
reading ends in an error with a report that says so. -/
theorem readTerms_source (e : Expr) (h : e.Ground) (call : Text → List Term → Except CallError Term)
    (b : Bindings) (file : Text) :
    e.hasOverlong = false ∧
    ((∃ v, e.eval call b = .ok v ∧ readTerms (e.source ++ lit ".") = .ok [v]) ∨
      e.eval call b = .error .improperList ∧
        ∃ place report, readTerms (e.source ++ lit ".") = .error (.defect place .improperList) ∧
          (ReadError.defect place .improperList).report? (e.source ++ lit ".") file = some report) := by
  refine ⟨h.hasOverlong_eq_false, ?_⟩
  obtain ⟨ts, hx, hr⟩ | ⟨hx, place, hr⟩ := (agrees_readTerms (h.written call b).1).eq
  · obtain ⟨v, hv, rfl⟩ := Attempt.map_eq_ok.1 hx
    exact .inl ⟨v, hv, hr⟩
  · exact .inr ⟨Attempt.map_eq_error.1 hx, place, _, hr, rfl⟩

def Expr.nested (tail : Expr) : Expr :=
  .cons (.line 1) (.cons (.line 1) (.atom (.line 1) (lit "it's")) tail)
    (.cons (.line 2) (.integer (.line 2) (-7)) (.nil (.line 3)))

theorem Expr.ground_nested {tail : Expr} (h : tail.Ground) : tail.nested.Ground := by
  have hten : 10 ^ 1 ≤ 10 ^ Decimal.limit := Nat.pow_le_pow_right (by decide) (by decide)
  have hint : (-7 : Int).natAbs < 10 ^ Decimal.limit := Nat.lt_of_lt_of_le (by decide) hten
  exact .cons _ (.cons _ (.atom _ _) h) (.cons _ (.integer _ hint) (.nil _))

theorem readTerms_source_nested :
    (nested (.nil (.line 1))).Ground ∧ (nested (.atom (.line 1) (lit "b"))).Ground ∧
    readTerms ((nested (.nil (.line 1))).source ++ lit ".") =
      .ok [.list [.list [.atom (lit "it's")], .int (-7)]] ∧
    ∃ place, readTerms ((nested (.atom (.line 1) (lit "b"))).source ++ lit ".") =
      .error (.defect place .improperList) := by
  have hnil := ground_nested (.nil (.line 1))
  have hatom := ground_nested (.atom (.line 1) (lit "b"))
  refine ⟨hnil, hatom, ?_, ?_⟩
  · obtain ⟨-, ⟨v, hv, hr⟩ | ⟨hv, -⟩⟩ :=
      readTerms_source _ hnil (fun _ _ => .error .tooDeep) [] SyntaxReport.noFile
    · cases hv
      exact hr
    · cases hv
  · obtain ⟨-, ⟨v, hv, -⟩ | ⟨-, place, -, hr, -⟩⟩ :=
      readTerms_source _ hatom (fun _ _ => .error .tooDeep) [] SyntaxReport.noFile
    · cases hv
    · exact ⟨place, hr⟩

end EnumForms
