import EnumForms.Position

/-!
The expressions of function bodies, patterns and guards: atoms, integers, variables, lists and
calls. Every expression has a term that stands for it, and `Expr.ofTerm?` finds it again.
-/
namespace EnumForms

inductive Expr where
  | atom (pos : Position) (name : Text)
  | integer (pos : Position) (value : Int)
  | var (pos : Position) (name : Text)
  | nil (pos : Position)
  | cons (pos : Position) (head tail : Expr)
  | call (pos : Position) (function : Expr) (args : List Expr)

namespace Expr

mutual

def toTerm : Expr → Term
  | .atom p name => .tuple [.atom (lit "atom"), p.toTerm, .atom name]
  | .integer p i => .tuple [.atom (lit "integer"), p.toTerm, .int i]
  | .var p name => .tuple [.atom (lit "var"), p.toTerm, .atom name]
  | .nil p => .tuple [.atom (lit "nil"), p.toTerm]
  | .cons p head tail => .tuple [.atom (lit "cons"), p.toTerm, head.toTerm, tail.toTerm]
  | .call p function args =>
    .tuple [.atom (lit "call"), p.toTerm, function.toTerm, .list (toTerms args)]

def toTerms : List Expr → List Term
  | [] => []
  | e :: es => e.toTerm :: toTerms es

end

mutual

def ofTerm? : Term → Option Expr
  | .tuple [.atom tag, pos] =>
    if tag = lit "nil" then (Position.ofTerm? pos).map .nil else none
  | .tuple [.atom tag, pos, .atom name] =>
    if tag = lit "atom" then (Position.ofTerm? pos).map (.atom · name)
    else if tag = lit "var" then (Position.ofTerm? pos).map (.var · name)
    else none
  | .tuple [.atom tag, pos, .int i] =>
    if tag = lit "integer" then (Position.ofTerm? pos).map (.integer · i) else none
  | .tuple [.atom tag, pos, x, .list ys] =>
    if tag = lit "call" then do
      let p ← Position.ofTerm? pos
      let function ← ofTerm? x
      let args ← ofTerms? ys
      some (.call p function args)
    else none
  | .tuple [.atom tag, pos, x, y] =>
    if tag = lit "cons" then do
      let p ← Position.ofTerm? pos
      let head ← ofTerm? x
      let tail ← ofTerm? y
      some (.cons p head tail)
    else none
  | _ => none

def ofTerms? : List Term → Option (List Expr)
  | [] => some []
  | t :: ts => do
    let e ← ofTerm? t
    let es ← ofTerms? ts
    some (e :: es)

end

def listOfTerm? : Term → Option (List Expr)
  | .list ts => ofTerms? ts
  | _ => none

mutual

def inspect : Expr → Text
  | .atom p name => lit "AtomLiteral(position=" ++ p.inspect ++ lit ", value=" ++
      Term.inspectAtom name ++ lit ")"
  | .integer p i => lit "IntegerLiteral(position=" ++ p.inspect ++ lit ", value=" ++
      Decimal.ofInt i ++ lit ")"
  | .var p name => lit "Var(position=" ++ p.inspect ++ lit ", name=" ++ name.inspect ++ lit ")"
  | .nil p => lit "Nil(position=" ++ p.inspect ++ lit ")"
  | .cons p head tail => lit "Cons(position=" ++ p.inspect ++ lit ", head=" ++ head.inspect ++
      lit ", tail=" ++ tail.inspect ++ lit ")"
  | .call p function args => lit "Call(position=" ++ p.inspect ++ lit ", function=" ++
      function.inspect ++ lit ", args=" ++ Text.inspectTuple (inspectAll args) ++ lit ")"

def inspectAll : List Expr → List Text
  | [] => []
  | e :: es => e.inspect :: inspectAll es

end

end Expr

end EnumForms
