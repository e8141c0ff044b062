import EnumForms.Binary64.Read
import EnumForms.Term
import EnumForms.Token

/-!
The tree of a term as it is written, and the term it stands for. Not every tree stands for one:
`Node.value` says what is wrong with the first that does not, from the inside out and from left to
right.
-/
namespace EnumForms

inductive Node where
  | literal (l : Literal) (text : Text) (place : Place)
  | strings (place : Place) (texts : List Text)
  | tuple (place : Place) (items : List Node)
  | list (place : Place) (items : List Node)
  | listWithTail (place : Place) (items : List Node) (tail : Node)

inductive Defect where
  | escapeOutOfRange
  | baseOutOfRange (base : Nat) (text : Text)
  | badDigits (base : Nat) (text : Text)
  | improperList
  deriving DecidableEq

inductive ReadError where
  | unexpectedToken (token : Token) (expected : List Kind)
  | unexpectedCharacter (c : CodePoint) (place : Place)
  | defect (place : Place) (d : Defect)
  | overlong (l : Literal)
  /-- A character token of no code point or of several. The scanner finds none. -/
  | notOneCharacter
  deriving DecidableEq

namespace BasedInt

def marker? : Nat → Option Char
  | 2 => some 'b'
  | 8 => some 'o'
  | 16 => some 'x'
  | _ => none

def unmarked (base : Nat) (ds : Text) : Text :=
  match ds with
  | z :: m :: r =>
    if z.is '0' && (marker? base).any (fun ch => m.is ch || m.is ch.toUpper) then r else ds
  | _ => ds

def isPowerOfTwo (base : Nat) : Bool := [2, 4, 8, 16, 32].contains base

/-- The number some digits spell in a base. The digits are counted against the limit unless the
base is a power of two. -/
def value? (base : Nat) (ds : Text) : Option Nat :=
  let ds := unmarked base ds
  if ds ≠ [] ∧ ds.all (fun c => c.digit?.any (· < base)) ∧
      (isPowerOfTwo base ∨ ds.length ≤ Decimal.limit) then
    some (Escape.number base ds)
  else none

end BasedInt

def Token.inner (t : Text) : Text := t.tail.dropLast

def unquote (place : Place) (t : Text) : Except ReadError Text :=
  match Escape.decode? (Token.inner t) with
  | some s => .ok s
  | none => .error (.defect place .escapeOutOfRange)

def BasedInt.read (place : Place) (t : Text) : Except ReadError Int :=
  let (negative, s) := Decimal.unsigned t
  let ds := (s.dropWhile (·.isDigit)).tail
  match Decimal.value? (s.takeWhile (·.isDigit)) with
  | none => .error (.overlong .basedInt)
  | some base =>
    if 2 ≤ base ∧ base ≤ 36 then
      match value? base ds with
      | some n => .ok (Decimal.signed negative n)
      | none => .error (.defect place (.badDigits base t))
    else .error (.defect place (.baseOutOfRange base t))

def charCode (place : Place) (t : Text) : Except ReadError Int :=
  match Escape.decode? t.tail with
  | some [c] => .ok c.val
  | some _ => .error .notOneCharacter
  | none => .error (.defect place .escapeOutOfRange)

def Literal.value (place : Place) (t : Text) : Literal → Except ReadError Term
  | .atom => .ok (.atom t)
  | .quotedAtom => (unquote place t).map .atom
  | .int => match Decimal.int? t with
    | some i => .ok (.int i)
    | none => .error (.overlong .int)
  | .basedInt => (BasedInt.read place t).map .int
  | .float => .ok (.float (Binary64.ofLiteral t))
  | .char => (charCode place t).map .int

def joinStrings (place : Place) : List Text → Except ReadError Text
  | [] => .ok []
  | t :: ts => do
    let s ← unquote place t
    let r ← joinStrings place ts
    .ok (s ++ r)

namespace Node

mutual

/-- The term a tree stands for. The tail of a list has to be a list. -/
def value : Node → Except ReadError Term
  | .literal l text place => l.value place text
  | .strings place texts => (joinStrings place texts).map .str
  | .tuple _ items => do
    let ts ← values items
    .ok (.tuple ts)
  | .list _ items => do
    let ts ← values items
    .ok (.list ts)
  | .listWithTail place items tail => do
    let ts ← values items
    match ← value tail with
    | .list more => .ok (.list (ts ++ more))
    | _ => .error (.defect place .improperList)

def values : List Node → Except ReadError (List Term)
  | [] => .ok []
  | n :: ns => do
    let t ← value n
    let ts ← values ns
    .ok (t :: ts)

end

end Node

end EnumForms
