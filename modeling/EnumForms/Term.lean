import EnumForms.Binary64

/-!
Erlang terms. Atoms and strings are both texts but never equal; an integer and a float may be. An
atom is spelled bare where it can be, in apostrophes elsewhere.
-/
namespace EnumForms

namespace Atom

def reserved : List Text :=
  ["after", "and", "andalso", "band", "begin", "bnot", "bor", "bsl", "bsr", "bxor", "case",
    "catch", "cond", "div", "else", "end", "fun", "if", "let", "maybe", "not", "of", "or",
    "orelse", "receive", "rem", "try", "when", "xor"].map lit

def isNamePart (c : CodePoint) : Bool := c.isAlphanumeric || c.is '_' || c.is '@'

def isName : Text → Bool
  | [] => false
  | c :: cs => c.isLowerLetter && cs.all isNamePart

def isBare (name : Text) : Bool := isName name && !reserved.contains name

def quotePoint (c : CodePoint) : Text :=
  if c = .backslash ∨ c = .apostrophe then [.backslash, c] else [c]

def text (name : Text) : Text :=
  if isBare name then name
  else .apostrophe :: name.flatMap quotePoint ++ [.apostrophe]

end Atom

inductive Term where
  | atom (name : Text)
  | int (value : Int)
  | float (value : Binary64)
  | str (text : Text)
  | tuple (items : List Term)
  | list (items : List Term)
  /-- A truth value handed in from outside; no text is read as one. -/
  | bool (value : Bool)
  /-- What a clause with an empty body gives. -/
  | nothing
  deriving Inhabited

namespace Term

def int? : Term → Option Int
  | .int i => some i
  | _ => none

mutual

def hasOverlong : Term → Bool
  | .int i => Decimal.isOverlong i
  | .tuple items => anyOverlong items
  | .list items => anyOverlong items
  | _ => false

def anyOverlong : List Term → Bool
  | [] => false
  | t :: ts => t.hasOverlong || anyOverlong ts

end

theorem anyOverlong_eq_false_iff {ts : List Term} :
    anyOverlong ts = false ↔ ∀ t ∈ ts, t.hasOverlong = false := by
  induction ts with
  | nil => simp [anyOverlong]
  | cons t ts ih => simp [anyOverlong, ih]

def equalNumbers : Term → Term → Bool
  | .int i, .int j => i == j
  | .int i, .float x => x.equalInt i
  | .float x, .int i => x.equalInt i
  | .float x, .float y => x.equal y
  | .bool a, .bool b => a == b
  | .bool a, .int j => a.toInt == j
  | .int i, .bool b => i == b.toInt
  | .bool a, .float y => y.equalInt a.toInt
  | .float x, .bool b => x.equalInt b.toInt
  | _, _ => false

def sameNan : Term → Term → Bool
  | .float (.nan i), .float (.nan j) => i == j
  | _, _ => false

mutual

/-- Equality of terms: numbers by value, the rest by shape. Inside a tuple or a list a value that
is not a number is equal to itself. -/
def equal : Term → Term → Bool
  | .atom a, .atom b => a == b
  | .str s, .str t => s == t
  | .tuple xs, .tuple ys => equalAll xs ys
  | .list xs, .list ys => equalAll xs ys
  | .nothing, .nothing => true
  | x, y => equalNumbers x y

def equalAll : List Term → List Term → Bool
  | [], [] => true
  | x :: xs, y :: ys => (x.sameNan y || x.equal y) && equalAll xs ys
  | _, _ => false

end

end Term

end EnumForms
