import EnumForms.Binary64.Shortest
import EnumForms.Term

/-!
Terms as text, in the form the reader takes. Strings are written with escapes, and a list of
integers stays a list.
-/
namespace EnumForms

def stringPoint (c : CodePoint) : Text :=
  if c = .backslash ∨ c = .quotation then [.backslash, c]
  else match c.val with
    | 0x08 => lit "\\b"
    | 0x09 => lit "\\t"
    | 0x0A => lit "\\n"
    | 0x0B => lit "\\v"
    | 0x0C => lit "\\f"
    | 0x0D => lit "\\r"
    | 0x1B => lit "\\e"
    | 0x7F => lit "\\d"
    | n => if n < 0x20 then lit "\\x\x7b" ++ Text.upperHex n ++ lit "\x7d" else [c]

def stringText (s : Text) : Text := .quotation :: s.flatMap stringPoint ++ [.quotation]

def floatText (x : Binary64) : Text :=
  let mantissa := x.text.takeWhile fun c => !c.is 'e'
  let power := x.text.dropWhile fun c => !c.is 'e'
  (if mantissa.any (·.is '.') then mantissa else mantissa ++ lit ".0") ++ power

namespace Term

mutual

/-- The term as it is written, if it can be: `text?` refuses the others. -/
def text : Term → Text
  | .atom name => Atom.text name
  | .int i => Decimal.ofInt i
  | .float x => floatText x
  | .str s => stringText s
  | .tuple items => lit "\x7b" ++ Text.join (lit ",") (texts items) ++ lit "\x7d"
  | .list items => lit "[" ++ Text.join (lit ",") (texts items) ++ lit "]"
  | .bool b => if b then lit "true" else lit "false"
  | .nothing => []

def texts : List Term → List Text
  | [] => []
  | t :: ts => t.text :: texts ts

end

mutual

def holdsNothing : Term → Bool
  | .tuple items | .list items => anyHoldsNothing items
  | .nothing => true
  | _ => false

def anyHoldsNothing : List Term → Bool
  | [] => false
  | t :: ts => t.holdsNothing || anyHoldsNothing ts

end

/-- Can the term be written? An integer with too many digits cannot, and nothing is no term. -/
def isWritable (t : Term) : Bool := !t.hasOverlong && !t.holdsNothing

def text? (t : Term) : Option Text := if t.isWritable then some t.text else none

theorem anyHoldsNothing_eq_false_iff {ts : List Term} :
    anyHoldsNothing ts = false ↔ ∀ t ∈ ts, t.holdsNothing = false := by
  induction ts with
  | nil => simp [anyHoldsNothing]
  | cons t ts ih => simp [anyHoldsNothing, ih]

theorem isWritable_iff {t : Term} :
    t.isWritable = true ↔ t.hasOverlong = false ∧ t.holdsNothing = false := by
  simp [isWritable]

theorem isWritable_tuple_iff {ts : List Term} :
    (tuple ts).isWritable = true ↔ ∀ t ∈ ts, t.isWritable = true := by
  simp only [isWritable_iff, hasOverlong, holdsNothing, anyOverlong_eq_false_iff,
    anyHoldsNothing_eq_false_iff, forall_and]

theorem isWritable_list_iff {ts : List Term} :
    (list ts).isWritable = true ↔ ∀ t ∈ ts, t.isWritable = true := isWritable_tuple_iff

end Term

end EnumForms
