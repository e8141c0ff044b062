import EnumForms.Binary64.Shortest
import EnumForms.Term
import EnumForms.Text.Printable

/-!
Terms as diagnostics show them: each kind of term has a look of its own, and what cannot be seen
is shown by its number.
-/
namespace EnumForms

def Text.inspect (t : Text) : Text :=
  let quote : CodePoint :=
    if t.contains .apostrophe && !t.contains .quotation then .quotation else .apostrophe
  let point (c : CodePoint) : Text :=
    if c = .backslash ∨ c = quote then [.backslash, c]
    else if c.val = 0x0A then lit "\\n"
    else if c.val = 0x0D then lit "\\r"
    else if c.val = 0x09 then lit "\\t"
    else if c.isPrintable then [c]
    else if c.val < 0x100 then lit "\\x" ++ Text.hex 2 c.val
    else if c.val < 0x10000 then lit "\\u" ++ Text.hex 4 c.val
    else lit "\\U" ++ Text.hex 8 c.val
  quote :: t.flatMap point ++ [quote]

def Text.inspectTuple : List Text → Text
  | [t] => lit "(" ++ t ++ lit ",)"
  | ts => lit "(" ++ Text.join (lit ", ") ts ++ lit ")"

namespace Term

def inspectAtom (name : Text) : Text := lit "Atom(name=" ++ name.inspect ++ lit ")"

mutual

def inspect : Term → Text
  | .atom name => inspectAtom name
  | .int i => Decimal.ofInt i
  | .float x => x.text
  | .str s => s.inspect
  | .tuple items => Text.inspectTuple (inspectAll items)
  | .list items => lit "[" ++ Text.join (lit ", ") (inspectAll items) ++ lit "]"
  | .bool b => if b then lit "True" else lit "False"
  | .nothing => lit "None"

def inspectAll : List Term → List Text
  | [] => []
  | t :: ts => t.inspect :: inspectAll ts

end

/-- The term in running text: an atom or a string as it stands, the rest as it is shown. -/
def display : Term → Text
  | .atom name => name
  | .str s => s
  | t => t.inspect

end Term

end EnumForms
