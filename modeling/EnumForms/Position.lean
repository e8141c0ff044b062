import EnumForms.Term.Inspect

/-!
Where a form stands in the source it was made from: a line, with a column or without. A unit uses
one of the two styles.
-/
namespace EnumForms

inductive Position where
  | line (line : Int)
  | lineColumn (line column : Int)
  deriving DecidableEq

inductive PositionStyle where
  | line
  | lineColumn
  deriving DecidableEq

namespace PositionStyle

def name : PositionStyle → Text
  | .line => lit "line"
  | .lineColumn => lit "line_column"

def encode (s : PositionStyle) (line : Int) : Position :=
  match s with
  | .line => .line line
  | .lineColumn => .lineColumn line 1

end PositionStyle

namespace Position

def lineNumber : Position → Int
  | .line l => l
  | .lineColumn l _ => l

def style : Position → PositionStyle
  | .line _ => .line
  | .lineColumn _ _ => .lineColumn

def toTerm : Position → Term
  | .line l => .int l
  | .lineColumn l c => .tuple [.int l, .int c]

def ofTerm? : Term → Option Position
  | .int l => some (.line l)
  | .tuple [.int l, .int c] => some (.lineColumn l c)
  | _ => none

theorem ofTerm?_toTerm (p : Position) : ofTerm? p.toTerm = some p := by
  cases p <;> rfl

theorem style_encode (s : PositionStyle) (line : Int) : (s.encode line).style = s := by
  cases s <;> rfl

theorem lineNumber_encode (s : PositionStyle) (line : Int) : (s.encode line).lineNumber = line := by
  cases s <;> rfl

def unrecognized (t : Term) : Text := lit "Posicao nao reconhecida: " ++ t.inspect

def hasOverlong : Position → Bool
  | .line l => Decimal.isOverlong l
  | .lineColumn l c => Decimal.isOverlong l || Decimal.isOverlong c

def text : Position → Text
  | .line l => Decimal.ofInt l
  | .lineColumn l c => Decimal.ofInt l ++ lit ":" ++ Decimal.ofInt c

def inspect : Position → Text
  | .line l => lit "LinePosition(line=" ++ Decimal.ofInt l ++ lit ")"
  | .lineColumn l c =>
    lit "LineColumnPosition(line=" ++ Decimal.ofInt l ++ lit ", column=" ++ Decimal.ofInt c ++ lit ")"

end Position

end EnumForms
