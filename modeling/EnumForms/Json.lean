import EnumForms.Decimal

/-!
JSON documents and their text: members and items on lines of their own, indented by two spaces for
each level, and every code point as it is that need not be escaped.
-/
namespace EnumForms

inductive Json where
  | null
  | bool (value : Bool)
  | int (value : Int)
  /-- A number with a fraction or an exponent, as it is written. -/
  | number (text : Text)
  | str (text : Text)
  | arr (items : List Json)
  | obj (members : List (Text × Json))
  deriving Inhabited

namespace Json

mutual

def beq : Json → Json → Bool
  | .null, .null => true
  | .bool a, .bool b => a == b
  | .int a, .int b => a == b
  | .number a, .number b => a == b
  | .str a, .str b => a == b
  | .arr a, .arr b => beqItems a b
  | .obj a, .obj b => beqMembers a b
  | _, _ => false

def beqItems : List Json → List Json → Bool
  | [], [] => true
  | a :: as, b :: bs => beq a b && beqItems as bs
  | _, _ => false

def beqMembers : List (Text × Json) → List (Text × Json) → Bool
  | [], [] => true
  | (k, a) :: as, (l, b) :: bs => k == l && beq a b && beqMembers as bs
  | _, _ => false

end

def stringPoint (c : CodePoint) : Text :=
  if c = .backslash ∨ c = .quotation then [.backslash, c]
  else match c.val with
    | 0x08 => lit "\\b"
    | 0x09 => lit "\\t"
    | 0x0A => lit "\\n"
    | 0x0C => lit "\\f"
    | 0x0D => lit "\\r"
    | n => if n < 0x20 then lit "\\u" ++ Text.hex 4 n else [c]

def stringText (s : Text) : Text := .quotation :: s.flatMap stringPoint ++ [.quotation]

mutual

def hasOverlong : Json → Bool
  | .int i => Decimal.isOverlong i
  | .arr items => anyOverlong items
  | .obj members => anyMemberOverlong members
  | _ => false

def anyOverlong : List Json → Bool
  | [] => false
  | j :: js => j.hasOverlong || anyOverlong js

def anyMemberOverlong : List (Text × Json) → Bool
  | [] => false
  | (_, j) :: ms => j.hasOverlong || anyMemberOverlong ms

end

def indent (level : Nat) : Text := .newline :: Text.spaces (2 * level)

mutual

def textAt (level : Nat) : Json → Text
  | .null => lit "null"
  | .bool b => if b then lit "true" else lit "false"
  | .int i => Decimal.ofInt i
  | .number t => t
  | .str s => stringText s
  | .arr [] => lit "[]"
  | .arr (j :: js) => lit "[" ++ indent (level + 1) ++ textAt (level + 1) j ++
      itemsAt (level + 1) js ++ indent level ++ lit "]"
  | .obj [] => lit "\x7b\x7d"
  | .obj ((k, j) :: ms) => lit "\x7b" ++ indent (level + 1) ++ stringText k ++ lit ": " ++
      textAt (level + 1) j ++ membersAt (level + 1) ms ++ indent level ++ lit "\x7d"

def itemsAt (level : Nat) : List Json → Text
  | [] => []
  | j :: js => lit "," ++ indent level ++ textAt level j ++ itemsAt level js

def membersAt (level : Nat) : List (Text × Json) → Text
  | [] => []
  | (k, j) :: ms => lit "," ++ indent level ++ stringText k ++ lit ": " ++ textAt level j ++
      membersAt level ms

end

def text? (j : Json) : Option Text := if j.hasOverlong then none else some (j.textAt 0)

end Json

end EnumForms
