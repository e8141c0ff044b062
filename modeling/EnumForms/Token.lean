import EnumForms.Escape
import EnumForms.Term

/-!
Tokens of the term language. Each kind of token recognises one at the front of a text; the scanner
tries the kinds it is allowed, numbers in the order float, based integer, integer.
-/
namespace EnumForms

inductive Literal where
  | atom | quotedAtom | int | basedInt | float | char
  deriving DecidableEq

inductive Kind where
  | finish
  | literal (l : Literal)
  | string
  | openTuple | closeTuple | openList | closeList
  | comma | bar | dot
  deriving DecidableEq

namespace Kind

def all : List Kind :=
  [.finish, .literal .atom, .literal .basedInt, .literal .char, .comma, .dot, .literal .float,
    .literal .int, .openTuple, .openList, .literal .quotedAtom, .closeTuple, .closeList, .string, .bar]

def name : Kind → Text
  | .finish => lit "$END"
  | .literal .atom => lit "ATOM"
  | .literal .quotedAtom => lit "QUOTED_ATOM"
  | .literal .int => lit "INT"
  | .literal .basedInt => lit "BASED_INT"
  | .literal .float => lit "FLOAT"
  | .literal .char => lit "CHAR"
  | .string => lit "STRING"
  | .openTuple => lit "LBRACE"
  | .closeTuple => lit "RBRACE"
  | .openList => lit "LSQB"
  | .closeList => lit "RSQB"
  | .comma => lit "COMMA"
  | .bar => lit "VBAR"
  | .dot => lit "DOT"

def ofName? (name : Text) : Option Kind := all.find? (·.name = name)

/-- The order in which kinds are tried: of several numbers at one place the earlier kind wins. -/
def byPriority : List Kind :=
  [.literal .float, .literal .basedInt, .literal .int, .literal .atom, .literal .quotedAtom,
    .literal .char, .string, .openTuple, .closeTuple, .openList, .closeList, .comma, .bar, .dot]

end Kind

/-! ## What each kind recognises

A recogniser cuts a text into a token at its front and the rest. -/

namespace Lexeme

def run (p : CodePoint → Bool) (s : Text) : Option (Text × Text) :=
  if s.takeWhile p = [] then none else some (s.takeWhile p, s.dropWhile p)

def single (ch : Char) : Text → Option (Text × Text)
  | [] => none
  | c :: s => if c.is ch then some ([c], s) else none

def andThen (f g : Text → Option (Text × Text)) (s : Text) : Option (Text × Text) :=
  match f s with
  | none => none
  | some (a, r) => match g r with
    | none => none
    | some (b, r) => some (a ++ b, r)

def optional (f : Text → Option (Text × Text)) (s : Text) : Option (Text × Text) :=
  some ((f s).getD ([], s))

def either (f g : Text → Option (Text × Text)) (s : Text) : Option (Text × Text) :=
  (f s).or (g s)

def atom : Text → Option (Text × Text)
  | [] => none
  | c :: s =>
    if c.isLowerLetter then some (c :: s.takeWhile Atom.isNamePart, s.dropWhile Atom.isNamePart)
    else none

def int : Text → Option (Text × Text) :=
  andThen (optional (single '-')) (run CodePoint.isDigit)

def basedInt : Text → Option (Text × Text) :=
  andThen int (andThen (single '#') (run CodePoint.isAlphanumeric))

def exponent : Text → Option (Text × Text) :=
  andThen (either (single 'e') (single 'E'))
    (andThen (optional (either (single '+') (single '-'))) (run CodePoint.isDigit))

def float : Text → Option (Text × Text) :=
  andThen int (andThen (single '.') (andThen (run CodePoint.isDigit) (optional exponent)))

/-- The rest of a quoted token, up to the closing mark. A backslash takes the next code point with
it, which must not be a line feed. -/
def untilMark (mark : CodePoint) : Text → Option (Text × Text)
  | [] => none
  | c :: s =>
    if c = mark then some ([c], s)
    else if c = .backslash then
      match s with
      | [] => none
      | d :: s =>
        if d = .newline then none else (untilMark mark s).map fun (t, r) => (c :: d :: t, r)
    else (untilMark mark s).map fun (t, r) => (c :: t, r)

def quoted (mark : CodePoint) : Text → Option (Text × Text)
  | [] => none
  | c :: s => if c = mark then (untilMark mark s).map fun (t, r) => (c :: t, r) else none

def char : Text → Option (Text × Text)
  | d :: c :: s =>
    if d.is '$' then
      if c = .backslash then
        match Escape.split s with
        | some (e, r) => some (d :: c :: e.spelling, r)
        | none => some ([d, c], s)
      else some ([d, c], s)
    else none
  | _ => none

end Lexeme

def Kind.lexeme? : Kind → Text → Option (Text × Text)
  | .finish => fun _ => none
  | .literal .atom => Lexeme.atom
  | .literal .quotedAtom => Lexeme.quoted .apostrophe
  | .literal .int => Lexeme.int
  | .literal .basedInt => Lexeme.basedInt
  | .literal .float => Lexeme.float
  | .literal .char => Lexeme.char
  | .string => Lexeme.quoted .quotation
  | .openTuple => Lexeme.single '\x7b'
  | .closeTuple => Lexeme.single '\x7d'
  | .openList => Lexeme.single '['
  | .closeList => Lexeme.single ']'
  | .comma => Lexeme.single ','
  | .bar => Lexeme.single '|'
  | .dot => Lexeme.single '.'

/-! ## Layout -/

def CodePoint.isLayout (c : CodePoint) : Bool :=
  c.val == 0x09 || c.val == 0x0A || c.val == 0x0C || c.val == 0x0D || c.val == 0x20

def Lexeme.comment : Text → Option (Text × Text) :=
  Lexeme.andThen (Lexeme.single '%') (Lexeme.optional (Lexeme.run (· ≠ .newline)))

def Lexeme.layout : Text → Option (Text × Text) :=
  Lexeme.either (Lexeme.run CodePoint.isLayout) Lexeme.comment

/-! ## The scanner -/

/-- Lines count from one and so do the columns in them; a line feed ends a line. -/
structure Place where
  line : Nat
  column : Nat
  deriving DecidableEq

namespace Place

def start : Place := ⟨1, 1⟩

def next (p : Place) (c : CodePoint) : Place :=
  if c = .newline then ⟨p.line + 1, 1⟩ else ⟨p.line, p.column + 1⟩

def advance (p : Place) (t : Text) : Place := t.foldl next p

end Place

structure Token where
  kind : Kind
  text : Text
  place : Place
  deriving DecidableEq

/-- The first token of an allowed kind at the front of a text, in the order of priority. -/
def scan (allowed : List Kind) (s : Text) : Option (Kind × Text × Text) :=
  (Kind.byPriority.filter allowed.contains).findSome? fun k =>
    (k.lexeme? s).map fun (t, r) => (k, t, r)

end EnumForms
