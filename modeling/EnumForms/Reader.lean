import EnumForms.Node
import EnumForms.Token.Cut

/-!
Reading terms. A text is a sequence of terms, each closed by a dot.

The reader goes from token to token and keeps the brackets that are open. Where it stands says
which kinds of token the scanner looks for. A term just read may be followed by any sign that
follows terms somewhere; whether it fits the bracket around it is decided one step later, so a
token may be refused in two ways, with different kinds expected.
-/
namespace EnumForms

inductive Bracket where
  | tuple
  | list
  | tail
  deriving DecidableEq

structure Frame where
  bracket : Bracket
  place : Place
  items : List Node

inductive Point where
  -- a form or a bracket starts, so it may as well end
  | opening
  -- after a comma or a bar
  | item
  | done (node : Node)
  -- more of them may follow and belong to the same term
  | strings (place : Place) (texts : List Text)

/-- A reading in progress: the forms so far and the open brackets, the newest first. -/
structure Reading where
  forms : List Node
  frames : List Frame
  point : Point

namespace Reading

def starts : List Kind :=
  [.literal .atom, .literal .basedInt, .literal .char, .literal .float, .literal .int, .openTuple,
    .openList, .literal .quotedAtom, .string]

def followers : List Kind := [.comma, .dot, .closeTuple, .closeList, .bar]

/-- The kinds that follow a term that is not the first in its bracket, whatever the bracket. -/
def separators : List Kind := [.comma, .closeTuple, .closeList, .bar]

def inside : Bracket → List Kind
  | .tuple => [.comma, .closeTuple]
  | .list => [.comma, .closeList, .bar]
  | .tail => [.closeList]

def sorted (ks : List Kind) : List Kind := Kind.all.filter ks.contains

def accepts (r : Reading) : List Kind :=
  match r.point, r.frames with
  | .opening, [] => sorted (.finish :: starts)
  | .opening, f :: _ => sorted ((if f.bracket = .tuple then .closeTuple else .closeList) :: starts)
  | .item, _ => starts
  | .done _, _ => followers
  | .strings .., _ => sorted (.string :: followers)

def complete (r : Reading) (frames : List Frame) (n : Node) : Reading :=
  { r with frames, point := .done n }

/-- A term is complete and a token of kind `k` follows: the bracket takes the term, or the kinds it
would have taken are returned. -/
def follow (r : Reading) (n : Node) (k : Kind) : Except (List Kind) Reading :=
  match r.frames with
  | [] => if k = .dot then .ok ⟨n :: r.forms, [], .opening⟩ else .error [.dot]
  | f :: fs =>
    let items := n :: f.items
    if f.bracket ≠ .tail ∧ f.items ≠ [] ∧ k ∉ separators then .error separators
    else match f.bracket, k with
      | .tuple, .comma | .list, .comma => .ok { r with frames := { f with items } :: fs, point := .item }
      | .tuple, .closeTuple => .ok (r.complete fs (.tuple f.place items.reverse))
      | .list, .closeList => .ok (r.complete fs (.list f.place items.reverse))
      | .list, .bar => .ok { r with frames := ⟨.tail, f.place, items⟩ :: fs, point := .item }
      | .tail, .closeList => .ok (r.complete fs (.listWithTail f.place f.items.reverse n))
      | b, _ => .error (inside b)

def begin (r : Reading) (t : Token) : Except (List Kind) Reading :=
  match t.kind, r.point, r.frames with
  | .literal l, _, fs => .ok (r.complete fs (.literal l t.text t.place))
  | .string, _, _ => .ok { r with point := .strings t.place [t.text] }
  | .openTuple, _, fs => .ok { r with frames := ⟨.tuple, t.place, []⟩ :: fs, point := .opening }
  | .openList, _, fs => .ok { r with frames := ⟨.list, t.place, []⟩ :: fs, point := .opening }
  | .closeTuple, .opening, ⟨.tuple, place, []⟩ :: fs => .ok (r.complete fs (.tuple place []))
  | .closeList, .opening, ⟨.list, place, []⟩ :: fs => .ok (r.complete fs (.list place []))
  | _, _, _ => .error r.accepts

def step (r : Reading) (t : Token) : Except (List Kind) Reading :=
  match r.point with
  | .opening | .item => r.begin t
  | .done n => r.follow n t.kind
  | .strings place texts =>
    if t.kind = .string then .ok { r with point := .strings place (t.text :: texts) }
    else r.follow (.strings place texts.reverse) t.kind

def finish (r : Reading) : Except (List Kind) (List Node) :=
  match r.point, r.frames with
  | .opening, [] => .ok r.forms.reverse
  | _, _ => .error r.accepts

def start : Reading := ⟨[], [], .opening⟩

/-- Reads on at a place. The end of the text counts as a token at the place of the last one. A text
that has no token of the kinds the reader looks for has an unexpected one, if any token is there,
and an unexpected character otherwise. -/
def run (r : Reading) (last here : Place) (s : Text) : Except ReadError (List Node) :=
  match s with
  | [] => match r.finish with
    | .ok forms => .ok forms
    | .error expected => .error (.unexpectedToken ⟨.finish, [], last⟩ expected)
  | c :: s' =>
    match h : Lexeme.layout (c :: s') with
    | some (t, rest) =>
      have := layout_length h
      run r last (here.advance t) rest
    | none =>
      match h : scan r.accepts (c :: s') with
      | some (k, t, rest) =>
        have := scan_length h
        match r.step ⟨k, t, here⟩ with
        | .ok r' => run r' here (here.advance t) rest
        | .error expected => .error (.unexpectedToken ⟨k, t, here⟩ expected)
      | none =>
        match scan Kind.all (c :: s') with
        | some (k, t, _) =>
          .error (.unexpectedToken ⟨k, t, here⟩ (r.accepts.filter (· ≠ .finish)))
        | none => .error (.unexpectedCharacter c here)
termination_by s.length
decreasing_by all_goals simp only [List.length_cons] at *; omega

end Reading

def parse (s : Text) : Except ReadError (List Node) := Reading.start.run .start .start s

def readTerms (s : Text) : Except ReadError (List Term) := do
  let forms ← parse s
  Node.values forms

end EnumForms
