import EnumForms.Expr
import EnumForms.Term.Printer

/-!
The forms of a compilation unit: attributes, functions, the end mark, and terms that are none of
these, kept as they are. `Form.ofTerm` reads a form from any term and `Form.toTerm` gives the term
back.
-/
namespace EnumForms

structure Clause where
  pos : Position
  patterns : List Expr
  /-- Alternatives, each a list of tests. -/
  guards : List (List Expr)
  body : List Expr

structure FunctionDef where
  pos : Position
  name : Text
  arity : Int
  clauses : List Clause

inductive Form where
  | attribute (pos : Position) (name : Text) (value : Term)
  | function (f : FunctionDef)
  | eof (pos : Position)
  | raw (term : Term)

namespace Clause

def toTerm (c : Clause) : Term :=
  .tuple [.atom (lit "clause"), c.pos.toTerm, .list (Expr.toTerms c.patterns),
    .list (c.guards.map fun g => .list (Expr.toTerms g)), .list (Expr.toTerms c.body)]

def guardsOfTerm? : Term → Option (List (List Expr))
  | .list gs => gs.mapM Expr.listOfTerm?
  | _ => none

def ofTerm? : Term → Option Clause
  | .tuple [.atom tag, pos, patterns, guards, body] =>
    if tag = lit "clause" then do
      let pos ← Position.ofTerm? pos
      let patterns ← Expr.listOfTerm? patterns
      let guards ← guardsOfTerm? guards
      let body ← Expr.listOfTerm? body
      some ⟨pos, patterns, guards, body⟩
    else none
  | _ => none

def listOfTerm? : Term → Option (List Clause)
  | .list cs => cs.mapM ofTerm?
  | _ => none

end Clause

namespace FunctionDef

def toTerm (f : FunctionDef) : Term :=
  .tuple [.atom (lit "function"), f.pos.toTerm, .atom f.name, .int f.arity,
    .list (f.clauses.map Clause.toTerm)]

def signature (f : FunctionDef) : Text := f.name ++ lit "/" ++ Decimal.ofInt f.arity

end FunctionDef

namespace Form

def toTerm : Form → Term
  | .attribute pos name value => .tuple [.atom (lit "attribute"), pos.toTerm, .atom name, value]
  | .function f => f.toTerm
  | .eof pos => .tuple [.atom (lit "eof"), pos.toTerm]
  | .raw t => t

def ofTerm? : Term → Option Form
  | .tuple [.atom tag, pos] =>
    if tag = lit "eof" then (Position.ofTerm? pos).map .eof else none
  | .tuple [.atom tag, pos, .atom name, value] =>
    if tag = lit "attribute" then (Position.ofTerm? pos).map (.attribute · name value) else none
  | .tuple [.atom tag, pos, .atom name, .int arity, clauses] =>
    if tag = lit "function" then do
      let pos ← Position.ofTerm? pos
      let clauses ← Clause.listOfTerm? clauses
      some (.function ⟨pos, name, arity, clauses⟩)
    else none
  | _ => none

def ofTerm (t : Term) : Form := (ofTerm? t).getD (.raw t)

def sameKind : Form → Form → Bool
  | .attribute .., .attribute .. | .function _, .function _ | .eof _, .eof _ | .raw _, .raw _ => true
  | _, _ => false

def equal (f g : Form) : Bool := f.sameKind g && f.toTerm.equal g.toTerm

def equalAll : List Form → List Form → Bool
  | [], [] => true
  | f :: fs, g :: gs => f.equal g && equalAll fs gs
  | _, _ => false

/-- The forms as terms, each closed by a dot and on a line of its own, if all of them can be written. -/
def text? (fs : List Form) : Option Text :=
  if fs.all fun f => f.toTerm.isWritable then some (fs.flatMap fun f => f.toTerm.text ++ lit ".\n")
  else none

end Form

end EnumForms
