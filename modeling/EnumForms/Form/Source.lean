import EnumForms.Form

/-!
Functions and exports as source code. A function that is not built from the known expressions is
only named, in a comment.
-/
namespace EnumForms

namespace Expr

def sourceForms : Expr → Text × Text
  -- the source, and the source as the rest of a list after an element
  | .atom _ name => (Atom.text name, lit " | " ++ Atom.text name)
  | .integer _ i => (Decimal.ofInt i, lit " | " ++ Decimal.ofInt i)
  | .var _ name => (name, lit " | " ++ name)
  | .nil _ => (lit "[]", [])
  | .cons _ head tail =>
    let items := head.sourceForms.1 ++ tail.sourceForms.2
    (lit "[" ++ items ++ lit "]", lit ", " ++ items)
  | .call _ function args =>
    let t := function.sourceForms.1 ++ lit "(" ++ Text.join (lit ", ") (argumentSources args) ++ lit ")"
    (t, lit " | " ++ t)
where
  argumentSources : List Expr → List Text
    | [] => []
    | e :: es => e.sourceForms.1 :: argumentSources es

def source (e : Expr) : Text := e.sourceForms.1

def sources (es : List Expr) : Text := Text.join (lit ", ") (es.map source)

mutual

def hasOverlong : Expr → Bool
  | .atom .. | .var .. | .nil .. => false
  | .integer _ i => Decimal.isOverlong i
  | .cons _ head tail => head.hasOverlong || tail.hasOverlong
  | .call _ function args => function.hasOverlong || anyOverlong args

def anyOverlong : List Expr → Bool
  | [] => false
  | e :: es => e.hasOverlong || anyOverlong es

end

end Expr

namespace Clause

def hasOverlong (c : Clause) : Bool :=
  Expr.anyOverlong c.patterns || c.guards.any Expr.anyOverlong || Expr.anyOverlong c.body

def guardSource (guards : List (List Expr)) : Text :=
  if guards = [] then []
  else lit " when " ++ Text.join (lit "; ") (guards.map Expr.sources)

def source (name : Text) (c : Clause) : Text :=
  Atom.text name ++ lit "(" ++ Expr.sources c.patterns ++ lit ")" ++ guardSource c.guards ++
    lit " ->\n    " ++ Expr.sources c.body

end Clause

def FunctionDef.source (f : FunctionDef) : Text :=
  if f.clauses = [] then []
  else Text.join (lit ";\n") (f.clauses.map (Clause.source f.name)) ++ lit "."

inductive SourceError where
  | overlong
  | exportsWithoutMembers
  | exportWithoutParts
  | exportSize
  | exportName
  deriving DecidableEq

/-- The members of a term that has any: a string has its characters. -/
def Term.members? : Term → Option (List Term)
  | .tuple ts | .list ts => some ts
  | .str s => some (s.map fun c => .str [c])
  | _ => none

def exportSource (t : Term) : Except SourceError Text :=
  match t.members? with
  | none => .error .exportWithoutParts
  | some [.atom name, arity] =>
    if arity.hasOverlong then .error .overlong
    else .ok (Atom.text name ++ lit "/" ++ arity.display)
  | some [_, _] => .error .exportName
  | some _ => .error .exportSize

namespace Form

def rawFunction? : Term → Option (Text × Term)
  | .tuple (.atom tag :: _ :: .atom name :: arity :: _)
  | .list (.atom tag :: _ :: .atom name :: arity :: _) =>
    match arity with
    | .int _ | .bool _ => if tag = lit "function" then some (name, arity) else none
    | _ => none
  | _ => none

/-- The source of a form; most forms have none. -/
def source : Form → Except SourceError (Option Text)
  | .function f =>
    if f.clauses.any Clause.hasOverlong then .error .overlong else .ok (some f.source)
  | .raw t => match rawFunction? t with
    | some (name, arity) =>
      if arity.hasOverlong then .error .overlong
      else .ok (some (lit "%% " ++ Atom.text name ++ lit "/" ++ arity.display ++
        lit ": corpo nao representavel"))
    | none => .ok none
  | .attribute _ name value =>
    if name = lit "export" then
      match value.members? with
      | none => .error .exportsWithoutMembers
      | some ms => do
        let names ← ms.mapM exportSource
        .ok (some (lit "-export([" ++ Text.join (lit ", ") names ++ lit "])."))
    else .ok none
  | .eof _ => .ok none

def sourceText (fs : List Form) : Except SourceError Text := do
  let chunks := (← fs.mapM source).filterMap id
  .ok (Text.join (lit "\n\n") chunks ++ if chunks = [] then [] else lit "\n")

end Form

end EnumForms
