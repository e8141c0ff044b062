import EnumForms.Command

/-!
The command line: `-v` or `--verbose`, any number of times, then one of `check`, `transform` and
`render` with the path of a unit. The options of a command and the path may come in any order, and
`--` ends the options in front of the command and behind it.
-/
namespace EnumForms.Invocation

structure Reading where
  path : Option Text := none
  options : TransformOptions := {}

def valueOf? (name : String) (a : Text) : Option Text :=
  let head := lit name ++ lit "="
  if head.isPrefixOf a then some (a.drop head.length) else none

def flag? (o : TransformOptions) (a : Text) : Option TransformOptions :=
  if a = lit "--source" then some { o with source := true }
  else if a = lit "--strict" then some { o with strict := true }
  else if a = lit "--stats" then some { o with stats := true }
  else none

/-- The file an argument names. The empty path names none. -/
def target (v : Text) : Option Text := if v = [] then none else some v

def attached? (o : TransformOptions) (a : Text) : Option TransformOptions :=
  match valueOf? "--output" a, valueOf? "--json" a with
  | some v, _ => some { o with output := target v }
  | _, some v => some { o with json := target v }
  | none, none =>
    if (lit "-o").isPrefixOf a ∧ 2 < a.length then some { o with output := target (a.drop 2) } else none

def separate? (o : TransformOptions) (a v : Text) : Option TransformOptions :=
  if a = lit "-o" ∨ a = lit "--output" then some { o with output := target v }
  else if a = lit "--json" then some { o with json := target v }
  else none

def isOption (a : Text) : Bool := (lit "-").isPrefixOf a && 1 < a.length

def takePath (r : Reading) (a : Text) : Option Reading :=
  match r.path with
  | none => some { r with path := some a }
  | some _ => none

def arguments (hasOptions : Bool) (r : Reading) : List Text → Option Reading
  | [] => some r
  | a :: rest =>
    if a = lit "--" then rest.foldlM takePath r
    else if isOption a then
      if hasOptions then
        match (flag? r.options a).or (attached? r.options a) with
        | some options => arguments hasOptions { r with options } rest
        | none => match rest with
          | [] => none
          | v :: rest => do
            let options ← separate? r.options a v
            arguments hasOptions { r with options } rest
      else none
    else do
      let r ← takePath r a
      arguments hasOptions r rest

def command? (name : Text) (args : List Text) : Option Command :=
  if name = lit "check" then do
    let r ← arguments false {} args
    r.path.map .check
  else if name = lit "render" then do
    let r ← arguments false {} args
    r.path.map .render
  else if name = lit "transform" then do
    let r ← arguments true {} args
    r.path.map (.transform · r.options)
  else none

/-- One or more times `-v` in one argument, or `--verbose`. -/
def asksForSteps (a : Text) : Bool :=
  a = lit "--verbose" || ((lit "-").isPrefixOf a && 1 < a.length && a.tail.all (·.is 'v'))

def ofCommand? : List Text → Option Invocation
  | [] => none
  | name :: args => (command? name args).map (⟨false, ·⟩)

def ofArguments? : List Text → Option Invocation
  | [] => none
  | a :: as =>
    if asksForSteps a then (ofArguments? as).map fun i => { i with verbose := true }
    else if a = lit "--" then ofCommand? as
    else ofCommand? (a :: as)

end EnumForms.Invocation
