import EnumForms.Command

/-!
The courses of the commands, and carrying a course out in a folder that is held as a value: what is
printed, what the folder holds afterwards, and how the command ends.
-/
namespace EnumForms

namespace Command

def sourceOf (t : Transformation) : Except Breakdown Text :=
  (Form.sourceText (t.generated.map .function)).mapError .source

def resultText (o : TransformOptions) (t : Transformation) : Except Breakdown Text :=
  if o.source then sourceOf t
  else match Form.text? (t.forms.getD []) with
    | some s => .ok s
    | none => .error .overlongOutput

/-- Writes the report on a transformation. Once there is a report the folders on its way are made,
even if it has no text. -/
def exporting (path : Text) (t : Transformation) (rest : Course) : Course :=
  match t.report with
  | .error _ => breakOff .wordless
  | .ok j => after [.makeWay path] <|
    match j.text? with
    | none => breakOff .overlongOutput
    | some s => writing path s rest

def putOut (o : TransformOptions) (t : Transformation) (rest : Course) : Course :=
  if t.success then
    match resultText o t with
    | .error b => breakOff b
    | .ok s =>
      let rest := match o.json with
        | some path => exporting path t rest
        | none => rest
      match o.output with
      | some path => writing path s rest
      | none => printing s rest
  else rest

def exitCode (o : TransformOptions) (t : Transformation) : Nat :=
  if t.errors.isAny || (o.strict && t.warnings.isAny) then 1 else 0

def course (verbose : Bool) (bytes : List UInt8) : Command → Course
  | .check path =>
    match File.text? bytes with
    | none => breakOff .undecodableFile
    | some source => match readForms source with
      | .error e => unreadable path source e
      | .ok fs => printing (lit "OK (" ++ Decimal.ofNat fs.length ++ lit " forms)\n") (finish 0)
  | .transform path o =>
    withUnit verbose path bytes fun t =>
      reporting (lit "[ERROR] ") t.file t.errors.all <|
        reporting (lit "[WARNING] ") t.file t.warnings.all <|
          after (if o.stats then statsLines t.stats else []) <|
            putOut o t (finish (exitCode o t))
  | .render path =>
    withUnit verbose path bytes fun t =>
      reporting (lit "[WARNING] ") t.file t.warnings.all <|
        match sourceOf t with
        | .ok s => printing s (finish 0)
        | .error b => breakOff b

def path : Command → Text
  | .check p | .transform p _ | .render p => p

end Command

namespace Invocation

def course (i : Invocation) (bytes : List UInt8) : Course := i.command.course i.verbose bytes

end Invocation

/-! ## Carrying a course out -/

structure Observed where
  printed : Text
  complained : Text
  folder : Folder
  ending : Ending

namespace Effect

def perform (s : Observed) : Effect → Except WriteError Observed
  | .print t => .ok { s with printed := s.printed ++ t }
  | .complain t => .ok { s with complained := s.complained ++ t }
  | .makeWay path => (s.folder.makeWay (Path.steps path)).map fun f => { s with folder := f }
  | .write path bytes => (s.folder.write (Path.steps path) bytes).map fun f => { s with folder := f }

def performAll (s : Observed) : List Effect → Observed
  | [] => s
  | e :: es => match e.perform s with
    | .ok s => performAll s es
    | .error w => { s with ending := .breakdown (.write w) }

end Effect

def Invocation.run (i : Invocation) (bytes : List UInt8) (f : Folder) : Observed :=
  Effect.performAll ⟨[], [], f, (i.course bytes).2⟩ (i.course bytes).1

end EnumForms
