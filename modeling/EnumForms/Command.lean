import EnumForms.Folder
import EnumForms.Form.Source
import EnumForms.ReadError.Message
import EnumForms.Report
import EnumForms.Text.Terminal

/-!
The commands: checking that a unit is read, transforming a unit, and showing the functions of its
enums. A command is worked out as a list of things to print and to write, and the way it ends. Here
are the parts that commands are made of.
-/
namespace EnumForms

structure TransformOptions where
  output : Option Text := none
  json : Option Text := none
  source : Bool := false
  strict : Bool := false
  stats : Bool := false

inductive Command where
  | check (path : Text)
  | transform (path : Text) (options : TransformOptions)
  | render (path : Text)

structure Invocation where
  verbose : Bool
  command : Command

inductive Breakdown where
  | undecodableFile
  /-- A text with surrogates has no bytes. -/
  | unencodableText
  | overlongInput
  | overlongOutput
  | wordless
  | source (e : SourceError)
  | write (e : WriteError)

inductive Ending where
  | exit (code : Nat)
  | breakdown (b : Breakdown)

inductive Effect where
  | print (t : Text)
  | complain (t : Text)
  | makeWay (path : Text)
  | write (path : Text) (bytes : List UInt8)

abbrev Course := List Effect × Ending

namespace Command

def after (es : List Effect) (c : Course) : Course := (es ++ c.1, c.2)

def finish (code : Nat) : Course := ([], .exit code)

def breakOff (b : Breakdown) : Course := ([], .breakdown b)

def printing (t : Text) (rest : Course) : Course :=
  let t := t.withoutControls
  if t.any (·.isSurrogate) then breakOff .unencodableText else after [.print t] rest

def complaint (t : Text) : Effect := .complain t.withoutControls.withSurrogatesSpelled

def complaintLine (t : Text) : Effect := complaint (t ++ lit "\n")

/-- Writes a text to a file. The file is there, and empty, even if the text has no bytes. -/
def writing (path t : Text) (rest : Course) : Course :=
  match Utf8.encode? t with
  | some bytes => after [.write path bytes] rest
  | none => after [.write path []] (breakOff .unencodableText)

def note (e : Event) : Effect := .complain (e.told ++ lit "\n").withSurrogatesSpelled

def reporting (label file : Text) (ds : List Diagnostic) (rest : Course) : Course :=
  match ds with
  | [] => rest
  | d :: ds => match d.line label with
    | .ok l => after [complaintLine (file ++ lit ":" ++ l)] (reporting label file ds rest)
    | .error .overlong => breakOff .overlongOutput
    | .error (.wordless _) => breakOff .wordless

def unreadable (path source : Text) (e : ReadError) : Course :=
  match e.report? source (Path.normalize path) with
  | some r => after [complaintLine r.message] (finish 1)
  | none => breakOff .overlongInput

def withUnit (verbose : Bool) (path : Text) (bytes : List UInt8) (go : Transformation → Course) :
    Course :=
  match File.text? bytes with
  | none => breakOff .undecodableFile
  | some source => match transformText source with
    | .error (.unreadable e) => unreadable path source e
    | .error (.malformed m) => after [complaintLine (Message.other path m.message)] (finish 1)
    | .ok t => after (if verbose then t.journal.map note else []) (go t)

def statsLines (s : Stats) : List Effect :=
  complaintLine (lit "Stats:") ::
    [("declarations", s.declarations), ("enums", s.enums), ("entries", s.entries),
      ("functions", s.functions), ("warnings", s.warnings)].map fun (name, n) =>
        complaintLine (lit "  " ++ lit name ++ lit ": " ++ Decimal.ofNat n)

end Command

end EnumForms
