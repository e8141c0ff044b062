import EnumForms.Accessors
import EnumForms.Declaration
import EnumForms.Module
import EnumForms.Reader
import EnumForms.Text.Lines
import EnumForms.Text.Utf8

/-!
The transformation of a unit. A unit starts with the attribute that names its file and the attribute
that names its module, and it ends in an end mark. If it declares a valid enum, the functions of its
enums are put before a new end mark and exported right after the module attribute. A unit without
one stays as it is, and one with errors has no forms.

The unit may be given by its forms, as a text, or as the bytes of a file in UTF-8, with any of the
usual line ends.
-/
namespace EnumForms

inductive Malformed where
  | tooShort
  | noFile
  | noModule
  | noEnd
  deriving DecidableEq

def Malformed.message : Malformed → Text
  | .tooShort => lit "Unidade precisa de atributo file, atributo de modulo e eof"
  | .noFile => lit "Primeira forma deve ser \x7battribute, _, file, \x7bArquivo, Linha\x7d\x7d"
  | .noModule => lit "Segunda forma deve ser o atributo de modulo"
  | .noEnd => lit "Ultima forma deve ser \x7beof, _\x7d"

structure UnitParts where
  fileForm : Form
  file : Text
  moduleForm : Form
  modulePos : Position
  body : List Form
  endPos : Position

namespace UnitParts

def fileOf? : Form → Option Text
  | .attribute _ name (.tuple [.str file, _]) => if name = lit "file" then some file else none
  | _ => none

def attributePos? : Form → Option Position
  | .attribute pos _ _ => some pos
  | _ => none

def eofPos? : Form → Option Position
  | .eof pos => some pos
  | _ => none

/-- The parts of a unit, or what it lacks first. -/
def ofForms : List Form → Except Malformed UnitParts
  | fileForm :: moduleForm :: first :: rest =>
    match fileOf? fileForm, attributePos? moduleForm, eofPos? ((first :: rest).getLast (by simp)) with
    | none, _, _ => .error .noFile
    | _, none, _ => .error .noModule
    | _, _, none => .error .noEnd
    | some file, some modulePos, some endPos =>
      .ok ⟨fileForm, file, moduleForm, modulePos, first :: rest, endPos⟩
  | _ => .error .tooShort

end UnitParts

inductive Outcome where
  | passThrough
  | transformed
  | failed
  deriving DecidableEq

def Outcome.name : Outcome → Text
  | .passThrough => lit "pass_through"
  | .transformed => lit "transformed"
  | .failed => lit "failed"

structure Stats where
  declarations : Nat
  enums : Nat
  entries : Nat
  functions : Nat := 0
  warnings : Nat := 0
  errors : Nat := 0
  deriving DecidableEq

abbrev Findings := List (Text × List Diagnostic)

structure Transformation where
  outcome : Outcome
  file : Text
  forms : Option (List Form)
  warnings : Findings := []
  errors : Findings := []
  table : Table
  generated : List FunctionDef := []
  stats : Stats
  journal : Journal

def Findings.ofFile (file : Text) (ds : List Diagnostic) : Findings :=
  if ds = [] then [] else [(file, ds)]

namespace UnitParts

def registry (u : UnitParts) : Registry := Registry.empty.addAll (Declaration.find u.body)

def counts (u : UnitParts) : Stats :=
  { declarations := (Declaration.find u.body).length
    enums := u.registry.table.size
    entries := u.registry.table.entryCount }

end UnitParts

namespace Transformation

def success (t : Transformation) : Bool := t.outcome ≠ .failed

def exportForm (pos : Position) : Form :=
  .attribute pos (lit "export")
    (.list (Accessors.exports.map fun (name, arity) => .tuple [.atom name, .int arity]))

def isEof : Form → Bool
  | .eof _ => true
  | _ => false

/-- The new unit: the export attribute after the module attribute, and the functions before a new
end mark. The first end mark of the old one is left out. -/
def assemble (u : UnitParts) (functions : List FunctionDef) (last : Int) : List Form :=
  let style := u.modulePos.style
  u.fileForm :: u.moduleForm :: exportForm (style.encode u.modulePos.lineNumber) ::
    u.body.eraseP isEof ++ functions.map .function ++ [.eof (style.encode (last + 1))]

/-! ## The three exits -/

def unchanged (fs : List Form) (u : UnitParts) : Transformation :=
  let warnings := (u.registry.findings.drain .warning).1
  { outcome := .passThrough
    file := u.file
    forms := some fs
    warnings := .ofFile u.file warnings
    table := u.registry.table
    stats := { u.counts with warnings := warnings.length }
    journal := u.registry.journal ++ [.unchanged u.file] }

/-- A unit with a valid enum and an error has no forms, and its warnings are left out. -/
def refused (u : UnitParts) : Transformation :=
  let errors := (u.registry.findings.drain .error).1
  { outcome := .failed
    file := u.file
    forms := none
    errors := .ofFile u.file errors
    table := u.registry.table
    stats := { u.counts with errors := errors.length }
    journal := u.registry.journal ++ [.failed u.file errors.length] }

def extended (u : UnitParts) : Transformation :=
  let table := u.registry.table
  let (functions, last) := Accessors.synthesize u.modulePos.style table u.endPos.lineNumber
  let warnings := (u.registry.findings.drain .warning).1
  { outcome := .transformed
    file := u.file
    forms := some (assemble u functions last)
    warnings := .ofFile u.file warnings
    table
    generated := functions
    stats := { u.counts with functions := functions.length, warnings := warnings.length }
    journal := u.registry.journal ++ functions.map (fun f => .generated f.name f.arity) ++
      [.transformed u.file table.size functions.length warnings.length] }

/-- The transformation of a unit. No declaration is an error, so the second exit is never taken. -/
def ofUnit (fs : List Form) (u : UnitParts) : Transformation :=
  if u.registry.table.size = 0 then unchanged fs u
  else if u.registry.findings.hasErrors then refused u
  else extended u

end Transformation

def transform (fs : List Form) : Except Malformed Transformation :=
  (UnitParts.ofForms fs).map (Transformation.ofUnit fs)

def readForms (s : Text) : Except ReadError (List Form) := (readTerms s).map (·.map Form.ofTerm)

inductive UnitError where
  | unreadable (e : ReadError)
  | malformed (m : Malformed)

def transformText (s : Text) : Except UnitError Transformation := do
  let fs ← (readForms s).mapError .unreadable
  (transform fs).mapError .malformed

def Transformation.module (t : Transformation) : Module := .ofForms (t.forms.getD [])

/-! ## Units in files -/

namespace File

def text? (bytes : List UInt8) : Option Text := (Utf8.decode? bytes).map Text.unifyNewlines

inductive Error where
  | undecodable
  | unit (e : UnitError)

def text (bytes : List UInt8) : Except Error Text :=
  match text? bytes with
  | some t => .ok t
  | none => .error .undecodable

def parse (bytes : List UInt8) : Except Error (List Node) := do
  let t ← text bytes
  (EnumForms.parse t).mapError fun e => .unit (.unreadable e)

def readForms (bytes : List UInt8) : Except Error (List Form) := do
  let t ← text bytes
  (EnumForms.readForms t).mapError fun e => .unit (.unreadable e)

def transform (bytes : List UInt8) : Except Error Transformation := do
  let t ← text bytes
  (transformText t).mapError .unit

end File

end EnumForms
