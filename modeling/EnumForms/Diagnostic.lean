import EnumForms.Position

/-!
What is wrong with an enum declaration, and where. Declarations that are wrong are left out with a
warning.
-/
namespace EnumForms

inductive Severity where
  | error
  | warning
  deriving DecidableEq

inductive Diagnostic where
  | duplicate (pos : Position) (name : Text)
  | invalid (pos : Position) (name : Text)
  | malformed (pos : Position)
  /-- A diagnostic that says nothing but where. -/
  | bare (pos : Position)
  deriving DecidableEq

namespace Diagnostic

def pos : Diagnostic → Position
  | .duplicate p _ | .invalid p _ | .malformed p | .bare p => p

-- no finding is an error by itself; a collector may be told to take it as one
def severity (_ : Diagnostic) : Severity := .warning

def source (_ : Diagnostic) : Text := lit "eenum"

def kindName : Diagnostic → Text
  | .duplicate .. => lit "DuplicateEnum"
  | .invalid .. => lit "InvalidEnum"
  | .malformed _ => lit "InvalidEnumDeclaration"
  | .bare _ => lit "EnumDiagnostic"

end Diagnostic

inductive MessageError where
  | wordless (pos : Position)
  | overlong
  deriving DecidableEq

namespace MessageError

def wordlessText (pos : Position) : Text :=
  lit "Diagnostico desconhecido: EnumDiagnostic(location=" ++ pos.inspect ++
    lit ", severity=<ErrorSeverity.WARNING: 'warning'>)"

end MessageError

namespace Diagnostic

def message : Diagnostic → Except MessageError Text
  | .duplicate _ name => .ok (lit "enum '" ++ Atom.text name ++ lit "' already defined")
  | .invalid _ name => .ok (lit "invalid enum '" ++ Atom.text name ++ lit "'")
  | .malformed _ => .ok (lit "invalid enum")
  | .bare p => .error (.wordless p)

def line (label : Text) (d : Diagnostic) : Except MessageError Text :=
  if d.pos.hasOverlong then .error .overlong
  else d.message.map fun m => d.pos.text ++ lit ": " ++ label ++ m

end Diagnostic

end EnumForms
