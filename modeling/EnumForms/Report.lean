import EnumForms.Json.Reader
import EnumForms.Transformation

/-!
What a transformation tells others: its findings in lines, the value for whoever compiles the unit,
and a report for other programs. The report holds the enums with their entries, the generated
functions, the warnings and the counts, as a JSON document.
-/
namespace EnumForms

inductive ReturnValue where
  | forms (fs : Option (List Form))
  | warning (fs : Option (List Form)) (warnings : Findings)
  | error (errors : Findings)

namespace Findings

def all (fs : Findings) : List Diagnostic := fs.flatMap (·.2)

def isAny (fs : Findings) : Bool := fs.any fun f => f.2 ≠ []

def lines (label : Text) (fs : Findings) : Except MessageError (List Text) := do
  let ls ← fs.mapM fun (file, ds) =>
    ds.mapM fun d => (d.line label).map fun l => file ++ lit ":" ++ l
  .ok ls.flatten

end Findings

namespace Transformation

def diagnostics (t : Transformation) : Except MessageError Text := do
  let errors ← t.errors.lines (lit "[ERROR] ")
  let warnings ← t.warnings.lines (lit "[WARNING] ")
  .ok (Text.join (lit "\n") (errors ++ warnings))

def returnValue (t : Transformation) : ReturnValue :=
  if t.outcome = .failed then .error t.errors
  else if t.warnings.isAny then .warning t.forms t.warnings
  else .forms t.forms

def entryJson (e : Entry) : Json := .obj [(lit "name", .str e.name), (lit "code", .int e.code)]

def warningJson (d : Diagnostic) : Except MessageError Json :=
  d.message.map fun m => .obj [(lit "line", .int d.pos.lineNumber), (lit "message", .str m)]

/-- The document, with the enums in the order of the table. -/
def report (t : Transformation) : Except MessageError Json := do
  let warnings ← t.warnings.all.mapM warningJson
  .ok (.obj [
    (lit "file", .str t.file),
    (lit "outcome", .str t.outcome.name),
    (lit "enums", .obj (t.table.enums.map fun (name, entries) => (name, .arr (entries.map entryJson)))),
    (lit "functions", .arr (t.generated.map fun f => .str f.signature)),
    (lit "warnings", .arr warnings),
    (lit "stats", .obj [
      (lit "declarations", .int t.stats.declarations),
      (lit "enums", .int t.stats.enums),
      (lit "entries", .int t.stats.entries),
      (lit "functions", .int t.stats.functions)])])

end Transformation

end EnumForms
