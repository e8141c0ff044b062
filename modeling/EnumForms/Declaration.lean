import EnumForms.Diagnostic.Collector
import EnumForms.Form
import EnumForms.Journal
import EnumForms.Table

/-!
Enum declarations: attributes named `enum`, whose value is a pair of a name and a list of entries.
An entry is an atom, which gets the next code, or a pair of an atom and a code not below the next
one. One wrong entry makes the enum invalid, and the first valid enum of a name wins.
-/
namespace EnumForms

structure Declaration where
  payload : Term
  line : Int

namespace Declaration

def parts? (d : Declaration) : Option (Term × Term) :=
  match d.payload with
  | .tuple [name, entries] => some (name, entries)
  | _ => none

def name? (d : Declaration) : Option Term := d.parts?.map (·.1)

def entries? (d : Declaration) : Option Term := d.parts?.map (·.2)

def find (fs : List Form) : List Declaration :=
  fs.filterMap fun
    | .attribute pos name value => if name = lit "enum" then some ⟨value, pos.lineNumber⟩ else none
    | _ => none

end Declaration

namespace Entry

/-- The entry a term describes, with `next` the least code left. -/
def ofTerm? (next : Int) : Term → Option Entry
  | .atom name => some ⟨name, next⟩
  | .tuple [.atom name, .int code] => if next ≤ code then some ⟨name, code⟩ else none
  | _ => none

def listFrom? (next : Int) : List Term → Option (List Entry)
  | [] => some []
  | t :: ts => do
    let e ← ofTerm? next t
    let es ← listFrom? (e.code + 1) ts
    some (e :: es)

/-- The entries a term describes: a list of them. The empty string is the empty list. -/
def listOfTerm? : Term → Option (List Entry)
  | .list ts => listFrom? 0 ts
  | .str [] => some []
  | _ => none

end Entry

def normalizeEntries (name : Text) (entries : Term) (pos : Position) :
    Except Diagnostic (List Entry) :=
  match Entry.listOfTerm? entries with
  | some es => .ok es
  | none => .error (.invalid pos name)

structure Registry where
  table : Table
  findings : Collector
  journal : Journal

namespace Registry

def empty : Registry := ⟨.empty, .empty, []⟩

def reject (r : Registry) (d : Diagnostic) (e : Event) : Registry :=
  { r with findings := r.findings.record d none, journal := r.journal ++ [e] }

def add (r : Registry) (d : Declaration) : Registry :=
  match d.parts? with
  | some (.atom name, entries) =>
    if r.table.contains name then
      r.reject (.duplicate (.line d.line) name) (.duplicated name d.line)
    else match normalizeEntries name entries (.line d.line) with
      | .ok es =>
        { r with
          table := r.table.insert name es
          journal := r.journal ++ [.accepted name es.length] }
      | .error finding => r.reject finding (.discarded name d.line)
  | _ => r.reject (.malformed (.line d.line)) (.rejected d.line)

def addAll (r : Registry) (ds : List Declaration) : Registry := ds.foldl add r

end Registry

end EnumForms
