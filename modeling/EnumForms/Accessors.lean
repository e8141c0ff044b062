import EnumForms.Form
import EnumForms.Table

/-!
The functions that convert between the names and the codes of enums.

`to_int/2` and `to_atom/2` choose, by the enum, one of the functions of that enum, `<enum>_to_int/1`
or `<enum>_to_atom/1`, which choose by the key or the code. `keys/1` and `values/1` list an enum.
Each function ends in a clause that takes anything and throws `bad_enum`.

Lines are numbered from a first one on. A clause of `to_int/2` or `to_atom/2` has a line of its own,
and its last clause leaves one line out; each function of an enum has a line, with a line left out
after the last; `keys/1` and `values/1` have one line each.
-/
namespace EnumForms.Accessors

def toInt : Text := lit "to_int"
def toAtom : Text := lit "to_atom"
def keys : Text := lit "keys"
def values : Text := lit "values"
def throw : Text := lit "throw"
def badEnum : Text := lit "bad_enum"

def exports : List (Text × Int) := [(toInt, 2), (toAtom, 2), (keys, 1), (values, 1)]

def toIntOf (enum : Text) : Text := enum ++ lit "_to_int"
def toAtomOf (enum : Text) : Text := enum ++ lit "_to_atom"

def clause (p : Position) (patterns : List Expr) (body : Expr) : Clause := ⟨p, patterns, [], [body]⟩

def lastClause (p : Position) (arity : Nat) : Clause :=
  clause p (List.replicate arity (.var p (lit "_"))) (.call p (.atom p throw) [.atom p badEnum])

/-- A function that ends in the clause for everything else, which stands at `last`. -/
def functionOf (p last : Position) (name : Text) (arity : Nat) (clauses : List Clause) : FunctionDef :=
  ⟨p, name, arity, clauses ++ [lastClause last arity]⟩

def numbered (line : Int) (t : Table) : List (Int × Text × List Entry) :=
  t.enums.zipIdx.map fun (e, i) => (line + i, e)

def dispatcher (s : PositionStyle) (t : Table) (line : Int) (name : Text) (target : Text → Text) :
    FunctionDef × Int :=
  let clauses := (numbered line t).map fun (l, enum, _) =>
    let p := s.encode l
    clause p [.atom p enum, .var p (lit "Enum")] (.call p (.atom p (target enum)) [.var p (lit "Enum")])
  let last := line + t.size + 1
  (functionOf (s.encode line) (s.encode last) name 2 clauses, last)

def dedicated (s : PositionStyle) (t : Table) (line : Int) (name : Text → Text)
    (entryClause : Position → Entry → Clause) : List FunctionDef × Int :=
  let functions := (numbered line t).map fun (l, enum, entries) =>
    let p := s.encode l
    functionOf p p (name enum) 1 (entries.map (entryClause p))
  (functions, line + t.size + 1)

def listOf (p : Position) (es : List Expr) : Expr := es.foldr (.cons p) (.nil p)

def listing (s : PositionStyle) (t : Table) (line : Int) (name : Text)
    (item : Position → Entry → Expr) : FunctionDef × Int :=
  let p := s.encode line
  let clauses := t.enums.map fun (enum, entries) =>
    clause p [.atom p enum] (listOf p (entries.map (item p)))
  (functionOf p p name 1 clauses, line + 1)

def nameToCode (p : Position) (e : Entry) : Clause := clause p [.atom p e.name] (.integer p e.code)

def codeToName (p : Position) (e : Entry) : Clause := clause p [.integer p e.code] (.atom p e.name)

/-- All functions for a table, and the first line after them. -/
def synthesize (s : PositionStyle) (t : Table) (seed : Int) : List FunctionDef × Int :=
  let (f, line) := dispatcher s t seed toInt toIntOf
  let (fs, line) := dedicated s t line toIntOf nameToCode
  let (g, line) := dispatcher s t line toAtom toAtomOf
  let (gs, line) := dedicated s t line toAtomOf codeToName
  let (k, line) := listing s t line keys fun p e => .atom p e.name
  let (v, line) := listing s t line values fun p e => .integer p e.code
  (f :: fs ++ g :: gs ++ [k, v], line)

end EnumForms.Accessors
