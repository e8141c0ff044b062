import EnumForms.Accessors

/-!
Running the functions of a unit: the clauses of a function are tried in order and the first that
matches is evaluated. Calls go to functions of the same module, and `throw/1` ends everything unless
the module defines it. Variables named `_` match anything and are never bound.

Calls are followed to a given depth only, so that running always ends.
-/
namespace EnumForms

/-- Functions by name and number of arguments, in the order in which they were first defined. A
later definition takes the place of an earlier one. -/
structure Module where
  functions : List ((Text × Int) × FunctionDef)

inductive CallError where
  | badEnum
  | thrown (value : Term)
  | noClause (name : Text) (args : List Term)
  | undefinedFunction (name : Term) (arity : Nat)
  | guarded
  | unsupportedPattern (pattern : Expr)
  | unbound (name : Text)
  | improperList
  | badFunctionName (value : Term)
  | listAsName
  | wrongArgumentCount
  /-- The words of an error would show an integer with too many digits. -/
  | overlong
  | tooDeep

namespace CallError

def ofPattern (p : Expr) : CallError :=
  if p.toTerm.hasOverlong then .overlong else .unsupportedPattern p

def ofName (v : Term) : CallError := if v.hasOverlong then .overlong else .badFunctionName v

end CallError

abbrev Bindings := List (Text × Term)

namespace Expr

/-- The bindings under which a pattern is the value, beyond the given ones, if there are any. An
integer in a pattern matches integers only; a variable bound already has to be equal. -/
def matches? : Expr → Term → Bindings → Except CallError (Option Bindings)
  | .atom _ name, v, b => .ok (if v.equal (.atom name) then some b else none)
  | .integer _ i, v, b => .ok (if v.int? = some i then some b else none)
  | .var _ name, v, b =>
    if name = lit "_" then .ok (some b)
    else match b.lookup name with
      | some w => .ok (if w.equal v then some b else none)
      | none => .ok (some ((name, v) :: b))
  | .nil _, v, b => .ok (if v.equal (.list []) then some b else none)
  | .cons _ head tail, .list (x :: xs), b => do
    match ← head.matches? x b with
    | some b => tail.matches? (.list xs) b
    | none => .ok none
  | .cons .., _, _ => .ok none
  | .call p function args, _, _ => .error (.ofPattern (.call p function args))

def matchAll? : List Expr → List Term → Bindings → Except CallError (Option Bindings)
  | p :: ps, v :: vs, b => do
    match ← p.matches? v b with
    | some b => matchAll? ps vs b
    | none => .ok none
  | _, _, b => .ok (some b)

mutual

/-- The value of an expression, with `call` to make calls. The tail of a list comes before its head,
what is called before its arguments. -/
def eval (call : Text → List Term → Except CallError Term) (b : Bindings) :
    Expr → Except CallError Term
  | .atom _ name => .ok (.atom name)
  | .integer _ i => .ok (.int i)
  | .var _ name => match b.lookup name with
    | some v => .ok v
    | none => .error (.unbound name)
  | .nil _ => .ok (.list [])
  | .cons _ head tail => do
    match ← eval call b tail with
    | .list vs =>
      let v ← eval call b head
      .ok (.list (v :: vs))
    | _ => .error .improperList
  | .call _ function args => do
    match ← eval call b function with
    | .atom name =>
      let vs ← evalAll call b args
      call name vs
    | v => .error (.ofName v)

def evalAll (call : Text → List Term → Except CallError Term) (b : Bindings) :
    List Expr → Except CallError (List Term)
  | [] => .ok []
  | e :: es => do
    let v ← eval call b e
    let vs ← evalAll call b es
    .ok (v :: vs)

end

def evalBody (call : Text → List Term → Except CallError Term) (b : Bindings) (body : List Expr) :
    Except CallError Term := do
  let vs ← evalAll call b body
  .ok (vs.getLast?.getD .nothing)

end Expr

namespace Clause

/-- The bindings of a clause for some arguments. A clause for another number of arguments does not
match, and one for this number must have no guards. -/
def matches? (c : Clause) (args : List Term) : Except CallError (Option Bindings) :=
  if c.patterns.length ≠ args.length then .ok none
  else if c.guards ≠ [] then .error .guarded
  else Expr.matchAll? c.patterns args []

def select (args : List Term) : List Clause → Except CallError (Option (Clause × Bindings))
  | [] => .ok none
  | c :: cs => do
    match ← c.matches? args with
    | some b => .ok (some (c, b))
    | none => select args cs

end Clause

mutual

def Term.holdsList : Term → Bool
  | .list _ => true
  | .tuple ts => Term.anyHoldsList ts
  | _ => false

def Term.anyHoldsList : List Term → Bool
  | [] => false
  | t :: ts => t.holdsList || Term.anyHoldsList ts

end

namespace Module

def define (f : FunctionDef) :
    List ((Text × Int) × FunctionDef) → List ((Text × Int) × FunctionDef)
  | [] => [((f.name, f.arity), f)]
  | (k, g) :: rest =>
    if k = (f.name, f.arity) then (k, f) :: rest else (k, g) :: define f rest

def ofFunctions (fs : List FunctionDef) : Module := ⟨fs.foldl (fun m f => define f m) []⟩

def ofForms (fs : List Form) : Module :=
  ofFunctions (fs.filterMap fun | .function f => some f | _ => none)

def find? (m : Module) (name : Text) (arity : Nat) : Option FunctionDef :=
  m.functions.lookup (name, (arity : Int))

def callUndefined (name : Term) (args : List Term) : CallError :=
  match name, args with
  | .atom n, [v] =>
    if n = Accessors.throw then
      if v.equal (.atom Accessors.badEnum) then .badEnum else .thrown v
    else .undefinedFunction name 1
  | _, _ => .undefinedFunction name args.length

def callWithin (m : Module) : Nat → Text → List Term → Except CallError Term
  | 0, _, _ => .error .tooDeep
  | depth + 1, name, args =>
    match m.find? name args.length with
    | none => .error (callUndefined (.atom name) args)
    | some f => do
      match ← Clause.select args f.clauses with
      | some (c, b) => Expr.evalBody (m.callWithin depth) b c.body
      | none => .error (.noClause f.name args)

/-- The depth to which calls are followed. Only calls inside calls count: how deep the stack gets in
the evaluation of one body, and in reading and printing a term, is not modelled. -/
def depthLimit : Nat := 1000

/-- Calls a function by any term: only an atom can name one. A string counts as an atom. -/
def call (m : Module) (name : Term) (args : List Term) : Except CallError Term :=
  match name with
  | .atom n | .str n => m.callWithin depthLimit n args
  | t => if t.holdsList then .error .listAsName else .error (callUndefined t args)

end Module

/-! ## The accessors -/

inductive Accessor where
  | toInt | toAtom | keys | values
  deriving DecidableEq

def Term.asAtom : Term → Term
  | .str s => .atom s
  | t => t

namespace Module

def access (m : Module) : Accessor → List Term → Except CallError Term
  | .toInt, [enum, key] => m.call (.atom Accessors.toInt) [enum.asAtom, key.asAtom]
  | .toAtom, [enum, code] => m.call (.atom Accessors.toAtom) [enum.asAtom, code]
  | .keys, [enum] => m.call (.atom Accessors.keys) [enum.asAtom]
  | .values, [enum] => m.call (.atom Accessors.values) [enum.asAtom]
  | _, _ => .error .wrongArgumentCount

end Module

namespace CallError

def shown : CallError → List Term
  | .thrown v => [v]
  | .noClause _ args => args
  | .undefinedFunction name _ => [name]
  | _ => []

def message : CallError → Text
  | .badEnum => lit "throw(" ++ Term.inspectAtom Accessors.badEnum ++ lit ")"
  | .thrown v => lit "throw(" ++ v.inspect ++ lit ")"
  | .noClause name args =>
    lit "nenhuma clausula de " ++ name ++ lit "/" ++ Decimal.ofNat args.length ++ lit " casa com " ++
      Text.inspectTuple (Term.inspectAll args)
  | .undefinedFunction name arity =>
    lit "funcao indefinida " ++ name.display ++ lit "/" ++ Decimal.ofNat arity
  | .guarded => lit "Guardas nao sao suportadas pelo interpretador"
  | .unsupportedPattern p => lit "Padrao nao suportado: " ++ p.inspect
  | .unbound name => lit "Variavel nao ligada: " ++ name
  | .improperList => lit "Listas improprias nao sao suportadas"
  | .badFunctionName v => lit "Nome de funcao invalido: " ++ v.inspect
  | .listAsName | .wrongArgumentCount | .overlong | .tooDeep => []

def message? (e : CallError) : Option Text :=
  if Term.anyOverlong e.shown then none else some e.message

end CallError

end EnumForms
