import EnumForms.Form.Source
import EnumForms.Proofs.Positions
import EnumForms.Proofs.Units

/-!
Forms without their positions. The source of a form has no position in it, and the functions made
for a table differ in nothing but their positions, whatever line and style they are made for.
-/
namespace EnumForms

/-! ## Forms without positions -/

def Position.erased : Position := .line 0

namespace Expr

mutual

def erase : Expr → Expr
  | .atom _ name => .atom .erased name
  | .integer _ i => .integer .erased i
  | .var _ name => .var .erased name
  | .nil _ => .nil .erased
  | .cons _ head tail => .cons .erased head.erase tail.erase
  | .call _ function args => .call .erased function.erase (eraseAll args)

def eraseAll : List Expr → List Expr
  | [] => []
  | e :: es => e.erase :: eraseAll es

end

theorem eraseAll_eq_map (es : List Expr) : eraseAll es = es.map erase := by
  induction es with
  | nil => rfl
  | cons e es ih => rw [eraseAll, ih, List.map_cons]

end Expr

namespace Clause

def erase (c : Clause) : Clause :=
  ⟨.erased, c.patterns.map Expr.erase, c.guards.map (·.map Expr.erase), c.body.map Expr.erase⟩

end Clause

namespace FunctionDef

def erase (f : FunctionDef) : FunctionDef :=
  { f with pos := .erased, clauses := f.clauses.map Clause.erase }

end FunctionDef

namespace Form

/-- The form with one and the same position everywhere. The value of an attribute and a raw term are
kept, whatever is in them. -/
def erase : Form → Form
  | .attribute _ name value => .attribute .erased name value
  | .function f => .function f.erase
  | .eof _ => .eof .erased
  | .raw t => .raw t

theorem filterMap_function?_erase (fs : List Form) :
    (fs.map erase).filterMap function? = (fs.filterMap function?).map FunctionDef.erase := by
  rw [List.filterMap_map, List.map_filterMap]
  congr 1
  funext f
  cases f <;> rfl

end Form

/-! ## Source -/

namespace Expr

mutual

theorem sourceForms_erase (e : Expr) : e.erase.sourceForms = e.sourceForms := by
  cases e with
  | atom | integer | var | nil => rfl
  | cons p head tail =>
    simp only [erase, sourceForms, sourceForms_erase head, sourceForms_erase tail]
  | call p function args =>
    simp only [erase, sourceForms, sourceForms_erase function, argumentSources_erase args]

theorem argumentSources_erase (es : List Expr) :
    sourceForms.argumentSources (eraseAll es) = sourceForms.argumentSources es := by
  cases es with
  | nil => rfl
  | cons e es =>
    simp only [eraseAll, sourceForms.argumentSources, sourceForms_erase e, argumentSources_erase es]

end

theorem source_erase (e : Expr) : e.erase.source = e.source :=
  congrArg Prod.fst (sourceForms_erase e)

theorem sources_erase (es : List Expr) : sources (es.map erase) = sources es := by
  simp only [sources, List.map_map, Function.comp_def, source_erase]

mutual

theorem hasOverlong_erase (e : Expr) : e.erase.hasOverlong = e.hasOverlong := by
  cases e with
  | atom | integer | var | nil => rfl
  | cons p head tail =>
    rw [erase, hasOverlong, hasOverlong, hasOverlong_erase head, hasOverlong_erase tail]
  | call p function args =>
    rw [erase, hasOverlong, hasOverlong, hasOverlong_erase function, anyOverlong_eraseAll args]

theorem anyOverlong_eraseAll (es : List Expr) : anyOverlong (eraseAll es) = anyOverlong es := by
  cases es with
  | nil => rfl
  | cons e es =>
    rw [eraseAll, anyOverlong, anyOverlong, hasOverlong_erase e, anyOverlong_eraseAll es]

end

theorem anyOverlong_map_erase (es : List Expr) : anyOverlong (es.map erase) = anyOverlong es := by
  rw [← eraseAll_eq_map, anyOverlong_eraseAll]

end Expr

theorem Clause.hasOverlong_erase (c : Clause) : c.erase.hasOverlong = c.hasOverlong := by
  simp only [hasOverlong, erase, Expr.anyOverlong_map_erase, List.any_map, Function.comp_def]

theorem Clause.source_erase (name : Text) (c : Clause) : c.erase.source name = c.source name := by
  have hguards : guardSource c.erase.guards = guardSource c.guards := by
    simp only [guardSource, erase, List.map_eq_nil_iff, List.map_map, Function.comp_def,
      Expr.sources_erase]
  rw [source, source, hguards]
  simp only [erase, Expr.sources_erase]

theorem FunctionDef.source_erase (f : FunctionDef) : f.erase.source = f.source := by
  simp only [source, erase, List.map_eq_nil_iff, List.map_map, Function.comp_def,
    Clause.source_erase]

theorem Form.source_erase (f : Form) : f.erase.source = f.source := by
  cases f with
  | function f =>
    have ho : f.erase.clauses.any Clause.hasOverlong = f.clauses.any Clause.hasOverlong := by
      simp only [FunctionDef.erase, List.any_map, Function.comp_def, Clause.hasOverlong_erase]
    simp only [erase, source, ho, FunctionDef.source_erase]
  | _ => rfl

theorem Form.sourceText_erase (fs : List Form) : sourceText (fs.map erase) = sourceText fs := by
  simp only [sourceText, List.mapM_map, Function.comp_def, source_erase]

/-! ## Functions made for a table -/

namespace Accessors

theorem erase_functionOf (p last q last' : Position) (name : Text) (arity : Nat)
    {cs ds : List Clause} (h : cs.map Clause.erase = ds.map Clause.erase) :
    (functionOf p last name arity cs).erase = (functionOf q last' name arity ds).erase := by
  simp [functionOf, FunctionDef.erase, lastClause, clause, Clause.erase, Expr.erase, Expr.eraseAll,
    h]

theorem erase_listOf (p : Position) (es : List Expr) :
    (listOf p es).erase = listOf .erased (es.map Expr.erase) := by
  induction es with
  | nil => rfl
  | cons e es ih =>
    have hl : listOf p (e :: es) = .cons p e (listOf p es) := rfl
    rw [hl, Expr.erase, ih]
    rfl

variable (s s' : PositionStyle) (t : Table) (line line' : Int)

theorem erase_dispatcher (name : Text) (target : Text → Text) :
    (dispatcher s t line name target).1.erase = (dispatcher s' t line' name target).1.erase := by
  refine erase_functionOf _ _ _ _ _ _ ?_
  rw [numbered, numbered, List.map_map, List.map_map, List.map_map, List.map_map]
  exact List.map_congr_left fun x _ => rfl

theorem erase_dedicated (name : Text → Text) {entryClause : Position → Entry → Clause}
    (h : ∀ p q e, (entryClause p e).erase = (entryClause q e).erase) :
    (dedicated s t line name entryClause).1.map FunctionDef.erase =
      (dedicated s' t line' name entryClause).1.map FunctionDef.erase := by
  simp only [dedicated, numbered, List.map_map]
  refine List.map_congr_left fun x _ => erase_functionOf _ _ _ _ _ _ ?_
  rw [List.map_map, List.map_map]
  exact List.map_congr_left fun e _ => h _ _ e

theorem erase_listing (name : Text) {item : Position → Entry → Expr}
    (h : ∀ p q e, (item p e).erase = (item q e).erase) :
    (listing s t line name item).1.erase = (listing s' t line' name item).1.erase := by
  refine erase_functionOf _ _ _ _ _ _ ?_
  rw [List.map_map, List.map_map]
  refine List.map_congr_left fun x _ => ?_
  have hitems : (x.2.map (item (s.encode line))).map Expr.erase =
      (x.2.map (item (s'.encode line'))).map Expr.erase := by
    rw [List.map_map, List.map_map]
    exact List.map_congr_left fun e _ => h _ _ e
  simp only [Function.comp_apply, clause, Clause.erase, List.map_cons, List.map_nil, Expr.erase,
    erase_listOf, hitems]

/-- The line from which functions are numbered and their style are in positions only. -/
theorem erase_synthesize : (synthesize s t line).1.map FunctionDef.erase =
    (synthesize s' t line').1.map FunctionDef.erase := by
  simp only [synthesize, List.map_append, List.map_cons, List.map_nil]
  rw [erase_dispatcher s s' t line line', erase_dedicated s s' t _ _ toIntOf fun p q e => rfl,
    erase_dispatcher s s' t _ _ toAtom, erase_dedicated s s' t _ _ toAtomOf fun p q e => rfl,
    erase_listing s s' t _ _ keys fun p q e => rfl,
    erase_listing s s' t _ _ values fun p q e => rfl]

end Accessors

end EnumForms
