import EnumForms.Attempt
import EnumForms.Form.Source
import EnumForms.Proofs.Access
import EnumForms.Proofs.Encodable

/-!
The source code of the generated functions can be shown if and only if no name of the table has a
surrogate and no code too many digits: every function is built from the names and codes of the table,
and the two that list the enums hold all of them.
-/
namespace EnumForms

open Text (encodable_lit)

/-! ## Expressions -/

namespace Expr

inductive Showable : Expr → Prop where
  | atom (p : Position) {name : Text} : name.Encodable → Showable (.atom p name)
  | integer (p : Position) {i : Int} : Decimal.isOverlong i = false → Showable (.integer p i)
  | var (p : Position) {name : Text} : name.Encodable → Showable (.var p name)
  | nil (p : Position) : Showable (.nil p)
  | cons (p : Position) {head tail : Expr} :
    Showable head → Showable tail → Showable (.cons p head tail)
  | call (p : Position) {function : Expr} {args : List Expr} :
    Showable function → (∀ e ∈ args, Showable e) → Showable (.call p function args)

theorem showable_atom_iff {p : Position} {name : Text} :
    (Expr.atom p name).Showable ↔ name.Encodable :=
  ⟨fun h => by cases h; assumption, .atom p⟩

theorem showable_integer_iff {p : Position} {i : Int} :
    (Expr.integer p i).Showable ↔ Decimal.isOverlong i = false :=
  ⟨fun h => by cases h; assumption, .integer p⟩

theorem showable_cons_iff {p : Position} {head tail : Expr} :
    (Expr.cons p head tail).Showable ↔ head.Showable ∧ tail.Showable :=
  ⟨fun h => by cases h; exact ⟨‹_›, ‹_›⟩, fun h => .cons p h.1 h.2⟩

theorem showable_call_iff {p : Position} {function : Expr} {args : List Expr} :
    (Expr.call p function args).Showable ↔ function.Showable ∧ ∀ e ∈ args, e.Showable :=
  ⟨fun h => by cases h; exact ⟨‹_›, ‹_›⟩, fun h => .call p h.1 h.2⟩

theorem encodable_rest (e : Expr) : e.sourceForms.2.Encodable ↔ e.source.Encodable := by
  cases e <;> simp [source, sourceForms]

mutual

theorem showable_iff (e : Expr) : e.Showable ↔ e.hasOverlong = false ∧ e.source.Encodable := by
  cases e with
  | atom p name =>
    have hs : (Expr.atom p name).source = Atom.text name := rfl
    rw [showable_atom_iff, hs, Atom.encodable_text, hasOverlong]
    exact (and_iff_right rfl).symm
  | integer p i =>
    have hs : (Expr.integer p i).source = Decimal.ofInt i := rfl
    rw [showable_integer_iff, hs, hasOverlong, and_iff_left (Decimal.encodable_ofInt i)]
  | var p name => exact ⟨fun h => by cases h; exact ⟨rfl, ‹_›⟩, fun h => .var p h.2⟩
  | nil p => exact iff_of_true (.nil p) ⟨rfl, encodable_lit _⟩
  | cons p head tail =>
    have hs : (Expr.cons p head tail).source.Encodable ↔
        head.source.Encodable ∧ tail.source.Encodable := by
      rw [← encodable_rest tail]
      simp [source, sourceForms]
    rw [showable_cons_iff, showable_iff head, showable_iff tail, hs, hasOverlong,
      Bool.or_eq_false_iff, and_and_and_comm]
  | call p function args =>
    have hs : (Expr.call p function args).source.Encodable ↔
        function.source.Encodable ∧ ∀ t ∈ sourceForms.argumentSources args, t.Encodable := by
      simp [source, sourceForms, Text.encodable_join]
    rw [showable_call_iff, showable_iff function, forall_showable_iff args, hs, hasOverlong,
      Bool.or_eq_false_iff, and_and_and_comm]

theorem forall_showable_iff (es : List Expr) : (∀ e ∈ es, e.Showable) ↔
    anyOverlong es = false ∧ ∀ t ∈ sourceForms.argumentSources es, t.Encodable := by
  cases es with
  | nil => simp [anyOverlong, sourceForms.argumentSources]
  | cons e es =>
    rw [List.forall_mem_cons, showable_iff e, forall_showable_iff es, anyOverlong,
      sourceForms.argumentSources, List.forall_mem_cons, Bool.or_eq_false_iff, and_and_and_comm]
    rfl

end

theorem anyOverlong_eq_false_iff {es : List Expr} :
    anyOverlong es = false ↔ ∀ e ∈ es, e.hasOverlong = false := by
  induction es with
  | nil => simp [anyOverlong]
  | cons e es ih => simp [anyOverlong, ih]

theorem showable_sources_iff {es : List Expr} :
    anyOverlong es = false ∧ (sources es).Encodable ↔ ∀ e ∈ es, e.Showable := by
  simp only [showable_iff, forall_and, anyOverlong_eq_false_iff, sources,
    Text.encodable_join (encodable_lit _), List.forall_mem_map]

end Expr

/-! ## Functions -/

structure Clause.Showable (c : Clause) : Prop where
  patterns : ∀ e ∈ c.patterns, e.Showable
  guards : ∀ es ∈ c.guards, ∀ e ∈ es, e.Showable
  body : ∀ e ∈ c.body, e.Showable

theorem Clause.encodable_guardSource {guards : List (List Expr)} :
    (guardSource guards).Encodable ↔ ∀ es ∈ guards, (Expr.sources es).Encodable := by
  unfold guardSource
  split
  · next h => simp [h]
  · simp [Text.encodable_join]

theorem Clause.showable_iff {c : Clause} {name : Text} :
    c.hasOverlong = false ∧ (c.source name).Encodable ↔ name.Encodable ∧ c.Showable := by
  have hguards : c.guards.any Expr.anyOverlong = false ∧ (guardSource c.guards).Encodable ↔
      ∀ es ∈ c.guards, ∀ e ∈ es, e.Showable := by
    simp only [← Expr.showable_sources_iff, forall_and, encodable_guardSource, List.any_eq_false,
      Bool.not_eq_true]
  have hc : c.Showable ↔ (∀ e ∈ c.patterns, e.Showable) ∧
      (∀ es ∈ c.guards, ∀ e ∈ es, e.Showable) ∧ ∀ e ∈ c.body, e.Showable :=
    ⟨fun h => ⟨h.patterns, h.guards, h.body⟩, fun h => ⟨h.1, h.2.1, h.2.2⟩⟩
  rw [hc, ← hguards, ← Expr.showable_sources_iff, ← Expr.showable_sources_iff]
  simp only [hasOverlong, source, Bool.or_eq_false_iff, Text.encodable_append, encodable_lit,
    Atom.encodable_text, and_true]
  tauto

def FunctionDef.Showable (f : FunctionDef) : Prop := ∀ c ∈ f.clauses, f.name.Encodable ∧ c.Showable

theorem FunctionDef.showable_iff {f : FunctionDef} :
    f.Showable ↔ f.clauses.any Clause.hasOverlong = false ∧ f.source.Encodable := by
  have hs : f.source.Encodable ↔ ∀ c ∈ f.clauses, (c.source f.name).Encodable := by
    unfold source
    split
    · next h => simp [h]
    · simp [Text.encodable_join]
  simp only [Showable, ← Clause.showable_iff, forall_and, hs, List.any_eq_false, Bool.not_eq_true]

theorem Form.exists_sourceText_iff {functions : List FunctionDef} :
    (∃ s, sourceText (functions.map .function) = .ok s ∧ s.Encodable) ↔
      ∀ f ∈ functions, f.Showable := by
  have hm : functions.mapM (source ∘ Form.function) =
      if functions.any (·.clauses.any Clause.hasOverlong) then .error .overlong
      else .ok (functions.map fun f => some f.source) :=
    Attempt.mapM_ite _ _ _ fun f _ => rfl
  have hend (chunks : List Text) : Text.Encodable (if chunks = [] then [] else lit "\n") := by
    split <;> simp
  simp only [FunctionDef.showable_iff, forall_and]
  rw [sourceText, List.mapM_map, hm]
  split
  · next h =>
    refine iff_of_false (fun ⟨s, hs, _⟩ => by cases hs) fun hf => ?_
    obtain ⟨f, hmem, ho⟩ := List.any_eq_true.1 h
    rw [hf.1 f hmem] at ho
    cases ho
  · next h =>
    have ho : ∀ f ∈ functions, f.clauses.any Clause.hasOverlong = false := by simpa using h
    have hchunks : (functions.map fun f => some f.source).filterMap id =
        functions.map FunctionDef.source := by simp [List.filterMap_map]
    rw [and_iff_right ho, Attempt.ok_bind, hchunks, ← List.forall_mem_map,
      ← Text.encodable_join (encodable_lit "\n\n")]
    constructor
    · rintro ⟨s, hs, h⟩
      cases hs
      exact (Text.encodable_append.1 h).1
    · exact fun h => ⟨_, rfl, Text.encodable_append.2 ⟨h, hend _⟩⟩

/-! ## The functions for a table -/

/-- No name of the table has a surrogate, and no code too many digits. -/
def Table.Showable (t : Table) : Prop :=
  ∀ x ∈ t.enums, x.1.Encodable ∧ ∀ e ∈ x.2, e.name.Encodable ∧ Decimal.isOverlong e.code = false

namespace Accessors

variable {p : Position} {cs : List Clause} {s : PositionStyle} {t : Table} {line : Int}

theorem showable_clause_iff {patterns : List Expr} {body : Expr} :
    (clause p patterns body).Showable ↔ (∀ e ∈ patterns, e.Showable) ∧ body.Showable := by
  constructor
  · exact fun h => ⟨h.patterns, List.forall_mem_singleton.1 h.body⟩
  · exact fun h => ⟨h.1, List.forall_mem_nil _, List.forall_mem_singleton.2 h.2⟩

theorem showable_lastClause (arity : Nat) : (lastClause p arity).Showable := by
  refine showable_clause_iff.2 ⟨fun e he => ?_, .call p (.atom p (encodable_lit _)) ?_⟩
  · rw [List.eq_of_mem_replicate he]
    exact .var p (encodable_lit _)
  · exact List.forall_mem_singleton.2 (.atom p (encodable_lit _))

theorem showable_functionOf_iff {last : Position} {name : Text} {arity : Nat} :
    (functionOf p last name arity cs).Showable ↔ name.Encodable ∧ ∀ c ∈ cs, c.Showable := by
  simp only [FunctionDef.Showable, functionOf, List.forall_mem_append, List.forall_mem_singleton,
    showable_lastClause, and_true]
  exact ⟨fun h => ⟨h.2, fun c hc => (h.1 c hc).2⟩, fun h => ⟨fun c hc => ⟨h.1, h.2 c hc⟩, h.1⟩⟩

theorem showable_listOf_iff {es : List Expr} : (listOf p es).Showable ↔ ∀ e ∈ es, e.Showable := by
  induction es with
  | nil => exact iff_of_true (.nil p) (List.forall_mem_nil _)
  | cons e es ih => rw [List.forall_mem_cons, ← ih, ← Expr.showable_cons_iff]; rfl

theorem showable_listing_iff {name : Text} {item : Position → Entry → Expr} (hn : name.Encodable) :
    (listing s t line name item).1.Showable ↔ ∀ x ∈ t.enums, x.1.Encodable ∧
      ∀ e ∈ x.2, (item (s.encode line) e).Showable := by
  rw [listing, showable_functionOf_iff, and_iff_right hn, List.forall_mem_map]
  refine forall₂_congr fun x _ => ?_
  rw [showable_clause_iff, List.forall_mem_singleton, Expr.showable_atom_iff, showable_listOf_iff,
    List.forall_mem_map]

theorem showable_dispatcher {name : Text} {target : Text → Text} (ht : t.Showable)
    (hn : name.Encodable) (hto : ∀ enum, enum.Encodable → (target enum).Encodable) :
    (dispatcher s t line name target).1.Showable := by
  refine showable_functionOf_iff.2 ⟨hn, List.forall_mem_map.2 fun x hx => ?_⟩
  obtain ⟨henum, -⟩ := ht x.2 (numbered_map line t ▸ List.mem_map_of_mem hx)
  refine showable_clause_iff.2 ⟨?_, .call _ (.atom _ (hto _ henum)) ?_⟩
  · exact List.forall_mem_cons.2 ⟨.atom _ henum, List.forall_mem_singleton.2 (.var _ (encodable_lit _))⟩
  · exact List.forall_mem_singleton.2 (.var _ (encodable_lit _))

theorem showable_dedicated {name : Text → Text} {entryClause : Position → Entry → Clause}
    (ht : t.Showable) (hn : ∀ enum, enum.Encodable → (name enum).Encodable)
    (hc : ∀ p e, e.name.Encodable → Decimal.isOverlong e.code = false → (entryClause p e).Showable) :
    ∀ f ∈ (dedicated s t line name entryClause).1, f.Showable := by
  refine List.forall_mem_map.2 fun x hx => ?_
  obtain ⟨henum, hes⟩ := ht x.2 (numbered_map line t ▸ List.mem_map_of_mem hx)
  refine showable_functionOf_iff.2 ⟨hn _ henum, List.forall_mem_map.2 fun e he => ?_⟩
  exact hc _ e (hes e he).1 (hes e he).2

theorem showable_synthesize_iff {seed : Int} :
    (∀ f ∈ (synthesize s t seed).1, f.Showable) ↔ t.Showable := by
  simp only [synthesize, List.forall_mem_append, List.forall_mem_cons, List.cons_append]
  constructor
  · -- all names are listed by `keys/1` and all codes by `values/1`
    rintro ⟨-, -, hkeys, hvalues, -⟩ x hx
    obtain ⟨henum, hnames⟩ := (showable_listing_iff (encodable_lit _)).1 hkeys x hx
    obtain ⟨-, hcodes⟩ := (showable_listing_iff (encodable_lit _)).1 hvalues x hx
    exact ⟨henum, fun e he =>
      ⟨Expr.showable_atom_iff.1 (hnames e he), Expr.showable_integer_iff.1 (hcodes e he)⟩⟩
  · intro ht
    have hpart (word : String) (enum : Text) (h : enum.Encodable) : (enum ++ lit word).Encodable :=
      Text.encodable_append.2 ⟨h, encodable_lit _⟩
    have hcode (p : Position) (e : Entry) (hn : e.name.Encodable)
        (hc : Decimal.isOverlong e.code = false) : (nameToCode p e).Showable :=
      showable_clause_iff.2 ⟨List.forall_mem_singleton.2 (.atom p hn), .integer p hc⟩
    have hname (p : Position) (e : Entry) (hn : e.name.Encodable)
        (hc : Decimal.isOverlong e.code = false) : (codeToName p e).Showable :=
      showable_clause_iff.2 ⟨List.forall_mem_singleton.2 (.integer p hc), .atom p hn⟩
    refine ⟨showable_dispatcher ht (encodable_lit _) (hpart _),
      ⟨showable_dedicated ht (hpart _) hcode, showable_dispatcher ht (encodable_lit _) (hpart _),
        showable_dedicated ht (hpart _) hname⟩, ?_, ?_, List.forall_mem_nil _⟩
    · exact (showable_listing_iff (encodable_lit _)).2 fun x hx =>
        ⟨(ht x hx).1, fun e he => .atom _ ((ht x hx).2 e he).1⟩
    · exact (showable_listing_iff (encodable_lit _)).2 fun x hx =>
        ⟨(ht x hx).1, fun e he => .integer _ ((ht x hx).2 e he).2⟩

end Accessors

end EnumForms
