import EnumForms.Proofs.RoundTrip

/-!
What the new unit has from the old one. A transformation adds no float, and the names of the atoms
it adds are fixed words or names of the unit with a fixed ending. So the code points in the names of
the new unit are of a kind, if those of the old one and the letters of the fixed words are.
-/
namespace EnumForms

open Term Transformation

variable {P : CodePoint → Prop}

/-! ## Terms -/

namespace Term

/-- No float in the term is infinite, and every code point in the name of an atom has the property. -/
inductive Steady (P : CodePoint → Prop) : Term → Prop where
  | atom {name : Text} : (∀ c ∈ name, P c) → Steady P (.atom name)
  | int (i : Int) : Steady P (.int i)
  | float {x : Binary64} : (∀ negative, x ≠ .infinite negative) → Steady P (.float x)
  | str (s : Text) : Steady P (.str s)
  | tuple {ts : List Term} : (∀ t ∈ ts, Steady P t) → Steady P (.tuple ts)
  | list {ts : List Term} : (∀ t ∈ ts, Steady P t) → Steady P (.list ts)

variable {t : Term} {ts : List Term} {name : Text}

theorem steady_atom_iff : (Term.atom name).Steady P ↔ ∀ c ∈ name, P c :=
  ⟨fun h => by cases h; assumption, .atom⟩

theorem steady_float_iff {x : Binary64} :
    (Term.float x).Steady P ↔ (Term.float x).hasInfinite = false := by
  constructor
  · intro h
    cases h with
    | float hx =>
      cases x with
      | infinite negative => exact absurd rfl (hx negative)
      | _ => rfl
  · rintro h
    refine .float ?_
    rintro negative rfl
    cases h

@[simp]
theorem steady_tuple_iff : (Term.tuple ts).Steady P ↔ ∀ t ∈ ts, t.Steady P :=
  ⟨fun h => by cases h; assumption, .tuple⟩

theorem steady_list_iff : (Term.list ts).Steady P ↔ ∀ t ∈ ts, t.Steady P :=
  ⟨fun h => by cases h; assumption, .list⟩

theorem Readable.steady_true_iff (h : t.Readable) :
    t.Steady (fun _ => True) ↔ t.hasInfinite = false := by
  induction h with
  | atom name => exact iff_of_true (.atom fun _ _ => trivial) rfl
  | int i => exact iff_of_true (.int i) rfl
  | float _ => exact steady_float_iff
  | str s => exact iff_of_true (.str s) rfl
  | tuple _ ih =>
    rw [steady_tuple_iff, hasInfinite, anyInfinite_eq_false_iff]
    exact forall₂_congr ih
  | list _ ih =>
    rw [steady_list_iff, hasInfinite, anyInfinite_eq_false_iff]
    exact forall₂_congr ih

end Term

/-! ## Functions -/

def Table.Named (P : CodePoint → Prop) (t : Table) : Prop :=
  ∀ x ∈ t.enums, (∀ c ∈ x.1, P c) ∧ ∀ e ∈ x.2, ∀ c ∈ e.name, P c

theorem Table.Named.of_mem_numbered {t : Table} {line : Int} (ht : t.Named P)
    {x : Int × Text × List Entry} (hx : x ∈ Accessors.numbered line t) :
    (∀ c ∈ x.2.1, P c) ∧ ∀ e ∈ x.2.2, ∀ c ∈ e.name, P c :=
  ht x.2 (Accessors.numbered_map line t ▸ List.mem_map_of_mem hx)

theorem Position.steady_toTerm (p : Position) : p.toTerm.Steady P := by
  cases p with
  | line l => exact .int l
  | lineColumn l c => simp [toTerm, Steady.int]

theorem Expr.steady_toTerms {es : List Expr} (h : ∀ e ∈ es, e.toTerm.Steady P) :
    (Term.list (toTerms es)).Steady P := by
  refine .list ?_
  induction es with
  | nil => simp [toTerms]
  | cons e es ih =>
    rw [List.forall_mem_cons] at h
    exact List.forall_mem_cons.2 ⟨h.1, ih h.2⟩

section

variable (hP : ∀ c, Atom.isNamePart c = true → P c)

include hP

theorem forall_mem_word {word : Text} (h : word.all Atom.isNamePart = true) : ∀ c ∈ word, P c :=
  fun c hc => hP c (List.all_eq_true.1 h c hc)

theorem Term.steady_word (word : Text) (h : word.all Atom.isNamePart = true) :
    (Term.atom word).Steady P :=
  .atom (forall_mem_word hP h)

namespace Expr

variable (p : Position) {e f : Expr} {es : List Expr} {name : Text}

theorem steady_atom (h : ∀ c ∈ name, P c) : (Expr.atom p name).toTerm.Steady P := by
  have htag := steady_word hP (lit "atom") (by decide)
  simp [toTerm, p.steady_toTerm, htag, Steady.atom h]

theorem steady_var (h : ∀ c ∈ name, P c) : (Expr.var p name).toTerm.Steady P := by
  have htag := steady_word hP (lit "var") (by decide)
  simp [toTerm, p.steady_toTerm, htag, Steady.atom h]

theorem steady_integer (i : Int) : (Expr.integer p i).toTerm.Steady P := by
  have htag := steady_word hP (lit "integer") (by decide)
  simp [toTerm, p.steady_toTerm, htag, Steady.int]

theorem steady_call (hf : f.toTerm.Steady P) (h : ∀ e ∈ es, e.toTerm.Steady P) :
    (Expr.call p f es).toTerm.Steady P := by
  have htag := steady_word hP (lit "call") (by decide)
  simp [toTerm, p.steady_toTerm, htag, hf, steady_toTerms h]

theorem steady_listOf (h : ∀ e ∈ es, e.toTerm.Steady P) :
    (Accessors.listOf p es).toTerm.Steady P := by
  have hn := steady_word hP (lit "nil") (by decide)
  have hc := steady_word hP (lit "cons") (by decide)
  induction es with
  | nil => simp [Accessors.listOf, toTerm, p.steady_toTerm, hn]
  | cons e es ih =>
    rw [List.forall_mem_cons] at h
    have ht := ih h.2
    rw [Accessors.listOf] at ht
    simp [Accessors.listOf, toTerm, p.steady_toTerm, hc, h.1, ht]

end Expr

namespace Accessors

variable {p : Position} {cs : List Clause} {s : PositionStyle} {t : Table} {line : Int}

theorem steady_clause {patterns : List Expr} {body : Expr}
    (hp : ∀ e ∈ patterns, e.toTerm.Steady P) (hb : body.toTerm.Steady P) :
    (clause p patterns body).toTerm.Steady P := by
  have htag := steady_word hP (lit "clause") (by decide)
  have hbody := Expr.steady_toTerms (List.forall_mem_singleton.2 hb)
  have hnone : (Term.list []).Steady P := .list (List.forall_mem_nil _)
  simp [clause, Clause.toTerm, p.steady_toTerm, htag, Expr.steady_toTerms hp, hbody, hnone]

theorem steady_lastClause (arity : Nat) : (lastClause p arity).toTerm.Steady P := by
  refine steady_clause hP (fun e he => ?_) (Expr.steady_call hP p ?_ ?_)
  · rw [List.eq_of_mem_replicate he]
    exact Expr.steady_var hP p (forall_mem_word hP (by decide))
  · exact Expr.steady_atom hP p (forall_mem_word hP (by decide))
  · rw [List.forall_mem_singleton]
    exact Expr.steady_atom hP p (forall_mem_word hP (by decide))

theorem steady_functionOf {last : Position} {name : Text} {arity : Nat} (hn : ∀ c ∈ name, P c)
    (hc : ∀ c ∈ cs, c.toTerm.Steady P) : (functionOf p last name arity cs).toTerm.Steady P := by
  have htag := steady_word hP (lit "function") (by decide)
  have hcs : (Term.list ((cs ++ [lastClause last arity]).map Clause.toTerm)).Steady P := by
    refine .list (List.forall_mem_map.2 (List.forall_mem_append.2 ⟨hc, ?_⟩))
    exact List.forall_mem_singleton.2 (steady_lastClause hP arity)
  simp only [functionOf, FunctionDef.toTerm, steady_tuple_iff, List.forall_mem_cons]
  exact ⟨htag, p.steady_toTerm, .atom hn, .int _, hcs, List.forall_mem_nil _⟩

theorem steady_dispatcher {name : Text} {target : Text → Text} (ht : t.Named P)
    (hn : ∀ c ∈ name, P c) (hto : ∀ enum, (∀ c ∈ enum, P c) → ∀ c ∈ target enum, P c) :
    (dispatcher s t line name target).1.toTerm.Steady P := by
  have hvar (p : Position) : (Expr.var p (lit "Enum")).toTerm.Steady P :=
    Expr.steady_var hP p (forall_mem_word hP (by decide))
  refine steady_functionOf hP hn (List.forall_mem_map.2 fun x hx => ?_)
  obtain ⟨henum, -⟩ := ht.of_mem_numbered hx
  refine steady_clause hP ?_ (Expr.steady_call hP _ (Expr.steady_atom hP _ (hto _ henum)) ?_)
  · exact List.forall_mem_cons.2 ⟨Expr.steady_atom hP _ henum, List.forall_mem_singleton.2 (hvar _)⟩
  · exact List.forall_mem_singleton.2 (hvar _)

theorem steady_dedicated {name : Text → Text} {entryClause : Position → Entry → Clause}
    (ht : t.Named P) (hn : ∀ enum, (∀ c ∈ enum, P c) → ∀ c ∈ name enum, P c)
    (hc : ∀ p e, (∀ c ∈ e.name, P c) → (entryClause p e).toTerm.Steady P) {f : FunctionDef}
    (hf : f ∈ (dedicated s t line name entryClause).1) : f.toTerm.Steady P := by
  obtain ⟨x, hx, rfl⟩ := List.mem_map.1 hf
  obtain ⟨henum, hes⟩ := ht.of_mem_numbered hx
  exact steady_functionOf hP (hn _ henum) (List.forall_mem_map.2 fun e he => hc _ e (hes e he))

theorem steady_listing {name : Text} {item : Position → Entry → Expr} (ht : t.Named P)
    (hn : ∀ c ∈ name, P c) (hi : ∀ p e, (∀ c ∈ e.name, P c) → (item p e).toTerm.Steady P) :
    (listing s t line name item).1.toTerm.Steady P := by
  refine steady_functionOf hP hn (List.forall_mem_map.2 fun x hx => ?_)
  obtain ⟨henum, hes⟩ := ht x hx
  refine steady_clause hP (List.forall_mem_singleton.2 (Expr.steady_atom hP _ henum)) ?_
  exact Expr.steady_listOf hP _ (List.forall_mem_map.2 fun e he => hi _ e (hes e he))

theorem steady_synthesize {seed : Int} {f : FunctionDef} (ht : t.Named P)
    (hf : f ∈ (synthesize s t seed).1) : f.toTerm.Steady P := by
  have hpart {word : Text} (h : word.all Atom.isNamePart = true) (enum : Text)
      (he : ∀ c ∈ enum, P c) : ∀ c ∈ enum ++ word, P c :=
    List.forall_mem_append.2 ⟨he, forall_mem_word hP h⟩
  have hcode (p : Position) (e : Entry) (he : ∀ c ∈ e.name, P c) :
      (nameToCode p e).toTerm.Steady P :=
    steady_clause hP (List.forall_mem_singleton.2 (Expr.steady_atom hP p he))
      (Expr.steady_integer hP p _)
  have hname (p : Position) (e : Entry) (he : ∀ c ∈ e.name, P c) :
      (codeToName p e).toTerm.Steady P :=
    steady_clause hP (List.forall_mem_singleton.2 (Expr.steady_integer hP p _))
      (Expr.steady_atom hP p he)
  simp only [synthesize, List.mem_append, List.mem_cons, List.not_mem_nil, or_false] at hf
  rcases hf with ((rfl | hf) | rfl | hf) | rfl | rfl
  · exact steady_dispatcher hP ht (forall_mem_word hP (by decide)) (hpart (by decide))
  · exact steady_dedicated hP ht (hpart (by decide)) hcode hf
  · exact steady_dispatcher hP ht (forall_mem_word hP (by decide)) (hpart (by decide))
  · exact steady_dedicated hP ht (hpart (by decide)) hname hf
  · exact steady_listing hP ht (forall_mem_word hP (by decide)) fun p e => Expr.steady_atom hP p
  · exact steady_listing hP ht (forall_mem_word hP (by decide)) fun p e _ =>
      Expr.steady_integer hP p _

end Accessors

end

/-! ## Declarations -/

namespace Entry

theorem forall_mem_name {next : Int} {t : Term} {e : Entry} (h : ofTerm? next t = some e)
    (ht : t.Steady P) : ∀ c ∈ e.name, P c := by
  unfold ofTerm? at h
  split at h
  · cases h
    exact steady_atom_iff.1 ht
  · split at h
    · cases h
      exact steady_atom_iff.1 (steady_tuple_iff.1 ht _ List.mem_cons_self)
    · cases h
  · cases h

theorem forall_mem_names {next : Int} {ts : List Term} {es : List Entry}
    (h : listFrom? next ts = some es) (ht : ∀ t ∈ ts, t.Steady P) :
    ∀ e ∈ es, ∀ c ∈ e.name, P c := by
  induction ts generalizing next es with
  | nil =>
    cases h
    exact List.forall_mem_nil _
  | cons t ts ih =>
    obtain ⟨e, he, h⟩ := Option.bind_eq_some_iff.1 h
    obtain ⟨rest, hr, h⟩ := Option.bind_eq_some_iff.1 h
    cases h
    rw [List.forall_mem_cons] at ht ⊢
    exact ⟨forall_mem_name he ht.1, ih hr ht.2⟩

theorem forall_mem_names_of_listOfTerm? {t : Term} {es : List Entry} (h : listOfTerm? t = some es)
    (ht : t.Steady P) : ∀ e ∈ es, ∀ c ∈ e.name, P c := by
  unfold listOfTerm? at h
  split at h
  · exact forall_mem_names h (steady_list_iff.1 ht)
  · cases h
    exact List.forall_mem_nil _
  · cases h

end Entry

theorem Table.mem_put {key : Text} {value : List Entry} {es : List (Text × List Entry)}
    {e : Text × List Entry} (h : e ∈ put key value es) : e = (key, value) ∨ e ∈ es := by
  induction es with
  | nil => exact .inl (List.mem_singleton.1 h)
  | cons x es ih =>
    obtain ⟨k, v⟩ := x
    rw [put] at h
    split at h
    · next hk =>
      rw [hk] at h
      exact (List.mem_cons.1 h).imp id (List.mem_cons_of_mem _)
    · rw [List.mem_cons] at h ⊢
      rw [or_left_comm]
      exact h.imp id ih

namespace Registry

variable {r r' : Registry} {d : Declaration} {ds : List Declaration}

theorem Adds.named (ha : Adds r d r') (hd : d.payload.Steady P) (h : r.table.Named P) :
    r'.table.Named P := by
  cases ha with
  | accepted hp hc he =>
    rw [hp, steady_tuple_iff, List.forall_mem_cons, List.forall_mem_singleton] at hd
    intro x hx
    obtain rfl | hx := Table.mem_put hx
    · exact ⟨steady_atom_iff.1 hd.1, Entry.forall_mem_names_of_listOfTerm? he hd.2⟩
    · exact h x hx
  | duplicate | invalid | malformed => exact h

theorem named_addAll (hd : ∀ d ∈ ds, d.payload.Steady P) (h : r.table.Named P) :
    (r.addAll ds).table.Named P := by
  induction ds generalizing r with
  | nil => exact h
  | cons d ds ih =>
    rw [List.forall_mem_cons] at hd
    exact ih hd.2 ((adds_add r d).named hd.1 h)

end Registry

/-! ## Units -/

theorem Form.steady_attribute {pos : Position} {name : Text} {value : Term}
    (h : (Form.attribute pos name value).toTerm.Steady P) : value.Steady P := by
  simp only [toTerm, steady_tuple_iff, List.forall_mem_cons] at h
  exact h.2.2.2.1

theorem Declaration.steady_find {fs : List Form} (h : ∀ f ∈ fs, f.toTerm.Steady P) :
    ∀ d ∈ find fs, d.payload.Steady P := by
  intro d hd
  obtain ⟨f, hf, hd⟩ := List.mem_filterMap.1 hd
  split at hd
  · split at hd
    · cases hd
      exact Form.steady_attribute (h _ hf)
    · cases hd
  · cases hd

theorem UnitParts.named_table {u : UnitParts} (h : ∀ f ∈ u.body, f.toTerm.Steady P) :
    u.table.Named P :=
  Registry.named_addAll (Declaration.steady_find h) (List.forall_mem_nil _)

section

variable (hP : ∀ c, Atom.isNamePart c = true → P c)

include hP

theorem Form.steady_eof (pos : Position) : (Form.eof pos).toTerm.Steady P := by
  have htag := steady_word hP (lit "eof") (by decide)
  simp [toTerm, pos.steady_toTerm, htag]

namespace Transformation

theorem steady_exportForm (pos : Position) : (exportForm pos).toTerm.Steady P := by
  have htag := steady_word hP (lit "attribute") (by decide)
  have hname := steady_word hP (lit "export") (by decide)
  have hwords : ∀ x ∈ Accessors.exports, x.1.all Atom.isNamePart = true := by decide
  simp only [exportForm, Form.toTerm, steady_tuple_iff, List.forall_mem_cons]
  refine ⟨htag, pos.steady_toTerm, hname, .list ?_, List.forall_mem_nil _⟩
  refine List.forall_mem_map.2 fun x hx => ?_
  simp [steady_word hP x.1 (hwords x hx), Steady.int]

theorem steady_eraseP_iff {fs : List Form} :
    (∀ f ∈ fs.eraseP isEof, f.toTerm.Steady P) ↔ ∀ f ∈ fs, f.toTerm.Steady P := by
  refine ⟨fun h f hf => ?_, fun h f hf => h f (List.mem_of_mem_eraseP hf)⟩
  by_cases he : isEof f = true
  · obtain ⟨pos, rfl⟩ := eq_eof_of_isEof he
    exact Form.steady_eof hP pos
  · exact h f ((List.mem_eraseP_of_neg he).2 hf)

theorem steady_assemble_iff {u : UnitParts} {functions : List FunctionDef} {last : Int} :
    (∀ f ∈ assemble u functions last, f.toTerm.Steady P) ↔
      (∀ f ∈ u.fileForm :: u.moduleForm :: u.body, f.toTerm.Steady P) ∧
        ∀ f ∈ functions, f.toTerm.Steady P := by
  simp only [assemble, List.cons_append, List.forall_mem_cons, List.forall_mem_append,
    List.forall_mem_map, List.not_mem_nil, IsEmpty.forall_iff, implies_true, steady_eraseP_iff hP,
    steady_exportForm hP, Form.steady_eof hP, true_and, and_true, and_assoc]
  rfl

/-- The new unit has the property if and only if the old one has it. -/
theorem steady_ofUnit_iff {forms fs : List Form} {u : UnitParts} (hu : u.Splits forms)
    (h : (ofUnit forms u).forms = some fs) :
    (∀ f ∈ fs, f.toTerm.Steady P) ↔ ∀ f ∈ forms, f.toTerm.Steady P := by
  by_cases ht : u.table.size = 0
  · rw [forms_ofUnit_of_size_eq_zero ht] at h
    cases h
    rfl
  · rw [forms_ofUnit ht] at h
    cases h
    rw [steady_assemble_iff hP, hu.forms, and_iff_left_iff_imp]
    intro hforms
    have hnamed := UnitParts.named_table fun f hf => hforms f (.tail _ (.tail _ hf))
    exact fun f hf => Accessors.steady_synthesize hP hnamed hf

end Transformation

end

end EnumForms
