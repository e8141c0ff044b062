import EnumForms.Proofs.Assembly
import EnumForms.Proofs.Encoding
import EnumForms.Proofs.Infinite

/-!
A transformed unit is written and read again. Its forms are those read from a text and those made
for its table, and the terms of all of them can be read; so they come back as they were, if no
integer is too long and no float infinite, and do not come back otherwise.
-/
namespace EnumForms

open Term

theorem Term.readable_tuple_iff {ts : List Term} :
    (Term.tuple ts).Readable ↔ ∀ t ∈ ts, t.Readable :=
  ⟨fun h => by cases h; assumption, .tuple⟩

/-! ## The terms of functions -/

theorem Position.readable_toTerm (p : Position) : p.toTerm.Readable := by
  cases p with
  | line l => exact .int l
  | lineColumn l c => simp [toTerm, readable_tuple_iff, Readable.int]

namespace Expr

mutual

theorem readable_toTerm (e : Expr) : e.toTerm.Readable := by
  cases e with
  | atom p name => simp [toTerm, readable_tuple_iff, p.readable_toTerm, Readable.atom]
  | integer p i => simp [toTerm, readable_tuple_iff, p.readable_toTerm, Readable.atom, Readable.int]
  | var p name => simp [toTerm, readable_tuple_iff, p.readable_toTerm, Readable.atom]
  | nil p => simp [toTerm, readable_tuple_iff, p.readable_toTerm, Readable.atom]
  | cons p head tail =>
    have hh := readable_toTerm head
    have ht := readable_toTerm tail
    simp [toTerm, readable_tuple_iff, p.readable_toTerm, Readable.atom, hh, ht]
  | call p function args =>
    have hf := readable_toTerm function
    have ha : (Term.list (toTerms args)).Readable := .list (readable_toTerms args)
    simp [toTerm, readable_tuple_iff, p.readable_toTerm, Readable.atom, hf, ha]

theorem readable_toTerms (es : List Expr) : ∀ t ∈ toTerms es, t.Readable := by
  cases es with
  | nil => simp [toTerms]
  | cons e es => exact List.forall_mem_cons.2 ⟨readable_toTerm e, readable_toTerms es⟩

end

end Expr

theorem Clause.readable_toTerm (c : Clause) : c.toTerm.Readable := by
  have hl (es : List Expr) : (Term.list (Expr.toTerms es)).Readable :=
    .list (Expr.readable_toTerms es)
  have hg : (Term.list (c.guards.map fun g => .list (Expr.toTerms g))).Readable := by
    refine .list fun t ht => ?_
    obtain ⟨g, -, rfl⟩ := List.mem_map.1 ht
    exact hl g
  simp [toTerm, readable_tuple_iff, c.pos.readable_toTerm, Readable.atom, hl, hg]

theorem FunctionDef.readable_toTerm (f : FunctionDef) : f.toTerm.Readable := by
  have hc : (Term.list (f.clauses.map Clause.toTerm)).Readable := by
    refine .list fun t ht => ?_
    obtain ⟨c, -, rfl⟩ := List.mem_map.1 ht
    exact c.readable_toTerm
  simp [toTerm, readable_tuple_iff, f.pos.readable_toTerm, Readable.atom, Readable.int, hc]

/-! ## Forms -/

namespace Form

/-- A form that a text may be read as. -/
structure Stable (f : Form) : Prop where
  readable : f.toTerm.Readable
  ofTerm_toTerm : ofTerm f.toTerm = f

theorem stable_ofTerm {t : Term} (h : t.Readable) : (ofTerm t).Stable := by
  have ht := toTerm_ofTerm t
  exact ⟨by rwa [ht], by rw [ht]⟩

theorem stable_function (f : FunctionDef) : (Form.function f).Stable :=
  ⟨f.readable_toTerm, ofTerm_of_known trivial⟩

theorem stable_eof (p : Position) : (Form.eof p).Stable := by
  refine ⟨?_, ofTerm_of_known trivial⟩
  simp [toTerm, readable_tuple_iff, p.readable_toTerm, Readable.atom]

theorem stable_attribute (p : Position) (name : Text) {value : Term} (h : value.Readable) :
    (Form.attribute p name value).Stable := by
  refine ⟨?_, ofTerm_of_known trivial⟩
  simp [toTerm, readable_tuple_iff, p.readable_toTerm, Readable.atom, h]

theorem stable_of_readForms {s : Text} {fs : List Form} (h : readForms s = .ok fs) :
    ∀ f ∈ fs, f.Stable := by
  obtain ⟨ts, ht, rfl⟩ := Attempt.map_eq_ok.1 h
  intro f hf
  obtain ⟨t, hm, rfl⟩ := List.mem_map.1 hf
  exact stable_ofTerm (readable_of_readTerms ht t hm)

theorem text?_eq_some_iff {fs : List Form} {u : Text} (hs : ∀ f ∈ fs, f.Stable) :
    text? fs = some u ↔ (∀ f ∈ fs, f.toTerm.hasOverlong = false) ∧ u = lines (fs.map toTerm) := by
  have hl : lines (fs.map toTerm) = fs.flatMap fun f => f.toTerm.text ++ lit ".\n" := by
    rw [lines, List.flatMap_map]
  have hw : (fs.all fun f => f.toTerm.isWritable) = true ↔ ∀ f ∈ fs, f.toTerm.hasOverlong = false := by
    rw [List.all_eq_true]
    exact forall₂_congr fun f hf => (hs f hf).readable.isWritable_iff
  rw [text?, hl, ← hw]
  split
  · next h => simp [h, eq_comm (a := u)]
  · next h => simp [h]

theorem length_of_equalAll {fs gs : List Form} (h : equalAll fs gs = true) :
    fs.length = gs.length := by
  induction fs generalizing gs with
  | nil =>
    cases gs with
    | nil => rfl
    | cons g gs => cases h
  | cons f fs ih =>
    cases gs with
    | nil => cases h
    | cons g gs =>
      rw [equalAll, Bool.and_eq_true] at h
      rw [List.length_cons, List.length_cons, ih h.2]

variable {fs gs : List Form}

theorem readForms_lines (hs : ∀ f ∈ fs, f.Stable) (ho : ∀ f ∈ fs, f.toTerm.hasOverlong = false)
    (hi : ∀ f ∈ fs, f.toTerm.hasInfinite = false) :
    readForms (lines (fs.map toTerm)) = .ok fs := by
  have hr : readTerms (lines (fs.map toTerm)) = .ok (fs.map toTerm) := by
    apply readTerms_lines
    · exact List.forall_mem_map.2 fun f hf => (hs f hf).readable
    · exact List.forall_mem_map.2 ho
    · exact List.forall_mem_map.2 hi
  have hm : (fs.map toTerm).map ofTerm = fs.map id := by
    rw [List.map_map]
    exact List.map_congr_left fun f hf => (hs f hf).ofTerm_toTerm
  rw [readForms, hr, Except.map, hm, List.map_id]

theorem hasInfinite_eq_false_of_readForms_lines (hs : ∀ f ∈ fs, f.Stable)
    (ho : ∀ f ∈ fs, f.toTerm.hasOverlong = false)
    (h : readForms (lines (fs.map toTerm)) = .ok gs) (hl : gs.length = fs.length) :
    ∀ f ∈ fs, f.toTerm.hasInfinite = false := by
  obtain ⟨ts, ht, rfl⟩ := Attempt.map_eq_ok.1 h
  have hr : ∀ t ∈ fs.map toTerm, t.Readable := List.forall_mem_map.2 fun f hf => (hs f hf).readable
  have hlen : ts.length = (fs.map toTerm).length := by simpa using hl
  have hi := hasInfinite_eq_false_of_readTerms_lines hr (List.forall_mem_map.2 ho) ht hlen
  exact List.forall_mem_map.1 hi

end Form

namespace Transformation

theorem stable_exportForm (pos : Position) : (exportForm pos).Stable := by
  rw [exportForm]
  refine Form.stable_attribute _ _ (.list fun t ht => ?_)
  obtain ⟨⟨name, arity⟩, -, rfl⟩ := List.mem_map.1 ht
  simp [readable_tuple_iff, Readable.atom, Readable.int]

theorem stable_assemble {u : UnitParts} (h : ∀ f ∈ u.fileForm :: u.moduleForm :: u.body, f.Stable)
    (functions : List FunctionDef) (last : Int) : ∀ f ∈ assemble u functions last, f.Stable := by
  simp only [List.forall_mem_cons] at h
  obtain ⟨hfile, hmod, hbody⟩ := h
  intro f hf
  simp only [assemble, List.mem_append, List.mem_cons, List.mem_map, List.not_mem_nil,
    or_false] at hf
  rcases hf with ((rfl | rfl | rfl | hf) | ⟨g, -, rfl⟩) | rfl
  · exact hfile
  · exact hmod
  · exact stable_exportForm _
  · exact hbody f (List.mem_of_mem_eraseP hf)
  · exact Form.stable_function g
  · exact Form.stable_eof _

theorem forms_transformText {s : Text} {tr : Transformation} (h : transformText s = .ok tr) :
    ∃ fs, tr.forms = some fs ∧ ∀ f ∈ fs, f.Stable := by
  obtain ⟨fs, u, hf, hu, rfl⟩ := transformText_eq_ok_iff.1 h
  have hs := Form.stable_of_readForms hf
  by_cases ht : u.table.size = 0
  · exact ⟨fs, forms_ofUnit_of_size_eq_zero ht fs, hs⟩
  · rw [(UnitParts.splits_of_ofForms hu).forms] at hs
    exact ⟨_, forms_ofUnit ht fs, stable_assemble hs _ _⟩

end Transformation

/-- The forms of a text that is transformed, written and read again, are the same forms if none of
them holds an integer with too many digits or an infinite float. If one does, they cannot be written,
or what is read differs from them. -/
theorem readForms_text_transformText (s : Text) (tr : Transformation) (h : transformText s = .ok tr) :
    ∃ fs, tr.forms = some fs ∧
      ((∀ f ∈ fs, f.toTerm.hasOverlong = false ∧ f.toTerm.hasInfinite = false) →
        ∃ u, Form.text? fs = some u ∧ readForms u = .ok fs) ∧
      (∀ u gs, Form.text? fs = some u → readForms u = .ok gs → Form.equalAll gs fs = true →
        ∀ f ∈ fs, f.toTerm.hasOverlong = false ∧ f.toTerm.hasInfinite = false) := by
  obtain ⟨fs, hfs, hs⟩ := Transformation.forms_transformText h
  refine ⟨fs, hfs, fun hc => ?_, fun u gs hu hr he f hf => ?_⟩
  · have ho : ∀ f ∈ fs, f.toTerm.hasOverlong = false := fun f hf => (hc f hf).1
    have hi : ∀ f ∈ fs, f.toTerm.hasInfinite = false := fun f hf => (hc f hf).2
    exact ⟨_, (Form.text?_eq_some_iff hs).2 ⟨ho, rfl⟩, Form.readForms_lines hs ho hi⟩
  · obtain ⟨ho, rfl⟩ := (Form.text?_eq_some_iff hs).1 hu
    have hi := Form.hasInfinite_eq_false_of_readForms_lines hs ho hr (Form.length_of_equalAll he)
    exact ⟨ho f hf, hi f hf⟩

def manyFloats : Text :=
  lit "\x7battribute,1,file,\x7b\"f\",1\x7d\x7d." ++ lit "\x7battribute,2,module,m\x7d." ++
    lit "\x7battribute,3,enum,\x7be,[a,\x7bb,7\x7d]\x7d\x7d." ++
    lit "\x7battribute,4,x,[-0.0,0.1,12.50,-3.0e7,1.0e22,-6.02e23,4.9e-324,1.0e-999]\x7d." ++
    lit "\x7beof,5\x7d."

theorem readForms_text_transformText_manyFloats : ∃ tr, transformText manyFloats = .ok tr ∧
    ∃ fs u, tr.forms = some fs ∧ Form.text? fs = some u ∧ readForms u = .ok fs := by
  have hb : ((transformText manyFloats).toOption.bind fun tr => tr.forms.map fun fs =>
      fs.all fun f => !f.toTerm.hasOverlong && !f.toTerm.hasInfinite) = some true := by
    decide +kernel
  obtain ⟨tr, ht, hb⟩ := Option.bind_eq_some_iff.1 hb
  have htr := Attempt.toOption_eq_some.1 ht
  obtain ⟨fs, hfs, hread, -⟩ := readForms_text_transformText manyFloats tr htr
  rw [hfs, Option.map_some, Option.some.injEq, List.all_eq_true] at hb
  obtain ⟨u, hu, hr⟩ := hread fun f hf => by simpa using hb f hf
  exact ⟨tr, htr, fs, u, hfs, hu, hr⟩

def pastGreatest : Text :=
  lit "\x7battribute,1,file,\x7b\"f\",1\x7d\x7d." ++ lit "\x7battribute,2,module,m\x7d." ++
    lit "\x7battribute,3,x,1.0e999\x7d." ++ lit "\x7beof,4\x7d."

/-- Units of short integers need not be read back. -/
theorem not_readForms_text_pastGreatest :
    ¬ ∀ (s : Text) (tr : Transformation) (fs : List Form), transformText s = .ok tr →
      tr.forms = some fs → (∀ f ∈ fs, f.toTerm.hasOverlong = false) →
      ∃ u gs, Form.text? fs = some u ∧ readForms u = .ok gs ∧ Form.equalAll gs fs = true := by
  intro h
  have hb : ((transformText pastGreatest).toOption.bind fun tr => tr.forms.map fun fs =>
      (fs.all fun f => !f.toTerm.hasOverlong) && fs.any fun f => f.toTerm.hasInfinite) =
      some true := by
    decide +kernel
  obtain ⟨tr, ht, hb⟩ := Option.bind_eq_some_iff.1 hb
  have htr := Attempt.toOption_eq_some.1 ht
  obtain ⟨fs, hfs, hs⟩ := Transformation.forms_transformText htr
  rw [hfs, Option.map_some, Option.some.injEq, Bool.and_eq_true, List.all_eq_true,
    List.any_eq_true] at hb
  obtain ⟨ho, f, hf, hinf⟩ := hb
  have ho : ∀ f ∈ fs, f.toTerm.hasOverlong = false := fun f hf => by simpa using ho f hf
  obtain ⟨u, gs, hu, hr, he⟩ := h pastGreatest tr fs htr hfs ho
  obtain ⟨-, rfl⟩ := (Form.text?_eq_some_iff hs).1 hu
  have hi := Form.hasInfinite_eq_false_of_readForms_lines hs ho hr (Form.length_of_equalAll he) f hf
  rw [hinf] at hi
  cases hi

end EnumForms
