import EnumForms.Proofs.Characters
import EnumForms.Proofs.Printing

/-!
Escapes in characters, strings and quoted atoms. An escape that is one code point after a dollar
sign is the same code point between marks, if the token is cut where its marks are: the cut takes
only one code point with a backslash, never a line feed, and knows nothing of the longer escapes.
-/
namespace EnumForms

inductive Quote where
  | string
  | atom

namespace Quote

def mark : Quote → CodePoint
  | .string => .quotation
  | .atom => .apostrophe

def kind : Quote → Kind
  | .string => .string
  | .atom => .literal .quotedAtom

def term : Quote → Text → Term
  | .string => .str
  | .atom => .atom

def around (q : Quote) (u : Text) : Text := q.mark :: u ++ [q.mark]

variable (q : Quote)

theorem mark_ne_backslash : q.mark ≠ .backslash := by cases q <;> decide

theorem isHex_mark : q.mark.isHex = false := by cases q <;> decide

theorem isOctal_mark : q.mark.isOctal = false := by cases q <;> decide

theorem ne_of_test {p : CodePoint → Bool} (hm : p q.mark = false) (hb : p .backslash = false)
    {c : CodePoint} (hc : p c = true) : c ≠ q.mark ∧ c ≠ .backslash := by
  constructor <;> rintro rfl
  · cases hm.symm.trans hc
  · cases hb.symm.trans hc

theorem term_injective {s t : Text} (h : q.term s = q.term t) : s = t := by
  cases q <;> cases h <;> rfl

theorem lexeme?_kind : q.kind.lexeme? = Lexeme.quoted q.mark := by cases q <;> rfl

theorem eq_kind {k : Kind} {s t r : Text} (h : k.lexeme? (q.mark :: s) = some (t, r)) :
    k = q.kind := by
  have hf := Kind.family_of_lexeme? h
  have hq : q.mark.family? = some q.kind := by cases q <;> decide
  have hk := Option.some.inj (hq.symm.trans hf)
  cases q <;> cases k with
  | literal l => cases l <;> cases hk <;> rfl
  | _ => cases hk <;> rfl

end Quote

/-! ## What may stand between marks -/

namespace Lexeme

/-- A backslash takes the next code point with it, which is no line feed; what else there is are no
marks. -/
inductive Body (mark : CodePoint) : Text → Prop where
  | nil : Body mark []
  | plain {c : CodePoint} {u : Text} : c ≠ mark → c ≠ .backslash → Body mark u → Body mark (c :: u)
  | escaped {d : CodePoint} {u : Text} : d ≠ .newline → Body mark u →
      Body mark (.backslash :: d :: u)

namespace Body

variable {mark : CodePoint} {u v : Text}

theorem append (hu : Body mark u) (hv : Body mark v) : Body mark (u ++ v) := by
  induction hu with
  | nil => exact hv
  | plain hm hb _ ih => exact .plain hm hb ih
  | escaped hd _ ih => exact .escaped hd ih

theorem of_plain (h : ∀ c ∈ u, c ≠ mark ∧ c ≠ .backslash) : Body mark u := by
  induction u with
  | nil => exact .nil
  | cons c u ih =>
    rw [List.forall_mem_cons] at h
    exact .plain h.1.1 h.1.2 (ih h.2)

theorem backslash_cons_iff {d : CodePoint} :
    Body mark (.backslash :: d :: u) ↔ d ≠ .newline ∧ Body mark u := by
  constructor
  · intro h
    cases h with
    | plain _ hb => exact absurd rfl hb
    | escaped hd hu => exact ⟨hd, hu⟩
  · exact fun h => .escaped h.1 h.2

theorem singleton_iff {c : CodePoint} : Body mark [c] ↔ c ≠ mark ∧ c ≠ .backslash := by
  constructor
  · intro h
    cases h with
    | plain hm hb => exact ⟨hm, hb⟩
  · exact fun h => .plain h.1 h.2 .nil

theorem passes (hm : mark ≠ .backslash) (h : Body mark u) : Passes mark u := by
  induction h with
  | nil => exact passes_nil
  | @plain c u hc hb _ ih =>
    have hp : Passes mark [c] := passes_of_plain (by simp [hc, hb])
    exact hp.append ih
  | escaped hd _ ih => exact (passes_escaped hm hd).append ih

end Body

theorem body_of_untilMark {mark : CodePoint} {s t r : Text} (h : untilMark mark s = some (t, r)) :
    ∃ u, Body mark u ∧ t = u ++ [mark] := by
  fun_induction untilMark mark s generalizing t r with
  | case1 | case3 | case4 => cases h
  | case2 =>
    cases h
    exact ⟨[], .nil, rfl⟩
  | case5 d s hd hm ih =>
    obtain ⟨⟨v, q⟩, hv, he⟩ := Option.map_eq_some_iff.1 h
    cases he
    obtain ⟨u, hu, rfl⟩ := ih hv
    exact ⟨.backslash :: d :: u, .escaped hd hu, rfl⟩
  | case6 c s hm hb ih =>
    obtain ⟨⟨v, q⟩, hv, he⟩ := Option.map_eq_some_iff.1 h
    cases he
    obtain ⟨u, hu, rfl⟩ := ih hv
    exact ⟨c :: u, .plain hm hb hu, rfl⟩

end Lexeme

/-! ## Escapes -/

/-- The text begins with a backslash, and after a dollar sign it makes a character token, which is
this code point. -/
structure Escaping (u : Text) (c : CodePoint) : Prop where
  head : u.head? = some .backslash
  token : Lexeme.char (.ofChar '$' :: u) = some (.ofChar '$' :: u, [])
  code : ∀ place, Literal.value place (.ofChar '$' :: u) .char = .ok (.int c.val)

namespace Escape

variable {e : Escape} {c : CodePoint}

theorem literal_value_char {u : Text} {place : Place} (h : decode? u = some [c]) :
    Literal.value place (.ofChar '$' :: u) .char = .ok (.int c.val) := by
  rw [Literal.value, charCode, List.tail_cons, h]
  rfl

theorem WellFormed.escaping (h : e.WellFormed) (hv : e.value? = some c) :
    Escaping (.backslash :: e.spelling) c where
  head := rfl
  token := by
    have hd : (CodePoint.ofChar '$').is '$' = true := by decide
    rw [Lexeme.char, if_pos hd, if_pos rfl, h.split_spelling]
  code place := by
    refine literal_value_char ?_
    rw [h.decode?_spelling, hv]
    rfl

theorem eq_or_exists_of_escaping {u : Text} (h : Escaping u c) : u = lit "\\" ∨
    ∃ e : Escape, e.WellFormed ∧ u = .backslash :: e.spelling ∧ e.value? = some c := by
  obtain ⟨d, hd, -⟩ | ⟨e, he, ht⟩ := Lexeme.char_eq_some h.token
  · obtain rfl := List.tail_eq_of_cons_eq hd
    cases h.head
    exact .inl rfl
  · obtain rfl := List.tail_eq_of_cons_eq ht
    have hw := wellFormed_of_split he
    refine .inr ⟨e, hw, rfl, ?_⟩
    have hcode := h.code .start
    rw [Literal.value, charCode, List.tail_cons, hw.decode?_spelling] at hcode
    cases hv : e.value? with
    | none =>
      rw [hv] at hcode
      cases hcode
    | some d =>
      rw [hv] at hcode
      have hval : (d.val : Int) = c.val := Term.int.inj (Except.ok.inj hcode)
      rw [CodePoint.eq_of_val (Int.ofNat.inj hval)]

theorem WellFormed.split_append (h : e.WellFormed) {rest : Text}
    (hr : ∀ d ∈ rest.head?, d = .backslash) (hc : e = .plain (.ofChar '^') → rest = []) :
    split (e.spelling ++ rest) = some (e, rest) := by
  cases h with
  | control c => rfl
  | braced hn hd => exact split_braced hn hd rest
  | pair ha hb => exact split_pair ha hb rest
  | octal hn hl ho =>
    refine (split_octal_iff hn hl ho).2 (.inr fun d hd => ?_)
    rw [hr d hd]
    decide
  | @plain c ho =>
    by_cases hcaret : c.is '^' = true
    · obtain rfl := CodePoint.is_iff.1 hcaret
      rw [hc rfl]
      rfl
    · have hoct := splitOctal_eq_none ho rest
      have hhex : splitHex rest = none := by
        cases rest with
        | nil => rfl
        | cons d rest =>
          obtain rfl := hr d rfl
          cases rest <;> rfl
      simp [spelling, split, hcaret, hoct, hhex]

theorem WellFormed.mark_notMem (h : e.WellFormed) (q : Quote) :
    q.mark ∉ (.backslash :: e.spelling).dropLast := by
  have hb := q.mark_ne_backslash
  have hhex {d : CodePoint} := q.ne_of_test q.isHex_mark (by decide) (c := d)
  have hoct {d : CodePoint} := q.ne_of_test q.isOctal_mark (by decide) (c := d)
  have hsigns : q.mark ≠ .ofChar '^' ∧ q.mark ≠ .ofChar 'x' ∧
      q.mark ≠ .ofChar '\x7b' ∧ q.mark ≠ .ofChar '\x7d' := by cases q <;> decide
  cases h with
  | control c => simp [spelling, hb, hsigns]
  | @braced ds hn hd =>
    have hds : q.mark ∉ ds := fun hm => (hhex (hd _ hm)).1 rfl
    have hall : q.mark ∉ CodePoint.backslash ::
        (Escape.braced ds).spelling := by
      simp [spelling, lit, hb, hsigns, hds]
    exact fun hm => hall (List.dropLast_subset _ hm)
  | @pair x y hx hy =>
    have hne : q.mark ≠ x ∧ q.mark ≠ y :=
      ⟨(hhex hx).1.symm, (hhex hy).1.symm⟩
    have hall : q.mark ∉ CodePoint.backslash ::
        (Escape.pair x y).spelling := by
      simp [spelling, hb, hsigns, hne]
    exact fun hm => hall (List.dropLast_subset _ hm)
  | @octal ds hn hl ho =>
    have hds : q.mark ∉ ds := fun hm => (hoct (ho _ hm)).1 rfl
    have hall : q.mark ∉ CodePoint.backslash ::
        (Escape.octal ds).spelling := by simp [spelling, hb, hds]
    exact fun hm => hall (List.dropLast_subset _ hm)
  | plain ho => simp [spelling, hb]

/-- These escapes are read after a dollar sign and not between marks: the backslash alone, before a
line feed, and with a caret before the mark or before another backslash. -/
def Broken (mark : CodePoint) (u : Text) : Prop :=
  u ∈ [lit "\\", lit "\\\n", lit "\\^" ++ [mark], lit "\\^\\"]

instance (mark : CodePoint) (u : Text) : Decidable (Broken mark u) :=
  inferInstanceAs (Decidable (u ∈ _))

theorem not_broken_of_ne {mark d : CodePoint} {u : Text} (hn : d ≠ .newline)
    (hc : d ≠ .ofChar '^') : ¬ Broken mark (.backslash :: d :: u) := by
  have hnewline : d ≠ .ofChar '\n' := hn
  simp [Broken, lit, hnewline, hc]

theorem WellFormed.body_iff (h : e.WellFormed) (q : Quote) :
    Lexeme.Body q.mark (.backslash :: e.spelling) ↔ ¬ Broken q.mark (.backslash :: e.spelling) := by
  have hnewline : CodePoint.newline = .ofChar '\n' := rfl
  have hbackslash : CodePoint.backslash = .ofChar '\\' := rfl
  have hhex {d : CodePoint} := q.ne_of_test q.isHex_mark (by decide) (c := d)
  have hoct {d : CodePoint} := q.ne_of_test q.isOctal_mark (by decide) (c := d)
  have hx : CodePoint.ofChar 'x' ≠ .newline := by decide
  -- what begins with `x` or a digit is no broken escape, and no marks are in it
  have whole {d : CodePoint} {u : Text} (hn : d ≠ .newline) (hc : d ≠ .ofChar '^')
      (hu : ∀ c ∈ u, c ≠ q.mark ∧ c ≠ .backslash) : Lexeme.Body q.mark (.backslash :: d :: u) ↔
        ¬ Broken q.mark (.backslash :: d :: u) :=
    iff_of_true (.escaped hn (.of_plain hu)) (not_broken_of_ne hn hc)
  cases h with
  | control c =>
    have hc : CodePoint.ofChar '^' ≠ .newline := by decide
    rw [spelling, Lexeme.Body.backslash_cons_iff, Lexeme.Body.singleton_iff]
    simp [Broken, lit, hc, hbackslash]
  | @braced ds hn hd =>
    have hbrace : ∀ c ∈ lit "\x7b\x7d", c ≠ q.mark ∧ c ≠ .backslash := by cases q <;> decide
    refine whole (u := lit "\x7b" ++ ds ++ lit "\x7d") hx (by decide) fun c hc => ?_
    rw [List.append_assoc, List.mem_append, List.mem_append] at hc
    rcases hc with hc | hc | hc
    · exact hbrace c (List.mem_append_left (lit "\x7d") hc)
    · exact hhex (hd c hc)
    · exact hbrace c (List.mem_append_right (lit "\x7b") hc)
  | @pair a b ha hb =>
    refine whole hx (by decide) ?_
    simp [hhex ha, hhex hb]
  | @octal ds hn hl ho =>
    cases ds with
    | nil => exact absurd rfl hn
    | cons d ds =>
      rw [List.forall_mem_cons] at ho
      have hne {c : CodePoint} (hc : c.isOctal = false) : d ≠ c := by
        rintro rfl
        cases hc.symm.trans ho.1
      exact whole (hne (by decide)) (hne (by decide)) fun c hc => hoct (ho.2 c hc)
  | @plain c ho =>
    rw [spelling, Lexeme.Body.backslash_cons_iff]
    simp [Broken, lit, hbackslash, hnewline, Lexeme.Body.nil]

end Escape

namespace Escaping

open Escape

variable {u : Text} {c : CodePoint}

theorem mark_notMem (h : Escaping u c) (q : Quote) : q.mark ∉ u.dropLast := by
  obtain rfl | ⟨e, he, rfl, -⟩ := eq_or_exists_of_escaping h
  · simp [lit]
  · exact he.mark_notMem q

theorem eq_nil_of_mark (h : Escaping u c) {q : Quote} {a b : Text} (hs : u = a ++ q.mark :: b) :
    b = [] := by
  by_contra hb
  refine h.mark_notMem q ?_
  rw [hs, List.dropLast_append_of_ne_nil (by simp), List.dropLast_cons_of_ne_nil hb]
  simp

theorem body_iff (h : Escaping u c) (q : Quote) : Lexeme.Body q.mark u ↔ ¬ Broken q.mark u := by
  obtain rfl | ⟨e, he, rfl, -⟩ := eq_or_exists_of_escaping h
  · refine iff_of_false (fun hb => ?_) (not_not_intro (by simp [Broken]))
    cases hb with
    | plain _ hb => exact hb rfl
  · exact he.body_iff q

end Escaping

/-! ## One escape after the other -/

namespace Escape

variable {es : List (Text × CodePoint)}

theorem backslash_of_head (h : ∀ e ∈ es, Escaping e.1 e.2) :
    ∀ d ∈ (es.flatMap Prod.fst).head?, d = .backslash := by
  cases es with
  | nil => simp
  | cons e es =>
    have he := (h e (by simp)).head
    intro d hd
    rw [List.flatMap_cons, List.head?_append, he] at hd
    exact (Option.some.inj hd).symm

theorem backslash_of_mark (h : ∀ e ∈ es, Escaping e.1 e.2) {q : Quote} {a b : Text}
    (hs : es.flatMap Prod.fst = a ++ q.mark :: b) : ∀ d ∈ b.head?, d = .backslash := by
  induction es generalizing a b with
  | nil => simp at hs
  | cons e es ih =>
    rw [List.forall_mem_cons] at h
    rw [List.flatMap_cons] at hs
    obtain ⟨a', -, ht⟩ | ⟨c', he, ht⟩ := List.append_eq_append_iff.1 hs
    · exact ih h.2 ht
    · cases c' with
      | nil => exact ih (a := []) h.2 ht.symm
      | cons m c' =>
        obtain ⟨rfl, rfl⟩ := List.cons_eq_cons.1 ht
        obtain rfl := h.1.eq_nil_of_mark he
        exact backslash_of_head h.2

theorem WellFormed.eq_caret_iff {e : Escape} (h : e.WellFormed) :
    CodePoint.backslash :: e.spelling = lit "\\^" ↔ e = .plain (.ofChar '^') := by
  constructor
  · intro hs
    have hspelling : e.spelling = [.ofChar '^'] := List.tail_eq_of_cons_eq hs
    have hsplit := h.split_spelling
    rw [hspelling] at hsplit
    exact ((Prod.mk.inj (Option.some.inj hsplit)).1).symm
  · rintro rfl
    rfl

theorem decode?_caret_ne {rest : Text} (hn : rest ≠ []) (hr : ∀ d ∈ rest.head?, d = .backslash)
    (s : Text) : decode? (lit "\\^" ++ rest) ≠ some (.ofChar '^' :: s) := by
  cases rest with
  | nil => exact absurd rfl hn
  | cons d rest =>
    obtain rfl := hr d rfl
    have hs : split (.ofChar '^' :: .backslash :: rest) = some (.control .backslash, rest) := rfl
    have hv : (Escape.control .backslash).value? = some ⟨28, by decide⟩ := by decide
    intro h
    change decode? (.backslash :: .ofChar '^' :: .backslash :: rest) = _ at h
    rw [decode?_escape hs, hv, Option.bind_some] at h
    obtain ⟨t, -, ht⟩ := Option.map_eq_some_iff.1 h
    exact absurd (List.cons_eq_cons.1 ht).1 (by decide)

/-- Escapes are decoded one after the other if and only if none but the last is a caret. -/
theorem decode?_escapes (h : ∀ e ∈ es, Escaping e.1 e.2) (hl : ∀ e ∈ es, e.1 ≠ lit "\\") :
    decode? (es.flatMap Prod.fst) = some (es.map Prod.snd) ↔
      ∀ e ∈ es.dropLast, e.1 ≠ lit "\\^" := by
  induction es with
  | nil => simp [decode?]
  | cons x es ih =>
    rw [List.forall_mem_cons] at h hl
    obtain ⟨u, c⟩ := x
    obtain rfl | ⟨e, he, rfl, hv⟩ := eq_or_exists_of_escaping h.1
    · exact absurd rfl hl.1
    have ih := ih h.2 hl.2
    have hhead := backslash_of_head h.2
    rw [List.flatMap_cons, List.map_cons]
    cases es with
    | nil => simp [he.decode?_spelling, hv]
    | cons y es =>
      rw [List.dropLast_cons_of_ne_nil (by simp), List.forall_mem_cons, ← ih]
      by_cases hc : e = .plain (.ofChar '^')
      · subst hc
        cases hv
        have hne : List.flatMap Prod.fst (y :: es) ≠ [] := by
          intro hnil
          have hy := (h.2 y (by simp)).head
          rw [List.flatMap_cons] at hnil
          rw [(List.append_eq_nil_iff.1 hnil).1] at hy
          cases hy
        exact iff_of_false (decode?_caret_ne hne hhead _) fun hn => hn.1 rfl
      · have hs := he.split_append hhead fun hcaret => absurd hcaret hc
        have hne : CodePoint.backslash :: e.spelling ≠ lit "\\^" := mt he.eq_caret_iff.1 hc
        rw [List.cons_append, decode?_escape hs, hv, Option.bind_some]
        simp [hne]

end Escape

/-! ## Literals -/

theorem Lexed.not_backslash {p : Place} {s : Text} {ts : List Token} :
    ¬ Lexed p (.backslash :: s) ts := by
  intro h
  cases h with
  | layout hl => cases hl
  | token hk =>
    have hf : CodePoint.backslash.family? = none := by decide
    cases hf.symm.trans (Kind.family_of_lexeme? hk.1)

namespace Quote

variable {q : Quote} {u s : Text}

theorem not_lexed_mark {p : Place} {ts : List Token} : ¬ Lexed p (q.mark :: lit ".") ts := by
  have hl : Lexeme.layout (q.mark :: lit ".") = none := by cases q <;> decide
  have hq : Lexeme.quoted q.mark (q.mark :: lit ".") = none := by cases q <;> decide
  intro h
  cases h with
  | layout hlayout => cases hl.symm.trans hlayout
  | token hk =>
    have ht := hk.1
    rw [q.eq_kind ht, q.lexeme?_kind, hq] at ht
    cases ht

theorem body_of_lexed (hu : ∀ a b, u = a ++ q.mark :: b → ∀ d ∈ b.head?, d = .backslash)
    {p : Place} {ts : List Token} (h : Lexed p (q.around u ++ lit ".") ts) :
    Lexeme.Body q.mark u := by
  have haround : q.around u ++ lit "." = q.mark :: (u ++ q.mark :: lit ".") := by simp [around]
  rw [haround] at h
  cases h with
  | layout hl =>
    cases q <;> cases hl
  | @token _ _ _ r k ts hk hr =>
    have ht := hk.1
    rw [q.eq_kind ht, q.lexeme?_kind, Lexeme.quoted, if_pos rfl] at ht
    obtain ⟨⟨t, r'⟩, ht, he⟩ := Option.map_eq_some_iff.1 ht
    cases he
    obtain ⟨v, hv, rfl⟩ := Lexeme.body_of_untilMark ht
    have hcut := Lexeme.cuts_untilMark _ _ _ _ ht
    rw [List.append_assoc, List.singleton_append] at hcut
    obtain ⟨a, rfl, ha⟩ | ⟨b, rfl, hb⟩ := List.append_eq_append_iff.1 hcut
    · cases a with
      | nil => simpa using hv
      | cons m a =>
        have hmem : q.mark ∈ lit "." := by
          rw [(List.cons_eq_cons.1 ha).2]
          simp
        cases q <;> exact absurd hmem (by decide)
    · cases b with
      | nil => simpa using hv
      | cons m b =>
        obtain ⟨rfl, rfl⟩ := List.cons_eq_cons.1 hb
        have hd := hu v b rfl
        cases b with
        | nil => exact absurd hr not_lexed_mark
        | cons d b =>
          obtain rfl := hd d rfl
          exact absurd hr Lexed.not_backslash

theorem exists_cut (h : Lexeme.Body q.mark u) (p : Place) :
    ∃ us n, Cut p (q.around u) us ∧ Derives .term us [n] ∧
      n.value = (unquote p (q.around u)).map q.term := by
  have hk (rest : Text) : q.kind.Leads (q.around u ++ rest) (q.around u) rest := by
    refine Kind.leads_of_lexeme? (by cases q <;> decide) ?_
    rw [q.lexeme?_kind]
    exact Lexeme.quoted_append (h.passes q.mark_ne_backslash) rest
  have hcut : Cut p (q.around u) [⟨q.kind, q.around u, p⟩] := .token fun rest _ => hk rest
  cases q with
  | string =>
    refine ⟨_, _, hcut, .strings (by simp [kind]), ?_⟩
    rw [Node.value, List.map_singleton, joinStrings]
    cases unquote p (around .string u) with
    | error e => rfl
    | ok s => simp [joinStrings, Except.map, term]
  | atom => exact ⟨_, _, hcut, .literal rfl, rfl⟩

theorem unquote_around (p : Place) : unquote p (q.around u) =
    match Escape.decode? u with
    | some s => .ok s
    | none => .error (.defect p .escapeOutOfRange) := by
  have hi : Token.inner (q.around u) = u := by simp [Token.inner, around]
  cases hu : Escape.decode? u with
  | none => simp only [unquote, hi, hu]
  | some s => simp only [unquote, hi, hu]

theorem spelled (h : Lexeme.Body q.mark u) (hs : Escape.decode? u = some s) :
    Spelled (q.around u) (q.term s) := by
  intro p
  obtain ⟨us, n, hc, hd, hv⟩ := exists_cut h p
  refine ⟨us, n, hc, hd, ?_⟩
  rw [hv, unquote_around, hs]
  rfl

theorem readTerms_iff (h : Lexeme.Body q.mark u) :
    readTerms (q.around u ++ lit ".") = .ok [q.term s] ↔ Escape.decode? u = some s := by
  refine ⟨fun hr => ?_, fun hs => readTerms_spelled (spelled h hs)⟩
  obtain ⟨us, n, hc, hd, hv⟩ := exists_cut h .start
  rw [readTerms, parse_dot hc hd, Attempt.ok_bind, Node.values, hv, unquote_around] at hr
  cases hs : Escape.decode? u with
  | none =>
    rw [hs] at hr
    cases hr
  | some t =>
    rw [hs] at hr
    obtain ⟨ht, -⟩ := List.cons_eq_cons.1 (Except.ok.inj hr)
    rw [q.term_injective ht]

theorem body_of_readTerms {es : List (Text × CodePoint)} (h : ∀ e ∈ es, Escaping e.1 e.2)
    {ts : List Term} (hr : readTerms (q.around (es.flatMap Prod.fst) ++ lit ".") = .ok ts) :
    Lexeme.Body q.mark (es.flatMap Prod.fst) := by
  obtain ⟨trees, hp, -⟩ := Attempt.bind_eq_ok.1 hr
  obtain ⟨tokens, hx, -⟩ := parse_eq_ok_iff.1 hp
  exact body_of_lexed (fun a b => Escape.backslash_of_mark h) hx

theorem body_of_not_broken {es : List (Text × CodePoint)} (h : ∀ e ∈ es, Escaping e.1 e.2)
    (hb : ∀ e ∈ es, ¬ Escape.Broken q.mark e.1) : Lexeme.Body q.mark (es.flatMap Prod.fst) := by
  induction es with
  | nil => exact .nil
  | cons e es ih =>
    rw [List.forall_mem_cons] at h hb
    exact ((h.1.body_iff q).2 hb.1).append (ih h.2 hb.2)

end Quote

/-- An escape that is one code point after a dollar sign is the same one between marks, unless it is
one of the broken ones. Escapes between marks are read one after the other if and only if the token
is cut where its marks are, which it is if none is broken, and no caret stands before another
one. -/
theorem readTerms_escapes (q : Quote) :
    (∀ u c, Escaping u c → (readTerms (q.around u ++ lit ".") = .ok [q.term [c]] ↔
      ¬ Escape.Broken q.mark u)) ∧
    ∀ es : List (Text × CodePoint), (∀ e ∈ es, Escaping e.1 e.2) →
      ((∀ e ∈ es, e.1 ≠ lit "\\") →
        (readTerms (q.around (es.flatMap Prod.fst) ++ lit ".") = .ok [q.term (es.map Prod.snd)] ↔
          Lexeme.Body q.mark (es.flatMap Prod.fst) ∧ ∀ e ∈ es.dropLast, e.1 ≠ lit "\\^")) ∧
      ((∀ e ∈ es, ¬ Escape.Broken q.mark e.1) → (∀ e ∈ es.dropLast, e.1 ≠ lit "\\^") →
        Spelled (q.around (es.flatMap Prod.fst)) (q.term (es.map Prod.snd))) := by
  have whole (es : List (Text × CodePoint)) (h : ∀ e ∈ es, Escaping e.1 e.2)
      (hl : ∀ e ∈ es, e.1 ≠ lit "\\") :
      readTerms (q.around (es.flatMap Prod.fst) ++ lit ".") = .ok [q.term (es.map Prod.snd)] ↔
        Lexeme.Body q.mark (es.flatMap Prod.fst) ∧ ∀ e ∈ es.dropLast, e.1 ≠ lit "\\^" := by
    rw [← Escape.decode?_escapes h hl]
    constructor
    · intro hr
      have hb := Quote.body_of_readTerms h hr
      exact ⟨hb, (Quote.readTerms_iff hb).1 hr⟩
    · exact fun hb => (Quote.readTerms_iff hb.1).2 hb.2
  have notLone {u : Text} (hb : ¬ Escape.Broken q.mark u) : u ≠ lit "\\" := by
    rintro rfl
    exact hb (by simp [Escape.Broken])
  refine ⟨fun u c h => ?_, fun es h => ⟨whole es h, fun hb hc => ?_⟩⟩
  · have hes : ∀ e ∈ [(u, c)], Escaping e.1 e.2 := List.forall_mem_singleton.2 h
    have hu : [(u, c)].flatMap Prod.fst = u := List.append_nil u
    constructor
    · intro hr
      rw [← h.body_iff q, ← hu]
      exact Quote.body_of_readTerms hes (hu.symm ▸ hr)
    · intro hb
      have hone := whole [(u, c)] hes (List.forall_mem_singleton.2 (notLone hb))
      rw [hu] at hone
      exact hone.2 ⟨(h.body_iff q).2 hb, nofun⟩
  · exact Quote.spelled (Quote.body_of_not_broken h hb)
      ((Escape.decode?_escapes h fun e he => notLone (hb e he)).2 hc)

def assorted : List (Text × CodePoint) :=
  [(lit "\\n", .newline), (lit "\\x41", .ofChar 'A'),
    (lit "\\x\x7b1F600\x7d", ⟨0x1F600, by decide⟩), (lit "\\101", .ofChar 'A'),
    (lit "\\\"", .quotation), (lit "\\\\", .backslash),
    (lit "\\^A", ⟨1, by decide⟩), (lit "\\^", .ofChar '^')]

theorem escaping_assorted : ∀ e ∈ assorted, Escaping e.1 e.2 := by
  have plain {c d : CodePoint} (ho : c.isOctal = false) (hd : Escape.named c = d) :
      Escaping [.backslash, c] d := (Escape.WellFormed.plain ho).escaping (congrArg some hd)
  have hpair : Escaping (lit "\\x41") (.ofChar 'A') :=
    (Escape.WellFormed.pair (a := .ofChar '4') (b := .ofChar '1') rfl rfl).escaping rfl
  have hbraced : Escaping (lit "\\x\x7b1F600\x7d") ⟨0x1F600, by decide⟩ :=
    (@Escape.WellFormed.braced (lit "1F600") (by decide) (by decide)).escaping rfl
  have hoctal : Escaping (lit "\\101") (.ofChar 'A') :=
    (@Escape.WellFormed.octal (lit "101") (by decide) (by decide) (by decide)).escaping rfl
  have hcontrol : Escaping (lit "\\^A") ⟨1, by decide⟩ :=
    (Escape.WellFormed.control (.ofChar 'A')).escaping rfl
  simp only [assorted, List.forall_mem_cons]
  exact ⟨plain rfl rfl, hpair, hbraced, hoctal, plain rfl rfl, plain rfl rfl, hcontrol,
    plain rfl rfl, by simp⟩

theorem readTerms_escapes_assorted : (∀ e ∈ assorted, Escaping e.1 e.2) ∧
    (∀ e ∈ assorted, ¬ Escape.Broken .quotation e.1) ∧
    (∀ e ∈ assorted.dropLast, e.1 ≠ lit "\\^") ∧
    readTerms (lit "\"\\n\\x41\\x\x7b1F600\x7d\\101\\\"\\\\\\^A\\^\".") =
      .ok [.str (assorted.map Prod.snd)] := by
  have hb : ∀ e ∈ assorted, ¬ Escape.Broken .quotation e.1 := by decide
  have hc : ∀ e ∈ assorted.dropLast, e.1 ≠ lit "\\^" := by decide
  have h := ((readTerms_escapes .string).2 assorted escaping_assorted).2 hb hc
  exact ⟨escaping_assorted, hb, hc, readTerms_spelled h⟩

/-- A backslash before a line feed is a line feed after a dollar sign, but no string goes on
there. -/
theorem not_readTerms_escaped_newline : Escaping (lit "\\\n") .newline ∧
    readTerms (lit "\"\\\n\".") ≠ .ok [.str [.newline]] := by
  have hw : (Escape.plain .newline).WellFormed := .plain (by decide)
  have hp : parse (lit "\"\\\n\".") = .error (.unexpectedCharacter .quotation ⟨1, 1⟩) :=
    Attempt.reason?_eq_some.1 (by decide +kernel)
  refine ⟨hw.escaping rfl, ?_⟩
  rw [readTerms, hp]
  intro h
  cases h

end EnumForms
