import EnumForms.Proofs.Characters
import EnumForms.Proofs.Printing

/-!
What is found at the front of a text is found there too if layout takes the place of what comes
later. Only a backslash at the very end of a text would be read otherwise, so something has to come
later.
-/
namespace EnumForms

def CodePoint.layoutStarts : List CodePoint :=
  [.ofChar '\t', .newline, .ofChar '\x0C', .carriageReturn, .space, .ofChar '%']

/-- What is found, with `q` kept after it, is found before `c` as well. -/
def Local (c : CodePoint) (f : Text → Option (Text × Text)) : Prop :=
  ∀ t q x y, q ++ x ≠ [] → f (t ++ (q ++ x)) = some (t, q ++ x) →
    f (t ++ (q ++ c :: y)) = some (t, q ++ c :: y)

def Blocked {α : Type} (c : CodePoint) (f : Text → Option α) : Prop :=
  ∀ q x y, f (q ++ x) = none → f (q ++ c :: y) = none

theorem CodePoint.eq_false_of_layoutStart {c : CodePoint} (hc : c ∈ layoutStarts)
    (p : CodePoint → Bool) (hp : ∀ d ∈ layoutStarts, p d = false) : p c = false := hp c hc

structure Peeks (p : CodePoint → Bool) (f : Text → Option (Text × Text)) : Prop where
  nil : f [] = none
  cons : ∀ c s, f (c :: s) = if p c then some ([c], s) else none

namespace Lexeme

variable {c : CodePoint} {f g : Text → Option (Text × Text)} {p p' : CodePoint → Bool}

/-! ## Single code points and runs -/

theorem peeks_single (ch : Char) : Peeks (·.is ch) (single ch) := ⟨rfl, fun _ _ => rfl⟩

theorem peeks_either (hf : Peeks p f) (hg : Peeks p' g) :
    Peeks (fun c => p c || p' c) (either f g) where
  nil := by simp [either, hf.nil, hg.nil]
  cons c s := by by_cases hc : p c <;> simp [either, hf.cons, hg.cons, hc]

theorem local_of_peeks (h : Peeks p f) : Local c f := by
  intro t q x y _ hf
  cases t with
  | nil =>
    rw [List.nil_append] at hf
    cases hs : q ++ x with
    | nil => simp [hs, h.nil] at hf
    | cons d s =>
      rw [hs, h.cons] at hf
      split at hf <;> cases hf
  | cons d t =>
    rw [List.cons_append, h.cons] at hf
    split at hf
    · next hd =>
      cases hf
      simp [h.cons, hd]
    · cases hf

theorem blocked_of_peeks (h : Peeks p f) (hp : p c = false) : Blocked c f := by
  intro q x y hf
  cases q with
  | nil => simp [h.cons, hp]
  | cons d q =>
    have hd : p d = false := by
      rw [List.cons_append, h.cons] at hf
      simpa using hf
    simp [h.cons, hd]

theorem takeWhile_before {u q x : Text} (hp : p c = false)
    (h : (u ++ (q ++ x)).takeWhile p = u) (y : Text) :
    (u ++ (q ++ c :: y)).takeWhile p = u ∧ (u ++ (q ++ c :: y)).dropWhile p = q ++ c :: y := by
  have hu : ∀ d ∈ u, p d = true := by
    intro d hd
    rw [← h] at hd
    exact List.mem_takeWhile_imp hd
  refine takeWhile_dropWhile_append hu fun d hd => ?_
  cases q with
  | nil =>
    cases hd
    exact hp
  | cons e q =>
    cases hd
    rw [List.takeWhile_append_of_pos hu, List.cons_append, List.append_right_eq_self] at h
    by_contra hd
    simp [hd] at h

theorem local_run (hp : p c = false) : Local c (run p) := by
  intro t q x y _ h
  have hn : t ≠ [] := finds_run p _ _ _ h
  obtain ⟨hu, hd⟩ := takeWhile_before hp (takeWhile_of_run h) y
  rw [run, hu, hd, if_neg hn]

theorem blocked_run (hp : p c = false) : Blocked c (run p) := by
  intro q x y h
  apply run_eq_none
  intro d hd
  cases q with
  | nil =>
    cases hd
    exact hp
  | cons e q =>
    cases hd
    by_contra he
    simp [run, he] at h

theorem local_atom (hp : Atom.isNamePart c = false) : Local c atom := by
  intro t q x y _ h
  cases t with
  | nil => exact absurd rfl (finds_atom _ _ _ h)
  | cons d t =>
    simp only [List.cons_append, atom] at h ⊢
    split at h
    · next hd =>
      simp only [Option.some.injEq, Prod.mk.injEq, List.cons.injEq, true_and] at h
      obtain ⟨hu, hr⟩ := takeWhile_before hp h.1 y
      rw [if_pos hd, hu, hr]
    · cases h

/-! ## One recogniser after another -/

theorem local_andThen (hf : Local c f) (hg : Local c g) (hcut : Cuts g) :
    Local c (andThen f g) := by
  intro t q x y hx h
  obtain ⟨a, r, b, ha, hb, rfl⟩ := andThen_eq_some.1 h
  have hn : b ++ q ++ x ≠ [] := by
    rw [List.append_assoc]
    exact List.append_ne_nil_of_right_ne_nil b hx
  have ha' := hf a (b ++ q) x y hn
  obtain rfl := hcut _ _ _ hb
  simp only [List.append_assoc] at ha ha' ⊢
  exact andThen_eq_some.2 ⟨a, _, b, ha' ha, hg b q x y hx hb, rfl⟩

theorem local_optional (hf : Local c f) (hb : Blocked c f) : Local c (optional f) := by
  intro t q x y hx h
  cases hs : f (t ++ (q ++ x)) with
  | some a =>
    rw [optional, hs] at h
    obtain rfl := Option.some.inj h
    rw [optional, hf t q x y hx hs]
    rfl
  | none =>
    rw [optional, hs] at h
    obtain rfl : [] = t := congrArg Prod.fst (Option.some.inj h)
    rw [optional, List.nil_append, hb q x y hs]
    rfl

theorem andThen_eq_none_iff {s a r : Text} (h : f s = some (a, r)) :
    andThen f g s = none ↔ g r = none := by
  cases hg : g r <;> simp [andThen, h, hg]

theorem blocked_andThen (hf : Peeks p f) (hp : p c = false) (hg : Blocked c g) :
    Blocked c (andThen f g) := by
  intro q x y h
  cases q with
  | nil => simp [andThen, hf.cons, hp]
  | cons d q =>
    by_cases hd : p d
    · have hs (z : Text) : f (d :: z) = some ([d], z) := by simp [hf.cons, hd]
      rw [List.cons_append, andThen_eq_none_iff (hs _)] at h ⊢
      exact hg q x y h
    · simp [andThen, hf.cons, hd]

theorem blocked_optional_andThen (hf : Peeks p f) (hp : p c = false) (hg : Blocked c g)
    (hn : g [] = none) : Blocked c (andThen (optional f) g) := by
  intro q x y h
  cases q with
  | nil =>
    have hs : optional f (c :: y) = some ([], c :: y) := by simp [optional, hf.cons, hp]
    exact (andThen_eq_none_iff hs).2 (hg [] [] y hn)
  | cons d q =>
    by_cases hd : p d
    · have hs (z : Text) : optional f (d :: z) = some ([d], z) := by simp [optional, hf.cons, hd]
      rw [List.cons_append, andThen_eq_none_iff (hs _)] at h ⊢
      exact hg q x y h
    · have hs (z : Text) : optional f (d :: z) = some ([], d :: z) := by
        simp [optional, hf.cons, hd]
      rw [List.cons_append, andThen_eq_none_iff (hs _)] at h ⊢
      exact hg (d :: q) x y h

theorem blocked_andThen_optional (hf : Blocked c f) : Blocked c (andThen f (optional g)) := by
  intro q x y h
  cases hs : f (q ++ x) with
  | none => simp [andThen, hf q x y hs]
  | some a => cases (andThen_eq_none_iff hs).1 h

/-! ## Numbers and comments -/

section Numbers

open CodePoint (eq_false_of_layoutStart)

variable (hc : c ∈ CodePoint.layoutStarts)

include hc

theorem local_digits : Local c (run CodePoint.isDigit) :=
  local_run (eq_false_of_layoutStart hc _ (by decide))

theorem blocked_digits : Blocked c (run CodePoint.isDigit) :=
  blocked_run (eq_false_of_layoutStart hc _ (by decide))

theorem local_int : Local c int := by
  have hm := peeks_single '-'
  have hb := blocked_of_peeks hm (eq_false_of_layoutStart hc (·.is '-') (by decide))
  exact local_andThen (local_optional (local_of_peeks hm) hb) (local_digits hc) (cuts_run _)

theorem local_exponent : Local c exponent := by
  have he := peeks_either (peeks_single 'e') (peeks_single 'E')
  have hs := peeks_either (peeks_single '+') (peeks_single '-')
  have hb := blocked_of_peeks hs (eq_false_of_layoutStart hc (fun d => d.is '+' || d.is '-') (by decide))
  have hsign := local_optional (local_of_peeks hs) hb
  refine local_andThen (local_of_peeks he) (local_andThen hsign (local_digits hc) (cuts_run _)) ?_
  exact cuts_andThen (cuts_optional (cuts_either (cuts_single _) (cuts_single _))) (cuts_run _)

theorem blocked_exponent : Blocked c exponent := by
  have he := peeks_either (peeks_single 'e') (peeks_single 'E')
  have hs := peeks_either (peeks_single '+') (peeks_single '-')
  have hpower := blocked_optional_andThen hs
    (eq_false_of_layoutStart hc (fun d => d.is '+' || d.is '-') (by decide)) (blocked_digits hc) rfl
  exact blocked_andThen he
    (eq_false_of_layoutStart hc (fun d => d.is 'e' || d.is 'E') (by decide)) hpower

def fraction : Text → Option (Text × Text) :=
  andThen (single '.') (andThen (run CodePoint.isDigit) (optional exponent))

def digitsInBase : Text → Option (Text × Text) :=
  andThen (single '#') (run CodePoint.isAlphanumeric)

omit hc in
theorem cuts_fraction : Cuts fraction :=
  cuts_andThen (cuts_single _) (cuts_andThen (cuts_run _) (cuts_optional cuts_exponent))

omit hc in
theorem cuts_digitsInBase : Cuts digitsInBase := cuts_andThen (cuts_single _) (cuts_run _)

theorem local_fraction : Local c fraction := by
  have ho := local_optional (local_exponent hc) (blocked_exponent hc)
  have hcut := cuts_optional cuts_exponent
  exact local_andThen (local_of_peeks (peeks_single '.')) (local_andThen (local_digits hc) ho hcut)
    (cuts_andThen (cuts_run _) hcut)

theorem blocked_fraction : Blocked c fraction :=
  blocked_andThen (peeks_single '.') (eq_false_of_layoutStart hc (·.is '.') (by decide))
    (blocked_andThen_optional (blocked_digits hc))

theorem local_digitsInBase : Local c digitsInBase :=
  local_andThen (local_of_peeks (peeks_single '#'))
    (local_run (eq_false_of_layoutStart hc _ (by decide))) (cuts_run _)

theorem blocked_digitsInBase : Blocked c digitsInBase :=
  blocked_andThen (peeks_single '#') (eq_false_of_layoutStart hc (·.is '#') (by decide))
    (blocked_run (eq_false_of_layoutStart hc _ (by decide)))

end Numbers

theorem optional_run (p : CodePoint → Bool) (s : Text) :
    optional (run p) s = some (s.takeWhile p, s.dropWhile p) := by
  by_cases hn : s.takeWhile p = []
  · have hs := List.takeWhile_append_dropWhile (p := p) (l := s)
    rw [hn, List.nil_append] at hs
    simp [optional, run, hn, hs]
  · simp [optional, run, hn]

theorem comment_eq_some_iff {s t q : Text} :
    comment s = some (t, q) ↔ ∃ u, t = .ofChar '%' :: u ∧ s = t ++ q ∧ (∀ d ∈ u, d ≠ .newline) ∧
      ∀ d ∈ q.head?, d = .newline := by
  constructor
  · intro h
    obtain ⟨a, z, u, ha, hu, rfl⟩ := andThen_eq_some.1 h
    rw [optional_run] at hu
    cases hu
    cases s with
    | nil => cases ha
    | cons d s =>
      obtain rfl := single_cons ha
      cases ha
      refine ⟨_, rfl, by simp, fun d hd => by simpa using List.mem_takeWhile_imp hd, ?_⟩
      intro d hd
      have hn := List.head?_dropWhile_not (· ≠ CodePoint.newline) z
      rw [hd] at hn
      simpa using hn
  · rintro ⟨u, rfl, rfl, hu, hq⟩
    obtain ⟨ht, hd⟩ : (u ++ q).takeWhile (· ≠ CodePoint.newline) = u ∧
        (u ++ q).dropWhile (· ≠ CodePoint.newline) = q :=
      takeWhile_dropWhile_append (by simpa using hu) (by simpa using hq)
    refine andThen_eq_some.2 ⟨[.ofChar '%'], u ++ q, u, by simp [single, CodePoint.is_iff], ?_, rfl⟩
    rw [optional_run, ht, hd]

theorem layout_comment {s t q q' : Text} (h : comment s = some (t, q))
    (hq : ∀ d ∈ q'.head?, d = .newline) : layout (t ++ q') = some (t, q') := by
  obtain ⟨u, rfl, -, hu, -⟩ := comment_eq_some_iff.1 h
  have hr : run CodePoint.isLayout (.ofChar '%' :: u ++ q') = none := run_eq_none (by simp; decide)
  exact Option.or_eq_some_iff.2 (.inr ⟨hr, comment_eq_some_iff.2 ⟨u, rfl, rfl, hu, hq⟩⟩)

/-! ## Text between marks, and characters -/

theorem untilMark_append {mark : CodePoint} {s t r : Text} (h : untilMark mark s = some (t, r))
    (z : Text) : untilMark mark (t ++ z) = some (t, z) := by
  fun_induction untilMark mark s generalizing t r with
  | case1 | case3 | case4 => cases h
  | case2 =>
    cases h
    rw [untilMark.eq_def]
    simp
  | case5 d s hd hm ih =>
    obtain ⟨⟨u, q⟩, hu, he⟩ := Option.map_eq_some_iff.1 h
    cases he
    rw [untilMark.eq_def]
    simp [hm, hd, ih hu]
  | case6 c s hm hb ih =>
    obtain ⟨⟨u, q⟩, hu, he⟩ := Option.map_eq_some_iff.1 h
    cases he
    rw [untilMark.eq_def]
    simp [hm, hb, ih hu]

theorem local_quoted (mark : CodePoint) : Local c (quoted mark) := by
  intro t q x y _ h
  cases t with
  | nil => exact absurd rfl (finds_quoted mark _ _ _ h)
  | cons d t =>
    simp only [List.cons_append, quoted] at h ⊢
    split at h
    · next hd =>
      obtain ⟨⟨u, r⟩, hu, he⟩ := Option.map_eq_some_iff.1 h
      cases he
      rw [if_pos hd, untilMark_append hu]
      rfl
    · cases h

end Lexeme

namespace Escape

open Lexeme CodePoint

variable {c : CodePoint} (hc : c ∈ layoutStarts)

include hc

theorem blocked_splitBraced : Blocked c splitBraced := by
  intro q x y h
  refine Option.eq_none_iff_forall_ne_some.2 fun ⟨ds, r⟩ hs => ?_
  obtain ⟨hn, hd⟩ := isHex_of_splitBraced hs
  obtain ⟨b, hb, he⟩ := splitBraced_eq hs
  have hx : c.isHex = false := eq_false_of_layoutStart hc _ (by decide)
  have hne : c ≠ b := by
    rintro rfl
    rw [eq_false_of_layoutStart hc (·.is '\x7d') (by decide)] at hb
    cases hb
  obtain rfl := is_iff.1 hb
  -- `c` is no digit and no brace, so all that is found stands before it
  obtain ⟨as, rfl, ha⟩ | ⟨bs, rfl, hb⟩ := List.append_eq_append_iff.1 he
  · cases as with
    | nil => exact absurd (List.cons_eq_cons.1 ha).1 hne
    | cons a as =>
      obtain rfl := (List.cons_eq_cons.1 ha).1
      rw [hd c (by simp)] at hx
      cases hx
  · cases bs with
    | nil => exact absurd (List.cons_eq_cons.1 hb).1.symm hne
    | cons b bs =>
      obtain rfl := (List.cons_eq_cons.1 hb).1
      rw [List.append_assoc, List.cons_append, splitBraced_append hn hd] at h
      cases h

theorem blocked_splitHex : Blocked c splitHex := by
  intro q x y h
  have hx : c.isHex = false := eq_false_of_layoutStart hc _ (by decide)
  have hb : c.is '\x7b' = false := eq_false_of_layoutStart hc (·.is '\x7b') (by decide)
  cases q with
  | nil => cases y <;> simp [splitHex, hb, hx]
  | cons a q =>
    by_cases ha : a.is '\x7b'
    · simp only [List.cons_append, splitHex, ha, if_true, Option.map_eq_none_iff] at h ⊢
      exact blocked_splitBraced hc q x y h
    · cases q with
      | nil => simp [splitHex, ha, hx]
      | cons b q => simpa [splitHex, ha] using h

theorem split_before {e : Escape} {q x : Text} (hx : q ++ x ≠ [])
    (h : split (e.spelling ++ (q ++ x)) = some (e, q ++ x)) (y : Text) :
    split (e.spelling ++ (q ++ c :: y)) = some (e, q ++ c :: y) := by
  cases wellFormed_of_split h with
  | control d => rfl
  | braced hn hd => exact split_braced hn hd _
  | pair ha hb => exact split_pair ha hb _
  | @octal ds hn hl ho =>
    refine (split_octal_iff hn hl ho).2 (((split_octal_iff hn hl ho).1 h).imp_right fun hr => ?_)
    cases q with
    | nil =>
      intro d hd
      cases hd
      exact eq_false_of_layoutStart hc _ (by decide)
    | cons d q => exact hr
  | @plain d ho =>
    simp only [spelling, List.cons_append, List.nil_append, split] at h ⊢
    by_cases hd : d.is '^'
    · simp only [hd, if_true] at h
      cases hs : q ++ x with
      | nil => exact absurd hs hx
      | cons a z =>
        rw [hs] at h
        cases h
    · by_cases hx' : d.is 'x'
      · simp only [hd, hx', if_true] at h ⊢
        cases hs : splitHex (q ++ x) with
        | none => simp [blocked_splitHex hc q x y hs]
        | some p =>
          rw [hs] at h
          obtain rfl := Option.some.inj h
          obtain ⟨ds, he, -⟩ | ⟨a, b, he, -⟩ := splitHex_eq_some hs <;> cases he
      · simp [hd, hx', splitOctal_eq_none ho]

end Escape

section Tokens

variable {c : CodePoint} (hc : c ∈ CodePoint.layoutStarts)

include hc

theorem Lexeme.local_char : Local c char := by
  intro t q x y hx h
  obtain ⟨d, rfl, hd⟩ | ⟨e, he, rfl⟩ := char_eq_some h
  · have hb : d ≠ .backslash := fun hb => hx (hd hb)
    simp [char, CodePoint.is_iff, hb]
  · have hs := Escape.split_before hc hx he y
    simp [char, CodePoint.is_iff, hs]

/-! ## Tokens -/

theorem Kind.local_lexeme? (k : Kind) : Local c k.lexeme? := by
  cases k with
  | finish =>
    intro t q x y _ h
    cases h
  | literal l =>
    cases l with
    | atom => exact Lexeme.local_atom (CodePoint.eq_false_of_layoutStart hc _ (by decide))
    | quotedAtom => exact Lexeme.local_quoted _
    | int => exact Lexeme.local_int hc
    | basedInt =>
      exact Lexeme.local_andThen (Lexeme.local_int hc) (Lexeme.local_digitsInBase hc)
        Lexeme.cuts_digitsInBase
    | float =>
      exact Lexeme.local_andThen (Lexeme.local_int hc) (Lexeme.local_fraction hc)
        Lexeme.cuts_fraction
    | char => exact Lexeme.local_char hc
  | string => exact Lexeme.local_quoted _
  | _ => exact Lexeme.local_of_peeks (Lexeme.peeks_single _)

theorem number_eq_none {g : Text → Option (Text × Text)} (hg : Blocked c g) {a q x : Text}
    (hx : q ++ x ≠ []) (hi : Lexeme.int (a ++ (q ++ x)) = some (a, q ++ x))
    (h : Lexeme.andThen Lexeme.int g (a ++ (q ++ x)) = none) (y : Text) :
    Lexeme.andThen Lexeme.int g (a ++ (q ++ c :: y)) = none := by
  rw [Lexeme.andThen_eq_none_iff hi] at h
  exact (Lexeme.andThen_eq_none_iff (Lexeme.local_int hc a q x y hx hi)).2 (hg q x y h)

omit hc in
theorem Kind.int_of_lexeme? {k : Kind} {s t r : Text} (hf : k.family = .literal .int)
    (h : k.lexeme? s = some (t, r)) :
    ∃ a b, t = a ++ b ∧ Lexeme.int s = some (a, b ++ r) := by
  have first {g : Text → Option (Text × Text)} (hcut : Cuts g)
      (h : Lexeme.andThen Lexeme.int g s = some (t, r)) :
      ∃ a b, t = a ++ b ∧ Lexeme.int s = some (a, b ++ r) := by
    obtain ⟨a, q, b, ha, hb, rfl⟩ := Lexeme.andThen_eq_some.1 h
    obtain rfl := hcut _ _ _ hb
    exact ⟨a, b, rfl, ha⟩
  cases k with
  | literal l =>
    cases l with
    | int => exact ⟨t, [], by simp, h⟩
    | basedInt => exact first Lexeme.cuts_digitsInBase h
    | float => exact first Lexeme.cuts_fraction h
    | _ => cases hf
  | _ => cases hf

theorem Kind.Leads.before {k : Kind} {t q x : Text} (h : k.Leads (t ++ (q ++ x)) t (q ++ x))
    (hx : q ++ x ≠ []) (y : Text) : k.Leads (t ++ (q ++ c :: y)) t (q ++ c :: y) := by
  have hl := k.local_lexeme? hc t q x y hx h.1
  by_cases hf : k.family = .literal .int
  · refine ⟨hl, fun k' hp => ?_⟩
    have hn := h.2 k' hp
    obtain ⟨a, b, rfl, hi⟩ := int_of_lexeme? hf h.1
    have hbx : b ++ q ++ x ≠ [] := by
      rw [List.append_assoc]
      exact List.append_ne_nil_of_right_ne_nil b hx
    have hk : 0 < k.priority := by
      cases k with
      | literal l => cases l <;> first | decide | cases hf
      | _ => cases hf
    simp only [List.append_assoc] at hi hn ⊢
    rw [← List.append_assoc b] at hi hn ⊢
    cases k' with
    | literal l =>
      cases l with
      | float => exact number_eq_none hc (Lexeme.blocked_fraction hc) hbx hi hn y
      | basedInt => exact number_eq_none hc (Lexeme.blocked_digitsInBase hc) hbx hi hn y
      | int => exact absurd hk (Nat.not_lt.2 (Nat.le_of_lt_succ hp))
      | _ => exact absurd hp (Nat.not_lt_zero _)
    | _ => exact absurd hp (Nat.not_lt_zero _)
  · exact leads_of_lexeme? hf hl

/-- Only the end of a text can cut a token short, and never a dot. -/
theorem Kind.Leads.before_of_dot {k : Kind} {t q x : Text}
    (h : k.Leads (t ++ (q ++ x)) t (q ++ x)) (hd : q ++ x = [] → k = .dot) (y : Text) :
    k.Leads (t ++ (q ++ c :: y)) t (q ++ c :: y) := by
  by_cases hx : q ++ x = []
  · obtain rfl := hd hx
    have ht := h.1
    rw [hx] at ht
    cases t with
    | nil => cases ht
    | cons d t =>
      obtain rfl := Lexeme.single_cons ht
      cases ht
      exact Kind.leads_of_lexeme? (by decide) rfl
  · exact h.before hc hx y

end Tokens

end EnumForms
