import EnumForms.Reader
import Mathlib.Data.List.Basic

/-!
The token at the front of a text is the same wherever the reader stands: kinds that start alike are
all looked for or none of them. A text is cut into layout and tokens without a reader, by taking at
each point the kind of the highest priority.
-/
namespace EnumForms

namespace Kind

def priority : Kind → Nat
  | .literal .float => 3
  | .literal .basedInt => 2
  | .literal .int => 1
  | _ => 0

/-- Numbers start alike; all other kinds have starts of their own. -/
def family : Kind → Kind
  | .literal .float | .literal .basedInt => .literal .int
  | k => k

def ofFamily (f : Kind) : Nat → Kind
  | 3 => .literal .float
  | 2 => .literal .basedInt
  | _ => f

theorem ofFamily_family (k : Kind) : ofFamily k.family k.priority = k := by
  cases k with
  | literal l => cases l <;> rfl
  | _ => rfl

theorem eq_of_family_priority {a b : Kind} (hf : a.family = b.family)
    (hp : a.priority = b.priority) : a = b := by
  rw [← ofFamily_family a, ← ofFamily_family b, hf, hp]

theorem mem_byPriority {k : Kind} (h : k ≠ .finish) : k ∈ byPriority := by
  cases k with
  | finish => exact absurd rfl h
  | literal l => cases l <;> decide
  | _ => decide

theorem mem_all (k : Kind) : k ∈ all := by
  cases k with
  | literal l => cases l <;> decide
  | _ => decide

theorem byPriority_sorted : byPriority.Pairwise fun a b => b.priority ≤ a.priority := by decide

end Kind

def CodePoint.family? (c : CodePoint) : Option Kind :=
  if c.isLowerLetter then some (.literal .atom)
  else if c.isDigit || c.is '-' then some (.literal .int)
  else if c.is '\x27' then some (.literal .quotedAtom)
  else if c.is '$' then some (.literal .char)
  else if c.is '\x22' then some .string
  else if c.is '\x7b' then some .openTuple
  else if c.is '\x7d' then some .closeTuple
  else if c.is '[' then some .openList
  else if c.is ']' then some .closeList
  else if c.is ',' then some .comma
  else if c.is '|' then some .bar
  else if c.is '.' then some .dot
  else none

namespace Lexeme

theorem single_cons {ch : Char} {c : CodePoint} {s : Text} {p : Text × Text}
    (h : single ch (c :: s) = some p) : c = .ofChar ch := by
  simp only [single] at h
  split at h
  · next hc => exact CodePoint.is_iff.1 hc
  · cases h

theorem run_cons {q : CodePoint → Bool} {c : CodePoint} {s : Text} {p : Text × Text}
    (h : run q (c :: s) = some p) : q c = true := by
  by_contra hq
  simp [run, hq] at h

theorem takeWhile_dropWhile_append {p : CodePoint → Bool} {u rest : Text}
    (hu : ∀ c ∈ u, p c = true) (hr : ∀ c ∈ rest.head?, p c = false) :
    (u ++ rest).takeWhile p = u ∧ (u ++ rest).dropWhile p = rest := by
  rw [List.takeWhile_append_of_pos hu, List.dropWhile_append_of_pos hu]
  cases rest with
  | nil => simp
  | cons c rest => simp [hr c rfl]

theorem andThen_eq_some {f g : Text → Option (Text × Text)} {s t r : Text} :
    andThen f g s = some (t, r) ↔
      ∃ a q b, f s = some (a, q) ∧ g q = some (b, r) ∧ t = a ++ b := by
  unfold andThen
  constructor
  · intro h
    split at h
    · cases h
    · next a q ha =>
      split at h
      · cases h
      · next b q' hb => cases h; exact ⟨a, q, b, ha, hb, rfl⟩
  · rintro ⟨a, q, b, ha, hb, rfl⟩
    simp [ha, hb]

theorem int_cons {c : CodePoint} {s : Text} {p : Text × Text} (h : int (c :: s) = some p) :
    (c.isDigit || c.is '-') = true := by
  obtain ⟨a, q, b, ha, hb, -⟩ := andThen_eq_some.1 h
  simp only [optional, Option.some.injEq] at ha
  cases hm : single '-' (c :: s) with
  | none => rw [hm] at ha; cases ha; simp [run_cons hb]
  | some p' => simp [single_cons hm, CodePoint.is_iff]

end Lexeme

theorem Kind.family_of_lexeme? {k : Kind} {c : CodePoint} {s t r : Text}
    (h : k.lexeme? (c :: s) = some (t, r)) : c.family? = some k.family := by
  have number (hn : (c.isDigit || c.is '-') = true) : c.family? = some (.literal .int) := by
    have hl : c.isLowerLetter = false := by
      simp only [CodePoint.isDigit, CodePoint.is, CodePoint.isLowerLetter] at *
      grind
    simp [CodePoint.family?, hl, hn]
  cases k with
  | finish => cases h
  | literal l =>
    cases l with
    | atom =>
      simp only [lexeme?, Lexeme.atom] at h
      split at h
      · next hc => simp [CodePoint.family?, hc, family]
      · cases h
    | quotedAtom =>
      simp only [lexeme?, Lexeme.quoted] at h
      split at h
      · next hc => subst hc; rfl
      · cases h
    | int => exact number (Lexeme.int_cons h)
    | basedInt =>
      obtain ⟨a, q, b, ha, -⟩ := Lexeme.andThen_eq_some.1 h
      exact number (Lexeme.int_cons ha)
    | float =>
      obtain ⟨a, q, b, ha, -⟩ := Lexeme.andThen_eq_some.1 h
      exact number (Lexeme.int_cons ha)
    | char =>
      cases s with
      | nil => cases h
      | cons d s =>
        simp only [lexeme?, Lexeme.char] at h
        split at h
        · next hc => rw [CodePoint.is_iff.1 hc]; rfl
        · cases h
  | string =>
    simp only [lexeme?, Lexeme.quoted] at h
    split at h
    · next hc => subst hc; rfl
    · cases h
  | _ => rw [Lexeme.single_cons h]; rfl

theorem Kind.family_eq {k k' : Kind} {s t r t' r' : Text} (h : k.lexeme? s = some (t, r))
    (h' : k'.lexeme? s = some (t', r')) : k.family = k'.family := by
  cases s with
  | nil =>
    have hc := k.cuts_lexeme? _ _ _ h
    exact absurd (List.append_eq_nil_iff.1 hc.symm).1 (k.finds_lexeme? _ _ _ h)
  | cons c s => exact Option.some.inj ((family_of_lexeme? h).symm.trans (family_of_lexeme? h'))

/-- The kind matches at the front of a text, and no kind of a higher priority does. -/
def Kind.Leads (k : Kind) (s t r : Text) : Prop :=
  k.lexeme? s = some (t, r) ∧ ∀ k' : Kind, k.priority < k'.priority → k'.lexeme? s = none

theorem Kind.Leads.unique {k k' : Kind} {s t r t' r' : Text} (h : k.Leads s t r)
    (h' : k'.Leads s t' r') : k = k' ∧ t = t' ∧ r = r' := by
  -- the priorities agree, and in one family the priority tells the kind
  have hle : k'.priority ≤ k.priority := by
    by_contra hlt
    have hn := h.2 k' (by omega)
    rw [h'.1] at hn
    cases hn
  have hge : k.priority ≤ k'.priority := by
    by_contra hlt
    have hn := h'.2 k (by omega)
    rw [h.1] at hn
    cases hn
  obtain rfl := eq_of_family_priority (family_eq h.1 h'.1) (by omega)
  have he := h.1.symm.trans h'.1
  simp only [Option.some.injEq, Prod.mk.injEq] at he
  exact ⟨rfl, he⟩

def Uniform (allowed : List Kind) : Prop :=
  ∀ k ∈ allowed, ∀ k' : Kind, k'.family = k.family → k' ∈ allowed

instance (allowed : List Kind) : Decidable (Uniform allowed) :=
  decidable_of_iff
    (∀ k ∈ allowed, ∀ k' ∈ Kind.all, k'.family = k.family → k' ∈ allowed)
    ⟨fun h k hk k' => h k hk k' (Kind.mem_all k'), fun h k hk k' _ => h k hk k'⟩

theorem scan_leads {allowed : List Kind} (hu : Uniform allowed) {s t r : Text} {k : Kind}
    (h : scan allowed s = some (k, t, r)) : k.Leads s t r := by
  have hk := scan_eq_some h
  refine ⟨hk.2, fun k' hp => Option.eq_none_iff_forall_ne_some.2 fun ⟨t', r'⟩ h' => ?_⟩
  have hm : k' ∈ Kind.byPriority.filter allowed.contains := by
    have hf : k' ≠ .finish := by rintro rfl; cases h'
    simp only [List.mem_filter, List.contains_iff_mem]
    exact ⟨Kind.mem_byPriority hf, hu k hk.1 k' (Kind.family_eq h' hk.2)⟩
  -- the kinds before `k` do not match, and those after it are not of a higher priority
  obtain ⟨before, k₀, after, hl, hs, hb⟩ := List.findSome?_eq_some_iff.1 h
  rw [Option.map_eq_some_iff] at hs
  obtain ⟨_, _, he⟩ := hs
  cases he
  have hsorted := Kind.byPriority_sorted.filter allowed.contains
  rw [hl] at hm hsorted
  rcases List.mem_append.1 hm with hm | hm
  · have := hb k' hm
    simp [h'] at this
  · rcases List.mem_cons.1 hm with rfl | hm
    · omega
    · have := (List.pairwise_cons.1 (List.pairwise_append.1 hsorted).2.1).1 k' hm
      omega

/-- Which token is found depends on the kinds looked for only in whether it is one of them. -/
theorem scan_eq_some_iff {allowed : List Kind} (hu : Uniform allowed) {s t r : Text} {k : Kind} :
    scan allowed s = some (k, t, r) ↔ k ∈ allowed ∧ k.Leads s t r := by
  constructor
  · exact fun h => ⟨(scan_eq_some h).1, scan_leads hu h⟩
  · rintro ⟨hm, hl⟩
    cases hs : scan allowed s with
    | none =>
      have hf : k ≠ .finish := by rintro rfl; cases hl.1
      have := List.findSome?_eq_none_iff.1 hs k
        (by simp only [List.mem_filter, List.contains_iff_mem]; exact ⟨Kind.mem_byPriority hf, hm⟩)
      simp [hl.1] at this
    | some p =>
      obtain ⟨k', t', r'⟩ := p
      obtain ⟨rfl, rfl, rfl⟩ := hl.unique (scan_leads hu hs)
      rfl

theorem family?_of_layout {c : CodePoint} {s t r : Text}
    (h : Lexeme.layout (c :: s) = some (t, r)) : c.family? = none := by
  have hc : c.isLayout = true ∨ c = .ofChar '%' := by
    simp only [Lexeme.layout, Lexeme.either, Option.or_eq_some_iff] at h
    rcases h with h | ⟨-, h⟩
    · exact .inl (Lexeme.run_cons h)
    · obtain ⟨a, q, b, ha, -⟩ := Lexeme.andThen_eq_some.1 h
      exact .inr (Lexeme.single_cons ha)
  rcases hc with hc | rfl
  · simp only [CodePoint.isLayout, Bool.or_eq_true, beq_iff_eq] at hc
    obtain ⟨n, hn⟩ := c
    rcases hc with (((rfl | rfl) | rfl) | rfl) | rfl <;> rfl
  · rfl

theorem Kind.Leads.layout_eq_none {k : Kind} {s t r : Text} (h : k.Leads s t r) :
    Lexeme.layout s = none := by
  cases s with
  | nil => rfl
  | cons c s =>
    refine Option.eq_none_iff_forall_ne_some.2 fun ⟨t', r'⟩ h' => ?_
    cases (family_of_lexeme? h.1).symm.trans (family?_of_layout h')

/-- A text is cut into these tokens, with layout before, between and after them. -/
inductive Lexed : Place → Text → List Token → Prop where
  | done {p : Place} : Lexed p [] []
  | layout {p : Place} {s t r : Text} {ts : List Token} :
      Lexeme.layout s = some (t, r) → Lexed (p.advance t) r ts → Lexed p s ts
  | token {p : Place} {s t r : Text} {k : Kind} {ts : List Token} :
      k.Leads s t r → Lexed (p.advance t) r ts → Lexed p s (⟨k, t, p⟩ :: ts)

namespace Lexed

variable {p : Place} {s t r : Text} {ts : List Token}

theorem iff_of_leads {k : Kind} (h : k.Leads s t r) :
    Lexed p s ts ↔ ∃ more, ts = ⟨k, t, p⟩ :: more ∧ Lexed (p.advance t) r more := by
  constructor
  · intro hx
    cases hx with
    | done =>
      have hc := k.cuts_lexeme? _ _ _ h.1
      exact absurd (List.append_eq_nil_iff.1 hc.symm).1 (k.finds_lexeme? _ _ _ h.1)
    | layout hl _ => cases hl.symm.trans h.layout_eq_none
    | token hk hx =>
      obtain ⟨rfl, rfl, rfl⟩ := h.unique hk
      exact ⟨_, rfl, hx⟩
  · rintro ⟨more, rfl, hx⟩
    exact .token h hx

theorem iff_of_layout (h : Lexeme.layout s = some (t, r)) :
    Lexed p s ts ↔ Lexed (p.advance t) r ts := by
  constructor
  · intro hx
    cases hx with
    | done => cases h
    | layout hl hx =>
      cases h.symm.trans hl
      exact hx
    | token hk _ => cases h.symm.trans hk.layout_eq_none
  · exact .layout h

theorem of_scan {k : Kind} (h : scan Kind.all s = some (k, t, r)) (hr : Lexed (p.advance t) r ts) :
    Lexed p s (⟨k, t, p⟩ :: ts) :=
  .token (scan_leads (fun _ _ k' _ => Kind.mem_all k') h) hr

theorem dropWhile_iff : Lexed (p.advance (s.takeWhile CodePoint.isLayout))
    (s.dropWhile CodePoint.isLayout) ts ↔ Lexed p s ts := by
  by_cases hn : s.takeWhile CodePoint.isLayout = []
  · have hs := List.takeWhile_append_dropWhile (p := CodePoint.isLayout) (l := s)
    rw [hn, List.nil_append] at hs
    rw [hn, hs]
    rfl
  · have hl : Lexeme.layout s =
        some (s.takeWhile CodePoint.isLayout, s.dropWhile CodePoint.isLayout) := by
      simp [Lexeme.layout, Lexeme.either, Lexeme.run, hn]
    exact (iff_of_layout hl).symm

theorem layout_cons_iff {c : CodePoint} (hc : c.isLayout = true) :
    Lexed p (c :: s) ts ↔ Lexed (p.next c) s ts := by
  have hl : Lexeme.layout (c :: s) =
      some (c :: s.takeWhile CodePoint.isLayout, s.dropWhile CodePoint.isLayout) := by
    simp [Lexeme.layout, Lexeme.either, Lexeme.run, hc]
  exact (iff_of_layout hl).trans dropWhile_iff

theorem newline_cons_iff : Lexed p (.newline :: s) ts ↔ Lexed (p.next .newline) s ts :=
  layout_cons_iff (by decide)

end Lexed

end EnumForms
