import EnumForms.Token

/-!
A token and what follows it make up the text they were cut from, and no token is empty. So scanning
always goes forward.
-/
namespace EnumForms

def Cuts (f : Text → Option (Text × Text)) : Prop := ∀ s t r, f s = some (t, r) → s = t ++ r

def Finds (f : Text → Option (Text × Text)) : Prop := ∀ s t r, f s = some (t, r) → t ≠ []

namespace Lexeme

theorem cuts_run (p : CodePoint → Bool) : Cuts (run p) := by
  intro s t r h
  unfold run at h
  split at h
  · cases h
  · cases h; exact List.takeWhile_append_dropWhile.symm

theorem finds_run (p : CodePoint → Bool) : Finds (run p) := by
  intro s t r h
  unfold run at h
  split at h
  · cases h
  · next hn => cases h; exact hn

theorem cuts_single (ch : Char) : Cuts (single ch) := by
  intro s t r h
  cases s <;> simp only [single] at h
  · cases h
  · split at h <;> cases h; rfl

theorem finds_single (ch : Char) : Finds (single ch) := by
  intro s t r h
  cases s <;> simp only [single] at h
  · cases h
  · split at h <;> cases h; simp

theorem cuts_andThen {f g : Text → Option (Text × Text)} (hf : Cuts f) (hg : Cuts g) :
    Cuts (andThen f g) := by
  intro s t r h
  unfold andThen at h
  split at h
  · cases h
  · next a q ha =>
    split at h
    · cases h
    · next b q' hb =>
      cases h
      rw [hf _ _ _ ha, hg _ _ _ hb, List.append_assoc]

theorem finds_andThen_left {f g : Text → Option (Text × Text)} (hf : Finds f) :
    Finds (andThen f g) := by
  intro s t r h
  unfold andThen at h
  split at h
  · cases h
  · next a q ha =>
    split at h
    · cases h
    · cases h
      simp [hf _ _ _ ha]

theorem finds_andThen_right {f g : Text → Option (Text × Text)} (hg : Finds g) :
    Finds (andThen f g) := by
  intro s t r h
  unfold andThen at h
  split at h
  · cases h
  · split at h
    · cases h
    · next b q' hb =>
      cases h
      simp [hg _ _ _ hb]

theorem cuts_optional {f : Text → Option (Text × Text)} (hf : Cuts f) : Cuts (optional f) := by
  intro s t r h
  simp only [optional, Option.some.injEq] at h
  cases hs : f s with
  | none => rw [hs] at h; cases h; rfl
  | some p => rw [hs] at h; cases h; exact hf _ _ _ hs

theorem cuts_either {f g : Text → Option (Text × Text)} (hf : Cuts f) (hg : Cuts g) :
    Cuts (either f g) := by
  intro s t r h
  simp only [either, Option.or_eq_some_iff] at h
  rcases h with h | ⟨_, h⟩
  · exact hf _ _ _ h
  · exact hg _ _ _ h

theorem finds_either {f g : Text → Option (Text × Text)} (hf : Finds f) (hg : Finds g) :
    Finds (either f g) := by
  intro s t r h
  simp only [either, Option.or_eq_some_iff] at h
  rcases h with h | ⟨_, h⟩
  · exact hf _ _ _ h
  · exact hg _ _ _ h

theorem cuts_atom : Cuts atom := by
  intro s t r h
  cases s <;> simp only [atom] at h
  · cases h
  · split at h <;> cases h
    rw [List.cons_append, List.takeWhile_append_dropWhile]

theorem finds_atom : Finds atom := by
  intro s t r h
  cases s <;> simp only [atom] at h
  · cases h
  · split at h <;> cases h
    simp

theorem cuts_int : Cuts int := cuts_andThen (cuts_optional (cuts_single _)) (cuts_run _)

theorem finds_int : Finds int := finds_andThen_right (finds_run _)

theorem cuts_exponent : Cuts exponent :=
  cuts_andThen (cuts_either (cuts_single _) (cuts_single _))
    (cuts_andThen (cuts_optional (cuts_either (cuts_single _) (cuts_single _))) (cuts_run _))

theorem cuts_untilMark (mark : CodePoint) : Cuts (untilMark mark) := by
  intro s
  fun_induction untilMark mark s <;> intro t r h <;> simp_all <;> grind

theorem cuts_quoted (mark : CodePoint) : Cuts (quoted mark) := by
  intro s t r h
  cases s <;> simp only [quoted] at h
  · cases h
  · split at h
    · rw [Option.map_eq_some_iff] at h
      obtain ⟨⟨a, b⟩, hb, he⟩ := h
      cases he
      rw [cuts_untilMark mark _ _ _ hb, List.cons_append]
    · cases h

theorem finds_quoted (mark : CodePoint) : Finds (quoted mark) := by
  intro s t r h
  cases s <;> simp only [quoted] at h
  · cases h
  · split at h
    · rw [Option.map_eq_some_iff] at h
      obtain ⟨_, _, he⟩ := h
      cases he
      simp
    · cases h

theorem cuts_char : Cuts char := by
  intro s t r h
  unfold char at h
  split at h
  · split at h
    · split at h
      · split at h
        · next he => cases h; rw [Escape.split_eq he]; rfl
        · cases h; rfl
      · cases h; rfl
    · cases h
  · cases h

theorem finds_char : Finds char := by
  intro s t r h
  unfold char at h
  split at h
  · split at h
    · split at h
      · split at h <;> cases h <;> simp
      · cases h; simp
    · cases h
  · cases h

theorem cuts_layout : Cuts layout :=
  cuts_either (cuts_run _) (cuts_andThen (cuts_single _) (cuts_optional (cuts_run _)))

theorem finds_layout : Finds layout :=
  finds_either (finds_run _) (finds_andThen_left (finds_single _))

end Lexeme

open Lexeme

theorem Kind.cuts_lexeme? (k : Kind) : Cuts k.lexeme? := by
  cases k with
  | finish => intro s t r h; cases h
  | literal l =>
    cases l with
    | atom => exact cuts_atom
    | quotedAtom => exact cuts_quoted _
    | int => exact cuts_int
    | basedInt => exact cuts_andThen cuts_int (cuts_andThen (cuts_single _) (cuts_run _))
    | float =>
      exact cuts_andThen cuts_int
        (cuts_andThen (cuts_single _) (cuts_andThen (cuts_run _) (cuts_optional cuts_exponent)))
    | char => exact cuts_char
  | string => exact cuts_quoted _
  | _ => exact cuts_single _

theorem Kind.finds_lexeme? (k : Kind) : Finds k.lexeme? := by
  cases k with
  | finish => intro s t r h; cases h
  | literal l =>
    cases l with
    | atom => exact finds_atom
    | quotedAtom => exact finds_quoted _
    | int => exact finds_int
    | basedInt => exact finds_andThen_left finds_int
    | float => exact finds_andThen_left finds_int
    | char => exact finds_char
  | string => exact finds_quoted _
  | _ => exact finds_single _

/-- What the scanner returns is a token of an allowed kind. -/
theorem scan_eq_some {allowed : List Kind} {s t r : Text} {k : Kind}
    (h : scan allowed s = some (k, t, r)) : k ∈ allowed ∧ k.lexeme? s = some (t, r) := by
  obtain ⟨k', hk, hl⟩ := List.exists_of_findSome?_eq_some h
  rw [Option.map_eq_some_iff] at hl
  obtain ⟨⟨a, b⟩, hl, he⟩ := hl
  cases he
  simp only [List.mem_filter, List.contains_iff_mem] at hk
  exact ⟨hk.2, hl⟩

theorem length_lt_of_cut {f : Text → Option (Text × Text)} (hc : Cuts f) (hf : Finds f)
    {s t r : Text} (h : f s = some (t, r)) : r.length < s.length := by
  have ht := List.length_pos_iff.2 (hf _ _ _ h)
  rw [hc _ _ _ h, List.length_append]
  omega

theorem layout_length {s t r : Text} (h : Lexeme.layout s = some (t, r)) : r.length < s.length :=
  length_lt_of_cut cuts_layout finds_layout h

theorem scan_length {allowed : List Kind} {s t r : Text} {k : Kind}
    (h : scan allowed s = some (k, t, r)) : r.length < s.length :=
  length_lt_of_cut k.cuts_lexeme? k.finds_lexeme? (scan_eq_some h).2

end EnumForms
