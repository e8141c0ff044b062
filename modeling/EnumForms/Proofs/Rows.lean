import EnumForms.Text.Lines

/-!
Rows and lines. A row ends at a line feed, and places count rows; a line, as it is shown, ends at any
kind of line break. The lines of a text are those of its rows, one row after the other. A row is a
single line if nothing breaks it, but for a carriage return that goes with its line feed.
-/
namespace EnumForms.Text

open CodePoint (carriageReturn newline)

def Unbroken (t : Text) : Prop := ∀ c ∈ t, c.isLineBreak = false

instance (t : Text) : Decidable (Unbroken t) :=
  inferInstanceAs (Decidable (∀ c ∈ t, c.isLineBreak = false))

/-- With a line feed after it the row is a single line. -/
def Whole (row : Text) : Prop := ∃ t, Unbroken t ∧ (row = t ∨ row = t ++ [carriageReturn])

def rows (t : Text) : List Text := t.splitOn newline

def ended (rows : List Text) : Text := rows.flatMap (· ++ [newline])

variable {c : CodePoint} {r s : Text} {rs : List Text}

theorem unbroken_cons_iff : Unbroken (c :: r) ↔ c.isLineBreak = false ∧ Unbroken r :=
  List.forall_mem_cons

theorem whole_cons_iff (hc : c.isLineBreak = false) : Whole (c :: r) ↔ Whole r := by
  have hr : c ≠ carriageReturn := by
    rintro rfl
    cases hc
  constructor
  · rintro ⟨t, ht, he⟩
    cases t with
    | nil => simp [hr] at he
    | cons d t =>
      simp only [List.cons_append, List.cons.injEq] at he
      exact ⟨t, (unbroken_cons_iff.1 ht).2, he.imp And.right And.right⟩
  · rintro ⟨t, ht, he⟩
    refine ⟨c :: t, unbroken_cons_iff.2 ⟨hc, ht⟩, ?_⟩
    exact he.imp (congrArg (c :: ·)) (congrArg (c :: ·))

theorem whole_break_iff (hc : c.isLineBreak = true) :
    Whole (c :: r) ↔ c = carriageReturn ∧ r = [] := by
  constructor
  · rintro ⟨t, ht, he⟩
    cases t with
    | nil => simpa using he
    | cons d t =>
      simp only [List.cons_append, List.cons.injEq] at he
      obtain rfl : c = d := he.elim And.left And.left
      cases hc.symm.trans (unbroken_cons_iff.1 ht).1
  · rintro ⟨rfl, rfl⟩
    exact ⟨[], List.forall_mem_nil _, .inr rfl⟩

/-! ## Code point by code point -/

theorem lines_cons (hc : c.isLineBreak = false) :
    lines (c :: s) = (c :: (lines s).headD []) :: (lines s).tail := by
  rw [lines.eq_def]
  simp only [hc]
  cases lines s <;> rfl

theorem lines_break (hc : c.isLineBreak = true)
    (h : ¬ (c = carriageReturn ∧ s.head? = some newline)) : lines (c :: s) = [] :: lines s := by
  cases s with
  | nil => simp [lines, hc]
  | cons d s =>
    rw [List.head?_cons, Option.some.injEq] at h
    simp [lines, hc, h]

theorem lines_return_newline (s : Text) :
    lines (carriageReturn :: newline :: s) = [] :: lines s := by
  have hr : carriageReturn.isLineBreak = true := by decide
  simp [lines, hr]

theorem lines_newline (s : Text) : lines (newline :: s) = [] :: lines s :=
  lines_break (by decide) fun h => absurd h.1 (by decide)

/-- A text is empty, or it starts with a code point of a line, with a carriage return and its line
feed, or with a break of its own. -/
@[elab_as_elim]
theorem lines_induction {motive : Text → Prop} (nil : motive [])
    (plain : ∀ c s, c.isLineBreak = false → motive s → motive (c :: s))
    (pair : ∀ s, motive s → motive (carriageReturn :: newline :: s))
    (single : ∀ c s, c.isLineBreak = true → ¬ (c = carriageReturn ∧ s.head? = some newline) →
      motive s → motive (c :: s)) (s : Text) : motive s := by
  fun_induction lines s with
  | case1 => exact nil
  | case2 c hc => exact single c [] hc (by simp) nil
  | case3 c hc d s h ih =>
    obtain ⟨rfl, rfl⟩ := h
    exact pair s ih
  | case4 c hc d s h ih => exact single c (d :: s) hc (by simpa using h) ih
  | case5 c s hc _ ih => exact plain c s (by simpa using hc) ih
  | case6 c s hc _ _ _ ih => exact plain c s (by simpa using hc) ih

theorem lines_ne_nil (hs : s ≠ []) : lines s ≠ [] := by
  induction s using lines_induction with
  | nil => exact absurd rfl hs
  | plain c s hc => simp [lines_cons hc]
  | pair s => simp [lines_return_newline]
  | single c s hc h => simp [lines_break hc h]

theorem unbroken_of_mem_lines (s : Text) : ∀ l ∈ lines s, Unbroken l := by
  have hnil : Unbroken [] := List.forall_mem_nil _
  induction s using lines_induction with
  | nil => exact List.forall_mem_nil _
  | plain c s hc ih =>
    rw [lines_cons hc, List.forall_mem_cons, unbroken_cons_iff]
    refine ⟨⟨hc, ?_⟩, fun l h => ih l (List.mem_of_mem_tail h)⟩
    cases hs : lines s with
    | nil => exact hnil
    | cons r rs => exact ih r (by simp [hs])
  | pair s ih =>
    rw [lines_return_newline, List.forall_mem_cons]
    exact ⟨hnil, ih⟩
  | single c s hc h ih =>
    rw [lines_break hc h, List.forall_mem_cons]
    exact ⟨hnil, ih⟩

theorem head?_lines (hs : s ≠ []) :
    (lines s).head? = some (s.takeWhile fun c => !c.isLineBreak) := by
  induction s using lines_induction with
  | nil => exact absurd rfl hs
  | plain c s hc ih =>
    rw [lines_cons hc, List.takeWhile_cons_of_pos (by simp [hc])]
    by_cases hn : s = []
    · subst hn
      rfl
    · simp [List.headD_eq_head?_getD, ih hn]
  | pair s =>
    have hr : carriageReturn.isLineBreak = true := by decide
    simp [lines_return_newline, hr]
  | single c s hc h => simp [lines_break hc h, hc]

/-! ## Row by row -/

theorem lines_append_newline (r s : Text) :
    lines (r ++ newline :: s) = lines (r ++ [newline]) ++ lines s := by
  induction r using lines_induction with
  | nil => simp [lines_newline, lines]
  | plain c r hc ih =>
    have hne : lines (r ++ [newline]) ≠ [] := lines_ne_nil (by simp)
    obtain ⟨l, ls, hl⟩ := List.exists_cons_of_ne_nil hne
    simp [lines_cons hc, ih, hl]
  | pair r ih => simp [lines_return_newline, ih]
  | single c r hc h ih =>
    cases r with
    | nil =>
      -- with nothing in between, a carriage return and the line feed are one break
      by_cases hr : c = carriageReturn
      · subst hr
        simp [lines_return_newline, lines]
      · have hn (t : Text) : lines (c :: newline :: t) = [] :: [] :: lines t := by
          rw [lines_break hc fun h => hr h.1, lines_newline]
        simp [hn, lines]
    | cons d r =>
      have hd (t : Text) : lines (c :: d :: r ++ t) = [] :: lines (d :: r ++ t) := lines_break hc h
      rw [hd, ih, hd]
      rfl

theorem length_lines_row_pos (r : Text) : 1 ≤ (lines (r ++ [newline])).length :=
  List.length_pos_iff.2 (lines_ne_nil (by simp))

theorem length_lines_row_iff (h : newline ∉ r) :
    (lines (r ++ [newline])).length = 1 ↔ Whole r := by
  induction r with
  | nil => exact iff_of_true rfl ⟨[], List.forall_mem_nil _, .inl rfl⟩
  | cons c r ih =>
    rw [List.mem_cons, not_or] at h
    by_cases hc : c.isLineBreak = true
    · rw [whole_break_iff hc, List.cons_append]
      by_cases hr : c = carriageReturn ∧ r = []
      · obtain ⟨rfl, rfl⟩ := hr
        exact iff_of_true rfl ⟨rfl, rfl⟩
      · refine iff_of_false ?_ hr
        have hp : ¬ (c = carriageReturn ∧ (r ++ [newline]).head? = some newline) := by
          cases r with
          | nil => simpa using hr
          | cons d r => simp [Ne.symm (List.ne_of_not_mem_cons h.2)]
        rw [lines_break hc hp, List.length_cons]
        have := length_lines_row_pos r
        omega
    · have hc : c.isLineBreak = false := by simpa using hc
      have := length_lines_row_pos r
      rw [whole_cons_iff hc, ← ih h.2, List.cons_append, lines_cons hc, List.length_cons,
        List.length_tail]
      omega

theorem ended_cons (r : Text) (rs : List Text) : ended (r :: rs) = r ++ newline :: ended rs := by
  simp [ended]

theorem lines_append_newline_of_unbroken (h : Unbroken r) : lines (r ++ [newline]) = [r] := by
  induction r with
  | nil => rfl
  | cons c r ih =>
    rw [unbroken_cons_iff] at h
    rw [List.cons_append, lines_cons h.1, ih h.2]
    rfl

theorem lines_ended (h : ∀ r ∈ rs, Unbroken r) : lines (ended rs) = rs := by
  induction rs with
  | nil => rfl
  | cons r rs ih =>
    rw [List.forall_mem_cons] at h
    rw [ended_cons, lines_append_newline, lines_append_newline_of_unbroken h.1, ih h.2]
    rfl

theorem lines_ended_append (rs : List Text) (s : Text) :
    lines (ended rs ++ s) = lines (ended rs) ++ lines s := by
  induction rs with
  | nil => rfl
  | cons r rs ih =>
    rw [ended_cons, List.append_assoc, List.cons_append, lines_append_newline, ih,
      lines_append_newline r (ended rs), List.append_assoc]

/-- There are no fewer lines than rows, and as many if every row is a single line. -/
theorem length_lines_ended (h : ∀ r ∈ rs, newline ∉ r) :
    rs.length ≤ (lines (ended rs)).length ∧
      ((lines (ended rs)).length = rs.length ↔ ∀ r ∈ rs, Whole r) := by
  induction rs with
  | nil => simp [ended, lines]
  | cons r rs ih =>
    rw [List.forall_mem_cons] at h
    obtain ⟨hle, heq⟩ := ih h.2
    have hpos := length_lines_row_pos r
    rw [ended_cons, lines_append_newline, List.length_append, List.length_cons,
      List.forall_mem_cons, ← length_lines_row_iff h.1, ← heq]
    omega

theorem exists_ended (s : Text) :
    ∃ rs left, s = ended rs ++ left ∧ (∀ r ∈ rs, newline ∉ r) ∧ newline ∉ left := by
  induction s with
  | nil => exact ⟨[], [], rfl, List.forall_mem_nil _, List.not_mem_nil⟩
  | cons c s ih =>
    obtain ⟨rs, left, rfl, hrs, hleft⟩ := ih
    by_cases hc : c = newline
    · subst hc
      exact ⟨[] :: rs, left, by simp [ended], List.forall_mem_cons.2 ⟨by simp, hrs⟩, hleft⟩
    · cases rs with
      | nil => exact ⟨[], c :: left, rfl, hrs, by simp [Ne.symm hc, hleft]⟩
      | cons r rs =>
        rw [List.forall_mem_cons] at hrs
        refine ⟨(c :: r) :: rs, left, by simp [ended], List.forall_mem_cons.2 ⟨?_, hrs.2⟩, hleft⟩
        simp [Ne.symm hc, hrs.1]

theorem rows_ended_append (h : ∀ r ∈ rs, newline ∉ r) (s : Text) :
    rows (ended rs ++ s) = rs ++ rows s := by
  induction rs with
  | nil => rfl
  | cons r rs ih =>
    rw [List.forall_mem_cons] at h
    rw [ended_cons, List.append_assoc, List.cons_append, rows,
      List.splitOn_append_cons_self_of_not_mem h.1, List.cons_append, ← ih h.2, rows]

theorem count_newline_ended (h : ∀ r ∈ rs, newline ∉ r) :
    (ended rs).count newline = rs.length := by
  induction rs with
  | nil => rfl
  | cons r rs ih =>
    rw [List.forall_mem_cons] at h
    rw [ended_cons, List.count_append, List.count_eq_zero.2 h.1, List.count_cons_self, ih h.2,
      List.length_cons, Nat.zero_add]

theorem head?_rows (s : Text) : (rows s).head? = some (s.takeWhile (· ≠ newline)) := by
  rw [rows]
  induction s with
  | nil => rfl
  | cons c s ih =>
    rw [List.splitOn_cons_eq_if_modifyHead]
    by_cases hc : c = newline
    · simp [hc]
    · obtain ⟨row, more, hr⟩ := List.exists_cons_of_ne_nil (List.splitOn_ne_nil newline s)
      rw [hr, List.head?_cons, Option.some.injEq] at ih
      simp [hc, hr, ih]

end EnumForms.Text
