import EnumForms.Proofs.Completion
import EnumForms.Proofs.Rows
import Mathlib.Data.List.TakeWhile

/-!
The line shown with an unexpected code point, and the caret below it. The place of the code point is a
row and a column. The number of the row also chooses the line, so the line and the caret are right if
every row above is a single line and nothing breaks the row itself. Otherwise a line further up is
shown, or only the start of the row.
-/
namespace EnumForms

open CodePoint (newline)

namespace Text

theorem getLast?_ended (rs : List Text) : ∀ c ∈ (ended rs).getLast?, c = newline := by
  obtain rfl | ⟨rs, r, rfl⟩ := List.eq_nil_or_concat' rs
  · simp [ended]
  · simp [ended, eq_comm]

theorem endPlace_ended_append {rs : List Text} {left : Text} (hrs : ∀ r ∈ rs, newline ∉ r)
    (hleft : newline ∉ left) : (ended rs ++ left).endPlace = ⟨rs.length + 1, left.length + 1⟩ := by
  have hl : ∀ c ∈ left.reverse, decide (c ≠ newline) = true := by
    intro c hc
    rw [decide_eq_true_eq]
    rintro rfl
    exact hleft (List.mem_reverse.1 hc)
  have hr : ∀ c ∈ (ended rs).reverse.head?, decide (c ≠ newline) = false := by
    rw [List.head?_reverse]
    intro c hc
    simp [getLast?_ended rs c hc]
  have hcut := (Lexeme.takeWhile_dropWhile_append hl hr).1
  rw [endPlace, List.reverse_append, hcut, List.length_reverse, List.count_append,
    count_newline_ended hrs, List.count_eq_zero.2 hleft, Nat.add_zero]

theorem line_succ (s : Text) (n : Nat) : s.line ((n + 1 : Nat) : Int) = s.lines[n]?.getD [] := by
  have hn : (((n + 1 : Nat) : Int) - 1).toNat = n := by omega
  rw [line, if_pos (by omega), hn]

theorem takeWhile_line_iff {t : Text} :
    t.takeWhile (fun c => !c.isLineBreak) = t ↔ t.Unbroken := by
  simp [List.takeWhile_eq_self_iff, Unbroken]

theorem takeWhile_row (t : Text) :
    (t.takeWhile (· ≠ newline)).takeWhile (fun c => !c.isLineBreak) =
      t.takeWhile fun c => !c.isLineBreak := by
  have hn (c : CodePoint) (hc : c.isLineBreak = false) : c ≠ newline := by
    rintro rfl
    cases hc
  rw [List.takeWhile_takeWhile]
  congr 1
  funext c
  cases hc : c.isLineBreak <;> simp [hn, hc]

end Text

namespace Message

/-- What is to be checked where no token starts. -/
def checks (c : CodePoint) : Text :=
  lit "\n\nVerifique:\n" ++
    (if c = .quotation ∨ c = .apostrophe then lit "  - Aspas abertas mas nao fechadas\n" else []) ++
    (if c.isUpperCase ∨ c.is '_' then
      lit "  - Atomos iniciados em maiuscula precisam de aspas simples: 'Nome'\n" else []) ++
    lit "  - Caracteres fora da sintaxe de termos Erlang\n"

theorem character_eq (source file : Text) (c : CodePoint) (line column : Int) :
    character source file c line column =
      headline file line column (lit "Caractere inesperado " ++ Text.inspect [c]) ++
        lit "\n    " ++ source.line line ++ lit "\n    " ++ indent column ++ lit "^ aqui" ++
        (checks c).trimRight := by
  have hsplit : lit "^ aqui\n\nVerifique:\n" = lit "^ aqui" ++ lit "\n\nVerifique:\n" := rfl
  have hv : CodePoint.ofChar 'V' ∈ checks c := by
    simp only [checks, List.append_assoc]
    exact List.mem_append_left _ (by decide)
  -- not all that is to be checked is blank, so that nothing before it is trimmed
  rw [← Text.trimRight_append _ (Text.trimRight_ne_nil hv (by decide)), character]
  simp only [checks, headline, hsplit, List.append_assoc]

end Message

theorem Reading.unexpectedCharacter_eq {s : Text} {c : CodePoint} {p : Place}
    (h : parse s = .error (.unexpectedCharacter c p)) :
    ∃ u x, s = u ++ c :: x ∧ p = u.endPlace ∧ c ≠ newline := by
  obtain ⟨u, x, ts, r, rfl, -, -, hstuck⟩ := run_eq_error h
  cases hstuck with
  | @stray c x hl =>
    refine ⟨u, x, rfl, Place.advance_start u, ?_⟩
    rintro rfl
    simp [Lexeme.layout, Lexeme.either, Lexeme.run, show newline.isLayout = true from rfl] at hl

namespace Text

variable {rs : List Text} {t : Text}

theorem line_of_whole (hrs : ∀ r ∈ rs, newline ∉ r) (h : ∀ r ∈ rs, r.Whole) (ht : t ≠ []) :
    (ended rs ++ t).line ((rs.length + 1 : Nat) : Int) = t.takeWhile fun c => !c.isLineBreak := by
  have hlen := (length_lines_ended hrs).2.2 h
  rw [line_succ, lines_ended_append, List.getElem?_append_right hlen.le, hlen, Nat.sub_self,
    ← List.head?_eq_getElem?, head?_lines ht, Option.getD_some]

theorem line_of_broken (hrs : ∀ r ∈ rs, newline ∉ r) (h : ¬ ∀ r ∈ rs, r.Whole) :
    (ended rs).lines[rs.length]? = some ((ended rs ++ t).line ((rs.length + 1 : Nat) : Int)) := by
  obtain ⟨hle, heq⟩ := length_lines_ended hrs
  have hlt : rs.length < (ended rs).lines.length :=
    Nat.lt_of_le_of_ne hle fun he => h (heq.1 he.symm)
  rw [line_succ, lines_ended_append, List.getElem?_append_left hlt, List.getElem?_eq_getElem hlt,
    Option.getD_some]

end Text

/-- What line is shown for a code point at a place, when `row` is the row of the place. The line is the
row, with the code point above the caret, in two cases only: no row above is broken, nor the row itself,
or a line from the rows above happens to be the same text. -/
structure Caret (s : Text) (c : CodePoint) (p : Place) (row : Text) : Prop where
  row_eq : s.rows[p.line - 1]? = some row
  column_eq : row[p.column - 1]? = some c
  shown_of_whole : (∀ r ∈ s.rows.take (p.line - 1), r.Whole) →
    s.line p.line = row.takeWhile fun c => !c.isLineBreak
  shown_of_broken : ¬ (∀ r ∈ s.rows.take (p.line - 1), r.Whole) →
    (Text.ended (s.rows.take (p.line - 1))).lines[p.line - 1]? = some (s.line p.line)
  shown_iff : s.line p.line = row ∧ (s.line p.line)[p.column - 1]? = some c ↔
    (∀ r ∈ s.rows.take (p.line - 1), r.Whole) ∧ row.Unbroken ∨
      (Text.ended (s.rows.take (p.line - 1))).lines[p.line - 1]? = some row

open Text in
theorem caret_of_rows {rs : List Text} {left x : Text} {c : CodePoint}
    (hrs : ∀ r ∈ rs, newline ∉ r) (hleft : newline ∉ left) (hc : c ≠ newline) :
    Caret (ended rs ++ (left ++ c :: x)) c ⟨rs.length + 1, left.length + 1⟩
      (left ++ c :: x.takeWhile (· ≠ newline)) := by
  have hrow : (left ++ c :: x).takeWhile (· ≠ newline) = left ++ c :: x.takeWhile (· ≠ newline) := by
    have hl : ∀ d ∈ left, decide (d ≠ newline) = true := fun d hd =>
      decide_eq_true fun he => hleft (he ▸ hd)
    rw [List.takeWhile_append_of_pos hl, List.takeWhile_cons_of_pos (by simpa using hc)]
  have hrows : (ended rs ++ (left ++ c :: x)).rows = rs ++ (left ++ c :: x).rows :=
    rows_ended_append hrs _
  have habove : (ended rs ++ (left ++ c :: x)).rows.take (rs.length + 1 - 1) = rs := by
    rw [hrows, Nat.add_sub_cancel, List.take_left]
  have hcolumn : (left ++ c :: x.takeWhile (· ≠ newline))[left.length + 1 - 1]? = some c := by simp
  have hwhole (h : ∀ r ∈ rs, r.Whole) :
      line (ended rs ++ (left ++ c :: x)) (rs.length + 1 : Nat) =
        (left ++ c :: x.takeWhile (· ≠ newline)).takeWhile fun c => !c.isLineBreak := by
    rw [line_of_whole hrs h (by simp), ← takeWhile_row, hrow]
  have hbroken (h : ¬ ∀ r ∈ rs, r.Whole) := line_of_broken (t := left ++ c :: x) hrs h
  refine ⟨?_, hcolumn, ?_, ?_, ?_⟩
  · dsimp only
    rw [hrows, Nat.add_sub_cancel, List.getElem?_append_right le_rfl, Nat.sub_self,
      ← List.head?_eq_getElem?, head?_rows, hrow]
  · dsimp only
    rwa [habove]
  · dsimp only
    rwa [habove]
  · dsimp only
    rw [habove, and_iff_left_of_imp fun hl => hl ▸ hcolumn]
    -- the rows above have no line with the number of the row, or they have the line that is shown
    by_cases h : ∀ r ∈ rs, r.Whole
    · have hnone : (ended rs).lines[rs.length]? = none :=
        List.getElem?_eq_none ((length_lines_ended hrs).2.2 h).le
      rw [Nat.add_sub_cancel, hnone, hwhole h, takeWhile_line_iff, and_iff_right h,
        or_iff_left (by simp)]
    · rw [Nat.add_sub_cancel, hbroken h, Option.some.injEq, or_iff_right fun hw => h hw.1]

/-- An unexpected code point is reported with its place, and with a line and a caret below it. -/
theorem caret_unexpectedCharacter (s file : Text) (c : CodePoint) (p : Place)
    (h : parse s = .error (.unexpectedCharacter c p)) :
    ∃ report row, (ReadError.unexpectedCharacter c p).report? s file = some report ∧
      report.place = p ∧
      report.message =
        Message.headline file p.line p.column (lit "Caractere inesperado " ++ Text.inspect [c]) ++
          lit "\n    " ++ s.line p.line ++ lit "\n    " ++ Text.spaces (p.column - 1) ++
          lit "^ aqui" ++ (Message.checks c).trimRight ∧
      Caret s c p row := by
  obtain ⟨u, x, rfl, rfl, hc⟩ := Reading.unexpectedCharacter_eq h
  obtain ⟨rs, left, rfl, hrs, hleft⟩ := Text.exists_ended u
  rw [Text.endPlace_ended_append hrs hleft]
  have hindent (n : Nat) : Message.indent ((n + 1 : Nat) : Int) = Text.spaces (n + 1 - 1) := by
    rw [Message.indent]
    congr 1
    omega
  refine ⟨_, left ++ c :: x.takeWhile (· ≠ newline), rfl, rfl, ?_, ?_⟩
  · dsimp only
    rw [Message.character_eq, hindent]
  · rw [List.append_assoc]
    exact caret_of_rows hrs hleft hc

def capitalized : Text := lit "% a\r\n\x7bb,\"c\nd\"\x7d.\r\n [Dd]."

theorem caret_capitalized : parse capitalized = .error (.unexpectedCharacter (.ofChar 'D') ⟨4, 3⟩) ∧
    ∃ report row,
      (ReadError.unexpectedCharacter (.ofChar 'D') ⟨4, 3⟩).report? capitalized SyntaxReport.noFile =
        some report ∧
      report.place = ⟨4, 3⟩ ∧
      report.message =
        Message.headline SyntaxReport.noFile 4 3
            (lit "Caractere inesperado " ++ Text.inspect [.ofChar 'D']) ++
          lit "\n    " ++ capitalized.line 4 ++ lit "\n    " ++ Text.spaces 2 ++ lit "^ aqui" ++
          (Message.checks (.ofChar 'D')).trimRight ∧
      Caret capitalized (.ofChar 'D') ⟨4, 3⟩ row ∧
      row = lit " [Dd]." ∧ capitalized.line 4 = row := by
  have hp : parse capitalized = .error (.unexpectedCharacter (.ofChar 'D') ⟨4, 3⟩) :=
    Attempt.reason?_eq_some.1 (by decide +kernel)
  obtain ⟨report, row, hr, hplace, hm, hcaret⟩ :=
    caret_unexpectedCharacter capitalized SyntaxReport.noFile _ _ hp
  have hrow : row = lit " [Dd]." := Option.some.inj (hcaret.row_eq.symm.trans (by decide +kernel))
  have hline : capitalized.line 4 = lit " [Dd]." := by decide +kernel
  exact ⟨hp, report, row, hr, hplace, hm, hcaret, hrow, hline.trans hrow.symm⟩

def pageBreak : Text := lit "\x0c\nA."

/-- The row of the code point is the second one, but the third line; the line shown is empty. -/
theorem not_caret_pageBreak :
    parse pageBreak = .error (.unexpectedCharacter (.ofChar 'A') ⟨2, 1⟩) ∧
      pageBreak.rows[1]? = some (lit "A.") ∧
      ∃ report, (ReadError.unexpectedCharacter (.ofChar 'A') ⟨2, 1⟩).report? pageBreak
          SyntaxReport.noFile = some report ∧
        report.message =
          Message.headline SyntaxReport.noFile 2 1
              (lit "Caractere inesperado " ++ Text.inspect [.ofChar 'A']) ++
            lit "\n    " ++ [] ++ lit "\n    ^ aqui" ++ (Message.checks (.ofChar 'A')).trimRight :=
  ⟨Attempt.reason?_eq_some.1 (by decide +kernel), by decide +kernel, _, rfl, by decide +kernel⟩

end EnumForms
