import EnumForms.Text

/-!
Line ends, cutting a text into lines, and trimming it. In files a carriage return, with or without a
line feed after it, is read as a line feed; on a terminal only the pair of both is one.
-/
namespace EnumForms

def CodePoint.isLineBreak (c : CodePoint) : Bool :=
  (0x0A ≤ c.val && c.val ≤ 0x0D) || (0x1C ≤ c.val && c.val ≤ 0x1E) ||
    c.val == 0x85 || c.val == 0x2028 || c.val == 0x2029

def CodePoint.isBlank (c : CodePoint) : Bool :=
  (0x09 ≤ c.val && c.val ≤ 0x0D) || (0x1C ≤ c.val && c.val ≤ 0x20) ||
    c.val == 0x85 || c.val == 0xA0 || c.val == 0x1680 || (0x2000 ≤ c.val && c.val ≤ 0x200A) ||
    c.val == 0x2028 || c.val == 0x2029 || c.val == 0x202F || c.val == 0x205F || c.val == 0x3000

namespace Text

def unifyNewlines : Text → Text
  | [] => []
  | c :: s =>
    if c = .carriageReturn then
      match s with
      | [] => [.newline]
      | d :: s' =>
        if d = .newline then .newline :: unifyNewlines s'
        else .newline :: unifyNewlines (d :: s')
    else c :: unifyNewlines s

def unifyPairs : Text → Text
  | c :: d :: s =>
    if c = .carriageReturn ∧ d = .newline then .newline :: unifyPairs s
    else c :: unifyPairs (d :: s)
  | s => s

/-- The lines of a text without their ends; a break at the very end opens no further line. -/
def lines : Text → List Text
  | [] => []
  | c :: s =>
    if c.isLineBreak then
      match s with
      | [] => [[]]
      | d :: s' => if c = .carriageReturn ∧ d = .newline then [] :: lines s' else [] :: lines (d :: s')
    else
      match lines s with
      | [] => [[c]]
      | l :: ls => (c :: l) :: ls

def trimRight (t : Text) : Text := (t.reverse.dropWhile CodePoint.isBlank).reverse

theorem trimRight_ne_nil {t : Text} {c : CodePoint} (hc : c ∈ t) (hb : c.isBlank = false) :
    t.trimRight ≠ [] := by
  intro h
  rw [trimRight, List.reverse_eq_nil_iff] at h
  have hcut := List.takeWhile_append_dropWhile (p := CodePoint.isBlank) (l := t.reverse)
  have hall := List.all_takeWhile (p := CodePoint.isBlank) (l := t.reverse)
  rw [h, List.append_nil] at hcut
  rw [hcut, List.all_eq_true] at hall
  cases hb.symm.trans (hall c (List.mem_reverse.2 hc))

theorem trimRight_append (s : Text) {t : Text} (h : t.trimRight ≠ []) :
    trimRight (s ++ t) = s ++ trimRight t := by
  rw [trimRight, ne_eq, List.reverse_eq_nil_iff] at h
  rw [trimRight, trimRight, List.reverse_append, List.dropWhile_append, if_neg (by simpa using h),
    List.reverse_append, List.reverse_reverse]

def line (t : Text) (n : Int) : Text :=
  if 1 ≤ n then (t.lines[(n - 1).toNat]?).getD [] else []

/-- The lines from one before line `n` to one after it. Below the first line the end of the
window counts back from the end of the text. -/
def window (t : Text) (n : Int) : List Text :=
  let ls := t.lines
  let first := (n - 2).toNat
  let stop := min (ls.length : Int) (n + 1)
  let last := if stop < 0 then (ls.length + stop).toNat else stop.toNat
  (ls.take last).drop first

end Text

end EnumForms
