import EnumForms.Proofs.Scan
import EnumForms.Term.Printer

/-!
Text between marks: what is written for each code point neither ends the token nor stands for
anything but that code point. So a quoted text is one token and is read back.
-/
namespace EnumForms

namespace Lexeme

/-- A text that stands between marks: the mark that ends the token is not in it. -/
def Passes (mark : CodePoint) (u : Text) : Prop :=
  ∀ rest, untilMark mark (u ++ rest) = (untilMark mark rest).map fun (t, r) => (u ++ t, r)

variable {mark : CodePoint} {u v : Text}

theorem Passes.append (hu : Passes mark u) (hv : Passes mark v) : Passes mark (u ++ v) := by
  intro rest
  rw [List.append_assoc, hu, hv]
  simp [Function.comp_def]

theorem passes_nil : Passes mark [] := by
  intro rest
  simp

theorem passes_of_plain (h : ∀ c ∈ u, c ≠ mark ∧ c ≠ .backslash) : Passes mark u := by
  induction u with
  | nil => exact passes_nil
  | cons c u ih =>
    have hc := h c (by simp)
    have hp : Passes mark [c] := by
      intro rest
      rw [List.singleton_append, untilMark.eq_def]
      simp [hc.1, hc.2]
    exact hp.append (ih fun d hd => h d (List.mem_cons_of_mem c hd))

theorem passes_escaped {d : CodePoint} (hm : mark ≠ .backslash) (hd : d ≠ .newline) :
    Passes mark [.backslash, d] := by
  intro rest
  simp [untilMark, hm.symm, hd]

theorem passes_flatMap {f : CodePoint → Text} (h : ∀ c, Passes mark (f c)) (s : Text) :
    Passes mark (s.flatMap f) := by
  induction s with
  | nil => exact passes_nil
  | cons c s ih => exact (h c).append ih

theorem quoted_append (h : Passes mark u) (rest : Text) :
    quoted mark (mark :: u ++ [mark] ++ rest) = some (mark :: u ++ [mark], rest) := by
  have hu : untilMark mark (u ++ mark :: rest) = some (u ++ [mark], rest) := by
    rw [h, untilMark.eq_def]
    simp
  simp [quoted, hu]

end Lexeme

namespace Escape

theorem decode?_cons {c : CodePoint} (h : c ≠ .backslash) (s : Text) :
    decode? (c :: s) = (decode? s).map (c :: ·) := by
  rw [decode?, if_neg h]

theorem decode?_escape {s r : Text} {e : Escape} (h : split s = some (e, r)) :
    decode? (.backslash :: s) = e.value?.bind fun d => (decode? r).map (d :: ·) := by
  rw [decode?, if_pos rfl]
  split
  · next e' r' h' =>
    cases h.symm.trans h'
    cases e.value? <;> cases decode? r <;> rfl
  · next h' => cases h.symm.trans h'

def Spells (u : Text) (c : CodePoint) : Prop :=
  ∀ rest, decode? (u ++ rest) = (decode? rest).map (c :: ·)

theorem spells_self {c : CodePoint} (h : c ≠ .backslash) : Spells [c] c := decode?_cons h

theorem decode?_flatMap {f : CodePoint → Text} (h : ∀ c, Spells (f c) c) (s : Text) :
    decode? (s.flatMap f) = some s := by
  induction s with
  | nil => rw [List.flatMap_nil, decode?]
  | cons c s ih => rw [List.flatMap_cons, h, ih]; rfl

theorem splitOctal_eq_none {c : CodePoint} (h : c.isOctal = false) (s : Text) :
    splitOctal (c :: s) = none := by
  match s with
  | [] => simp [splitOctal, h]
  | [_] => simp [splitOctal, h]
  | _ :: _ :: _ => simp [splitOctal, h]

/-- A single character after a backslash, which is not the start of another escape. -/
theorem spells_plain {c : CodePoint} (hc : c.is '^' = false) (hx : c.is 'x' = false)
    (ho : c.isOctal = false) : Spells [.backslash, c] (named c) := by
  intro rest
  have hs : split (c :: rest) = some (.plain c, rest) := by
    simp [split, hc, hx, splitOctal_eq_none ho]
  exact decode?_escape hs

theorem splitBraced_append {ds : Text} (hn : ds ≠ []) (hd : ∀ d ∈ ds, d.isHex = true)
    (rest : Text) : splitBraced (ds ++ .ofChar '\x7d' :: rest) = some (ds, rest) := by
  have hh : ∀ c ∈ (CodePoint.ofChar '\x7d' :: rest).head?, c.isHex = false := by
    intro c hc
    cases hc
    decide
  obtain ⟨ht, hr⟩ := Lexeme.takeWhile_dropWhile_append hd hh
  rw [splitBraced, ht, hr]
  cases ds with
  | nil => exact absurd rfl hn
  | cons d ds => simp [CodePoint.is_iff]

theorem split_braced {ds : Text} (hn : ds ≠ []) (hd : ∀ d ∈ ds, d.isHex = true) (rest : Text) :
    split (lit "x\x7b" ++ ds ++ lit "\x7d" ++ rest) = some (.braced ds, rest) := by
  have hx : splitHex (.ofChar '\x7b' :: (ds ++ .ofChar '\x7d' :: rest)) = some (.braced ds, rest) := by
    simp [splitHex, CodePoint.is_iff, splitBraced_append hn hd]
  have hc : (CodePoint.ofChar 'x').is '^' = false := by decide
  have hi : (CodePoint.ofChar 'x').is 'x' = true := by decide
  simp [lit, split, hc, hi, hx]

theorem spells_braced {c : CodePoint} {ds : Text} (hn : ds ≠ []) (hd : ∀ d ∈ ds, d.isHex = true)
    (hc : number 16 ds = c.val) : Spells (lit "\\x\x7b" ++ ds ++ lit "\x7d") c := by
  intro rest
  have hv : (Escape.braced ds).value? = some c := by
    simp [value?, hc, CodePoint.ofNat?, c.isLt]
  have hl : lit "\\x\x7b" ++ ds ++ lit "\x7d" ++ rest =
      .backslash :: (lit "x\x7b" ++ ds ++ lit "\x7d" ++ rest) := rfl
  rw [hl, decode?_escape (split_braced hn hd rest), hv, Option.bind_some]

end Escape

/-! ## What is written -/

theorem passes_quotePoint (c : CodePoint) : Lexeme.Passes .apostrophe (Atom.quotePoint c) := by
  unfold Atom.quotePoint
  split
  · next h => exact Lexeme.passes_escaped (by decide) (by rcases h with rfl | rfl <;> decide)
  · next h =>
    rw [not_or] at h
    exact Lexeme.passes_of_plain (by simp [h])

theorem spells_quotePoint (c : CodePoint) : Escape.Spells (Atom.quotePoint c) c := by
  unfold Atom.quotePoint
  split
  · next h =>
    rcases h with rfl | rfl
    · exact Escape.spells_plain (by decide) (by decide) (by decide)
    · exact Escape.spells_plain (by decide) (by decide) (by decide)
  · next h => exact Escape.spells_self fun he => h (.inl he)

theorem upperHex_control : ∀ n < 0x20,
    Text.upperHex n ≠ [] ∧ Escape.number 16 (Text.upperHex n) = n ∧
    ∀ d ∈ Text.upperHex n, d.isHex = true ∧ d ≠ .quotation ∧ d ≠ .backslash := by
  decide

theorem passes_stringPoint (c : CodePoint) : Lexeme.Passes .quotation (stringPoint c) := by
  have pair {d : CodePoint} (hd : d ≠ .newline) : Lexeme.Passes .quotation [.backslash, d] :=
    Lexeme.passes_escaped (by decide) hd
  unfold stringPoint
  split
  · next h => exact pair (by rcases h with rfl | rfl <;> decide)
  · next h =>
    split <;> try exact pair (by decide)
    split
    · next hn =>
      obtain ⟨-, -, hd⟩ := upperHex_control _ hn
      have hx : Lexeme.Passes .quotation (lit "\\x") := pair (by decide)
      have ho : Lexeme.Passes .quotation (lit "\x7b") := Lexeme.passes_of_plain (by decide)
      have hc : Lexeme.Passes .quotation (lit "\x7d") := Lexeme.passes_of_plain (by decide)
      exact ((hx.append ho).append (Lexeme.passes_of_plain fun d hm => (hd d hm).2)).append hc
    · rw [not_or] at h
      exact Lexeme.passes_of_plain (by simp [h])

theorem CodePoint.eq_of_val {c d : CodePoint} (h : c.val = d.val) : c = d := by
  cases c
  cases d
  cases h
  rfl

theorem spells_stringPoint (c : CodePoint) : Escape.Spells (stringPoint c) c := by
  have letter (d : CodePoint) (hc : d.is '^' = false) (hx : d.is 'x' = false)
      (ho : d.isOctal = false) (hv : c.val = (Escape.named d).val) :
      Escape.Spells [.backslash, d] c := by
    rw [CodePoint.eq_of_val hv]
    exact Escape.spells_plain hc hx ho
  unfold stringPoint
  split
  · next h =>
    rcases h with rfl | rfl
    · exact letter _ (by decide) (by decide) (by decide) (by decide)
    · exact letter _ (by decide) (by decide) (by decide) (by decide)
  · next h =>
    -- control characters with a letter of their own, then those in base sixteen
    split <;> try exact letter _ (by decide) (by decide) (by decide) ‹_›
    split
    · next hn =>
      obtain ⟨hne, hv, hd⟩ := upperHex_control _ hn
      exact Escape.spells_braced hne (fun d hm => (hd d hm).1) hv
    · exact Escape.spells_self fun he => h (.inl he)

end EnumForms
