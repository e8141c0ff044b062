import EnumForms.Text

/-!
Escapes after a backslash: a control character `\^c`, a code point in base sixteen, `\x{H}` of any
length or `\xHH`, a code point of up to three octal digits, or a single character, which stands for
itself or for a control character of that name.
-/
namespace EnumForms

inductive Escape where
  | control (c : CodePoint)
  | braced (digits : Text)
  | pair (high low : CodePoint)
  | octal (digits : Text)
  | plain (c : CodePoint)
  deriving DecidableEq

namespace Escape

def spelling : Escape → Text
  | .control c => .ofChar '^' :: [c]
  | .braced ds => lit "x\x7b" ++ ds ++ lit "\x7d"
  | .pair a b => .ofChar 'x' :: [a, b]
  | .octal ds => ds
  | .plain c => [c]

def splitBraced (s : Text) : Option (Text × Text) :=
  match s.takeWhile (·.isHex), s.dropWhile (·.isHex) with
  | d :: ds, c :: r => if c.is '\x7d' then some (d :: ds, r) else none
  | _, _ => none

def splitOctal : Text → Option (Text × Text)
  | a :: b :: c :: r =>
    if !a.isOctal then none
    else if !b.isOctal then some ([a], b :: c :: r)
    else if !c.isOctal then some ([a, b], c :: r)
    else some ([a, b, c], r)
  | [a, b] => if !a.isOctal then none else if !b.isOctal then some ([a], [b]) else some ([a, b], [])
  | [a] => if a.isOctal then some ([a], []) else none
  | [] => none

def splitHex (s : Text) : Option (Escape × Text) :=
  match s with
  | a :: r =>
    if a.is '\x7b' then (splitBraced r).map fun (ds, r) => (.braced ds, r)
    else match r with
      | b :: r => if a.isHex && b.isHex then some (.pair a b, r) else none
      | [] => none
  | [] => none

/-- The escape at the front of the text after a backslash, and the rest. There is one unless the
text is empty: what is no other escape is a single character. -/
def split : Text → Option (Escape × Text)
  | [] => none
  | c :: s =>
    let plain : Escape × Text := (.plain c, s)
    if c.is '^' then
      match s with
      | d :: r => some (.control d, r)
      | [] => some plain
    else if c.is 'x' then some ((splitHex s).getD plain)
    else match splitOctal (c :: s) with
      | some (ds, r) => some (.octal ds, r)
      | none => some plain

def number (b : Nat) (ds : Text) : Nat := ds.foldl (fun n c => b * n + c.digit?.getD 0) 0

def named (c : CodePoint) : CodePoint :=
  if c.is 'b' then ⟨0x08, by decide⟩
  else if c.is 'd' then ⟨0x7F, by decide⟩
  else if c.is 'e' then .escape
  else if c.is 'f' then ⟨0x0C, by decide⟩
  else if c.is 'n' then .newline
  else if c.is 'r' then .carriageReturn
  else if c.is 's' then .space
  else if c.is 't' then ⟨0x09, by decide⟩
  else if c.is 'v' then ⟨0x0B, by decide⟩
  else c

def value? : Escape → Option CodePoint
  | .control c => CodePoint.ofNat? (c.val % 32)
  | .braced ds => CodePoint.ofNat? (number 16 ds)
  | .pair a b => CodePoint.ofNat? (number 16 [a, b])
  | .octal ds => CodePoint.ofNat? (number 8 ds)
  | .plain c => some (named c)

theorem splitBraced_eq {s ds r : Text} (h : splitBraced s = some (ds, r)) :
    ∃ c : CodePoint, c.is '\x7d' ∧ s = ds ++ c :: r := by
  unfold splitBraced at h
  split at h
  · next d es c t he ht =>
    split at h
    · next hc =>
      simp only [Option.some.injEq, Prod.mk.injEq] at h
      obtain ⟨rfl, rfl⟩ := h
      exact ⟨c, hc, by rw [← he, ← ht]; exact (List.takeWhile_append_dropWhile).symm⟩
    · cases h
  · cases h

theorem splitOctal_eq {s ds r : Text} (h : splitOctal s = some (ds, r)) : s = ds ++ r := by
  unfold splitOctal at h
  grind

theorem splitHex_eq {s r : Text} {e : Escape} (h : splitHex s = some (e, r)) :
    .ofChar 'x' :: s = e.spelling ++ r := by
  unfold splitHex at h
  split at h
  · next a t =>
    split at h
    · next ha =>
      rw [Option.map_eq_some_iff] at h
      obtain ⟨⟨ds, q⟩, hb, hq⟩ := h
      simp only [Prod.mk.injEq] at hq
      obtain ⟨rfl, rfl⟩ := hq
      obtain ⟨c, hc, rfl⟩ := splitBraced_eq hb
      rw [CodePoint.is_iff] at ha hc
      subst ha hc
      simp [spelling, lit]
    · split at h
      · split at h
        · simp only [Option.some.injEq, Prod.mk.injEq] at h
          obtain ⟨rfl, rfl⟩ := h
          simp [spelling]
        · cases h
      · cases h
  · cases h

theorem split_eq {s r : Text} {e : Escape} (h : split s = some (e, r)) : s = e.spelling ++ r := by
  cases s with
  | nil => cases h
  | cons c s =>
    simp only [split] at h
    split at h
    · next hc =>
      rw [CodePoint.is_iff] at hc
      subst hc
      split at h <;> cases h <;> simp [spelling]
    · split at h
      · next hx =>
        rw [CodePoint.is_iff] at hx
        subst hx
        cases hs : splitHex s with
        | none => rw [hs] at h; cases h; simp [spelling]
        | some p =>
          rw [hs] at h
          cases h
          exact splitHex_eq hs
      · split at h
        · next ho => cases h; exact splitOctal_eq ho
        · cases h; simp [spelling]

theorem split_length {s r : Text} {e : Escape} (h : split s = some (e, r)) : r.length ≤ s.length := by
  rw [split_eq h]; simp

/-- A text with its escapes replaced by what they stand for; none if one is out of range. A
backslash at the very end stands for itself. -/
def decode? : Text → Option Text
  | [] => some []
  | c :: s =>
    if c = .backslash then
      match h : split s with
      | some (e, r) =>
        have := split_length h
        match e.value?, decode? r with
        | some d, some t => some (d :: t)
        | _, _ => none
      | none => some [c]
    else (decode? s).map (c :: ·)
termination_by s => s.length
decreasing_by all_goals simp only [List.length_cons]; omega

end Escape

end EnumForms
