import EnumForms.Text

/-!
Text on its way to a terminal: control sequences are left out, and on the error channel surrogates,
which have no bytes, are spelled out.
-/
namespace EnumForms

namespace CodePoint

/-! The bytes of a control sequence: parameters, then intermediate bytes, then a final one. -/

def isParameter (c : CodePoint) : Bool := 0x30 ≤ c.val && c.val ≤ 0x3F
def isIntermediate (c : CodePoint) : Bool := 0x20 ≤ c.val && c.val ≤ 0x2F
def isFinal (c : CodePoint) : Bool := 0x40 ≤ c.val && c.val ≤ 0x7E

end CodePoint

namespace Text

/-- What follows a control sequence, if the text after an escape character is one. -/
def afterControl? : Text → Option Text
  | [] => none
  | b :: s =>
    if b.is '[' then
      match (s.dropWhile (·.isParameter)).dropWhile (·.isIntermediate) with
      | c :: r => if c.isFinal then some r else none
      | [] => none
    else none

theorem afterControl?_length {s r : Text} (h : afterControl? s = some r) : r.length ≤ s.length := by
  unfold afterControl? at h
  split at h
  · cases h
  · next b s =>
    split at h
    · split at h
      · next c t ht =>
        split at h
        · cases h
          have h1 := (List.dropWhile_sublist (l := s) fun c => c.isParameter).length_le
          have h2 := (List.dropWhile_sublist (l := s.dropWhile fun c => c.isParameter)
            fun c => c.isIntermediate).length_le
          rw [ht] at h2
          simp only [List.length_cons] at h2 ⊢
          omega
        · cases h
      · cases h
    · cases h

def withoutControls (s : Text) : Text :=
  match s with
  | [] => []
  | c :: s =>
    if c = .escape then
      match h : afterControl? s with
      | some r =>
        have := afterControl?_length h
        withoutControls r
      | none => c :: withoutControls s
    else c :: withoutControls s
termination_by s.length
decreasing_by all_goals simp only [List.length_cons]; omega

def withSurrogatesSpelled (s : Text) : Text :=
  s.flatMap fun c => if c.isSurrogate then lit "\\u" ++ hex 4 c.val else [c]

end Text

end EnumForms
