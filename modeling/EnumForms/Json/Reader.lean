import EnumForms.Json
import EnumForms.Token.Cut

/-!
Reading a JSON document. The text is cut into tokens, and the tokens are taken one by one with the
arrays and objects still open.
-/
namespace EnumForms.Json

inductive Token where
  | value (j : Json)
  | openArray | closeArray | openObject | closeObject
  | colon | comma

def hex4? (a b c d : CodePoint) : Option Nat :=
  if [a, b, c, d].all (·.isHex) then some (Escape.number 16 [a, b, c, d]) else none

def named? (c : CodePoint) : Option CodePoint :=
  if c = .quotation ∨ c = .backslash ∨ c.is '/' then some c
  else if c.is 'b' then CodePoint.ofNat? 0x08
  else if c.is 'f' then CodePoint.ofNat? 0x0C
  else if c.is 'n' then some .newline
  else if c.is 'r' then some .carriageReturn
  else if c.is 't' then CodePoint.ofNat? 0x09
  else none

def isHighSurrogate (n : Nat) : Bool := 0xD800 ≤ n && n ≤ 0xDBFF
def isLowSurrogate (n : Nat) : Bool := 0xDC00 ≤ n && n ≤ 0xDFFF

def joined? (high low : Nat) : Option CodePoint :=
  if isHighSurrogate high ∧ isLowSurrogate low then
    CodePoint.ofNat? (0x10000 + (high - 0xD800) * 0x400 + (low - 0xDC00))
  else none

def unit? : Text → Option (CodePoint × Text)
  | a :: b :: c :: d :: r => ((hex4? a b c d).bind CodePoint.ofNat?).map fun p => (p, r)
  | _ => none

def nextUnit? : Text → Option (CodePoint × Text)
  | b :: u :: s => if b = .backslash ∧ u.is 'u' then unit? s else none
  | _ => none

/-- The code point of an escape after its backslash. Two surrogates that fit together are one. -/
def escape? : Text → Option (CodePoint × Text)
  | [] => none
  | e :: s =>
    if e.is 'u' then
      match unit? s with
      | none => none
      | some (p, r) =>
        match nextUnit? r with
        | none => some (p, r)
        | some (q, r') => match joined? p.val q.val with
          | none => some (p, r)
          | some c => some (c, r')
    else (named? e).map fun p => (p, s)

theorem unit?_length {s r : Text} {p : CodePoint} (h : unit? s = some (p, r)) :
    r.length ≤ s.length := by
  unfold unit? at h
  split at h
  · rw [Option.map_eq_some_iff] at h
    obtain ⟨_, _, h⟩ := h
    cases h
    simp only [List.length_cons]
    omega
  · cases h

theorem nextUnit?_length {s r : Text} {p : CodePoint} (h : nextUnit? s = some (p, r)) :
    r.length ≤ s.length := by
  unfold nextUnit? at h
  split at h
  · split at h
    · have := unit?_length h
      simp only [List.length_cons]
      omega
    · cases h
  · cases h

theorem escape?_length {s r : Text} {p : CodePoint} (h : escape? s = some (p, r)) :
    r.length ≤ s.length := by
  cases s with
  | nil => cases h
  | cons e s =>
    simp only [escape?] at h
    split at h
    · split at h
      · cases h
      · next hu =>
        have hl := unit?_length hu
        split at h
        · cases h
          simp only [List.length_cons]
          omega
        · next hn =>
          have hm := nextUnit?_length hn
          split at h <;> cases h <;> simp only [List.length_cons] <;> omega
    · rw [Option.map_eq_some_iff] at h
      obtain ⟨_, _, h⟩ := h
      cases h
      simp

def stringRest (s : Text) : Option (Text × Text) :=
  match s with
  | [] => none
  | c :: s =>
    if c = .quotation then some ([], s)
    else if c.val < 0x20 then none
    else if c = .backslash then
      match h : escape? s with
      | none => none
      | some (p, r) =>
        have := escape?_length h
        (stringRest r).map fun (t, q) => (p :: t, q)
    else (stringRest s).map fun (t, q) => (c :: t, q)
termination_by s.length
decreasing_by all_goals simp only [List.length_cons]; omega

theorem stringRest_length (s : Text) :
    ∀ t r, stringRest s = some (t, r) → r.length ≤ s.length := by
  fun_induction stringRest s with
  | case1 => simp
  | case2 => intro t r h; cases h; simp
  | case3 => simp
  | case4 => simp
  | case5 =>
    rename_i p r hp hl _ _ ih
    intro t r h
    rw [Option.map_eq_some_iff] at h
    obtain ⟨⟨a, b⟩, hb, he⟩ := h
    cases he
    have := ih _ _ hb
    simp only [List.length_cons]
    omega
  | case6 c s _ _ _ ih =>
    intro t r h
    rw [Option.map_eq_some_iff] at h
    obtain ⟨⟨a, b⟩, hb, he⟩ := h
    cases he
    have := ih _ _ hb
    simp only [List.length_cons]
    omega

def numberOf (t fraction exponent : Text) : Json :=
  if fraction ++ exponent = [] then
    .int (Decimal.signed (Decimal.unsigned t).1 (Decimal.value (Decimal.unsigned t).2))
  else .number (t ++ fraction ++ exponent)

def hasIdleZero (t : Text) : Bool :=
  match (Decimal.unsigned t).2 with
  | z :: _ :: _ => z.is '0'
  | _ => false

def fraction : Text → Option (Text × Text) :=
  Lexeme.andThen (Lexeme.single '.') (Lexeme.run CodePoint.isDigit)

def number? (s : Text) : Option (Json × Text) :=
  match Lexeme.int s with
  | none => none
  | some (t, r) =>
    if hasIdleZero t then none
    else
      let f := (fraction r).getD ([], r)
      let e := (Lexeme.exponent f.2).getD ([], f.2)
      some (numberOf t f.1 e.1, e.2)

def word? (w : Text) (j : Json) (s : Text) : Option (Json × Text) :=
  if w.isPrefixOf s then some (j, s.drop w.length) else none

def isSpace (c : CodePoint) : Bool := c.val == 0x20 || c.val == 0x09 || c.val == 0x0A || c.val == 0x0D

def token? (c : CodePoint) (s : Text) : Option (Token × Text) :=
  if c.is '[' then some (.openArray, s)
  else if c.is ']' then some (.closeArray, s)
  else if c.is '\x7b' then some (.openObject, s)
  else if c.is '\x7d' then some (.closeObject, s)
  else if c.is ':' then some (.colon, s)
  else if c.is ',' then some (.comma, s)
  else if c = .quotation then (stringRest s).map fun (t, r) => (.value (.str t), r)
  else
    (((number? (c :: s)).or (word? (lit "null") .null (c :: s))).or
      ((word? (lit "true") (.bool true) (c :: s)).or
        (word? (lit "false") (.bool false) (c :: s)))).map fun (j, r) => (.value j, r)

theorem length_getD_le {f : Text → Option (Text × Text)} (hf : Cuts f) (s : Text) :
    ((f s).getD ([], s)).2.length ≤ s.length := by
  cases h : f s with
  | none => simp
  | some p => rw [hf s p.1 p.2 h]; simp

theorem number?_length {s r : Text} {j : Json} (h : number? s = some (j, r)) :
    r.length < s.length := by
  unfold number? at h
  split at h
  · cases h
  · next t q hi =>
    split at h
    · cases h
    · cases h
      have hi := length_lt_of_cut Lexeme.cuts_int Lexeme.finds_int hi
      have hf := length_getD_le
        (Lexeme.cuts_andThen (Lexeme.cuts_single '.') (Lexeme.cuts_run CodePoint.isDigit)) q
      have he := length_getD_le Lexeme.cuts_exponent ((fraction q).getD ([], q)).2
      simp only [fraction] at he ⊢
      omega

theorem word?_length {w s r : Text} {j k : Json} (hw : 0 < w.length)
    (h : word? w j s = some (k, r)) : r.length < s.length ∨ s = [] := by
  unfold word? at h
  split at h
  · cases h
    cases s with
    | nil => exact .inr rfl
    | cons c s => left; simp only [List.length_drop, List.length_cons]; omega
  · cases h

theorem token?_length {c : CodePoint} {s r : Text} {t : Token} (h : token? c s = some (t, r)) :
    r.length ≤ s.length := by
  unfold token? at h
  repeat' split at h
  all_goals try (cases h; exact Nat.le_refl _)
  · rw [Option.map_eq_some_iff] at h
    obtain ⟨⟨a, b⟩, hb, he⟩ := h
    cases he
    exact stringRest_length s _ _ hb
  · rw [Option.map_eq_some_iff] at h
    obtain ⟨⟨a, b⟩, hb, he⟩ := h
    cases he
    have key : ∀ {w : Text} {j k : Json} {q : Text}, 0 < w.length →
        word? w j (c :: s) = some (k, q) → q.length ≤ s.length := by
      intro w j k q hw hq
      rcases word?_length hw hq with h | h
      · simp only [List.length_cons] at h; omega
      · cases h
    simp only [Option.or_eq_some_iff] at hb
    rcases hb with (hb | ⟨_, hb⟩) | ⟨_, hb | ⟨_, hb⟩⟩
    · have := number?_length hb
      simp only [List.length_cons] at this
      omega
    · exact key (by decide) hb
    · exact key (by decide) hb
    · exact key (by decide) hb

def tokens? (s : Text) : Option (List Token) :=
  match s with
  | [] => some []
  | c :: s =>
    if isSpace c then tokens? s
    else match h : token? c s with
      | none => none
      | some (t, r) =>
        have := token?_length h
        (tokens? r).map (t :: ·)
termination_by s.length
decreasing_by all_goals simp only [List.length_cons]; omega

/-- An array or an object still open, what it holds the newest first. -/
inductive Frame where
  | arr (items : List Json)
  | obj (members : List (Text × Json)) (key : Text)

inductive Want where
  | value
  | itemOrEnd
  | key
  | keyOrEnd
  | colon
  | separator

inductive State where
  | reading (frames : List Frame) (want : Want)
  | read (j : Json)

namespace State

def deliver (j : Json) : List Frame → State
  | [] => .read j
  | .arr items :: fs => .reading (.arr (j :: items) :: fs) .separator
  | .obj members key :: fs => .reading (.obj ((key, j) :: members) key :: fs) .separator

def step (s : State) (t : Token) : Option State :=
  match s, t with
  | .reading fs .value, .value j | .reading fs .itemOrEnd, .value j => some (deliver j fs)
  | .reading fs .value, .openArray | .reading fs .itemOrEnd, .openArray =>
    some (.reading (.arr [] :: fs) .itemOrEnd)
  | .reading fs .value, .openObject | .reading fs .itemOrEnd, .openObject =>
    some (.reading (.obj [] [] :: fs) .keyOrEnd)
  | .reading (.arr _ :: fs) .itemOrEnd, .closeArray => some (deliver (.arr []) fs)
  | .reading (.obj _ _ :: fs) .keyOrEnd, .closeObject => some (deliver (.obj []) fs)
  | .reading (.obj ms _ :: fs) .key, .value (.str k)
  | .reading (.obj ms _ :: fs) .keyOrEnd, .value (.str k) => some (.reading (.obj ms k :: fs) .colon)
  | .reading fs .colon, .colon => some (.reading fs .value)
  | .reading (.arr js :: fs) .separator, .comma => some (.reading (.arr js :: fs) .value)
  | .reading (.obj ms k :: fs) .separator, .comma => some (.reading (.obj ms k :: fs) .key)
  | .reading (.arr js :: fs) .separator, .closeArray => some (deliver (.arr js.reverse) fs)
  | .reading (.obj ms _ :: fs) .separator, .closeObject => some (deliver (.obj ms.reverse) fs)
  | _, _ => none

end State

def ofTokens? (ts : List Token) : Option Json :=
  match ts.foldlM State.step (.reading [] .value) with
  | some (.read j) => some j
  | _ => none

def parse? (s : Text) : Option Json := do
  let ts ← tokens? s
  ofTokens? ts

end EnumForms.Json
