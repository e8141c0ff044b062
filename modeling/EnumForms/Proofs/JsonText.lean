import EnumForms.Json.Reader
import EnumForms.Proofs.FloatText

/-!
A JSON document is found again in its text. The text of a value is cut into the tokens of the value
wherever what follows cannot prolong a number, and these tokens are taken as the value whatever is
open around it.
-/
namespace EnumForms.Json

open CodePoint (backslash quotation)

/-! ## Strings -/

theorem unit?_append {s : Text} {p : CodePoint} (h : unit? s = some (p, [])) (rest : Text) :
    unit? (s ++ rest) = some (p, rest) := by
  unfold unit? at h
  split at h
  · obtain ⟨q, hq, he⟩ := Option.map_eq_some_iff.1 h
    cases he
    simp [unit?, hq]
  · cases h

theorem unit?_hex {c : CodePoint} (h : c.val < 0x20) (rest : Text) :
    unit? (Text.hex 4 c.val ++ rest) = some (c, rest) := by
  have hc : ∀ n : Fin 0x20,
      unit? (Text.hex 4 n) = some (⟨n, n.isLt.trans (by decide)⟩, []) := by decide
  exact unit?_append (hc ⟨c.val, h⟩) rest

theorem escape?_unit {p : CodePoint} {s r : Text} (h : unit? s = some (p, r))
    (hp : isHighSurrogate p.val = false) : escape? (.ofChar 'u' :: s) = some (p, r) := by
  have hj (n : Nat) : joined? p.val n = none := by simp [joined?, hp]
  have hu : (CodePoint.ofChar 'u').is 'u' = true := rfl
  simp only [escape?, hu, if_true, h, hj]
  split <;> rfl

theorem escape?_named {e c : CodePoint} (hu : e.is 'u' = false) (h : named? e = some c) (s : Text) :
    escape? (e :: s) = some (c, s) := by
  simp [escape?, hu, h]

theorem stringRest_escape {s r : Text} {p : CodePoint} (h : escape? s = some (p, r)) :
    stringRest (backslash :: s) = (stringRest r).map fun (t, q) => (p :: t, q) := by
  have hq : backslash ≠ quotation := by decide
  have hl : ¬ backslash.val < 0x20 := by decide
  rw [stringRest.eq_def]
  simp only [if_neg hq, if_neg hl, if_true]
  split
  · next hn => rw [h] at hn; cases hn
  · next hs => rw [h] at hs; cases hs; rfl

theorem stringRest_plain {c : CodePoint} (hq : c ≠ quotation) (hl : ¬ c.val < 0x20)
    (hb : c ≠ backslash) (s : Text) :
    stringRest (c :: s) = (stringRest s).map fun (t, q) => (c :: t, q) := by
  rw [stringRest.eq_def]
  simp only [if_neg hq, if_neg hl, if_neg hb]

theorem stringRest_stringPoint (c : CodePoint) (s : Text) :
    stringRest (stringPoint c ++ s) = (stringRest s).map fun (t, q) => (c :: t, q) := by
  unfold stringPoint
  split
  · next h =>
    refine stringRest_escape (escape?_named ?_ ?_ s)
    · rcases h with rfl | rfl <;> decide
    · rcases h with rfl | rfl <;> decide
  · next hc =>
    rw [not_or] at hc
    obtain ⟨n, hn⟩ := c
    split
    all_goals first
      | next h => cases h; exact stringRest_escape (escape?_named rfl rfl s)
      | skip
    split
    · next hl =>
      have hlt : n < 0x20 := hl
      have hs : isHighSurrogate n = false := by
        simp only [isHighSurrogate, Bool.and_eq_false_iff, decide_eq_false_iff_not]
        omega
      exact stringRest_escape (escape?_unit (unit?_hex (c := ⟨n, hn⟩) hl s) hs)
    · next hl => exact stringRest_plain hc.2 hl hc.1 s

theorem stringRest_flatMap (s rest : Text) :
    stringRest (s.flatMap stringPoint ++ quotation :: rest) = some (s, rest) := by
  induction s with
  | nil => simp [stringRest]
  | cons c s ih => rw [List.flatMap_cons, List.append_assoc, stringRest_stringPoint, ih]; rfl

/-! ## Numbers -/

theorem unsigned_ofInt (i : Int) :
    Decimal.unsigned (Decimal.ofInt i) = (decide (i < 0), Decimal.ofNat i.natAbs) := by
  have hu := (Decimal.digits_ofNat i.natAbs).unsigned (i < 0) []
  rwa [List.append_nil, ← Decimal.ofInt_eq] at hu

theorem value_lt {ds : Text} (h : ∀ c ∈ ds, c.isDigit = true) :
    Decimal.value ds < 10 ^ ds.length := by
  induction ds using List.reverseRecOn with
  | nil => exact Nat.one_pos
  | append_singleton ds c ih =>
    rw [List.forall_mem_append, List.forall_mem_singleton] at h
    have hlt := ih h.1
    have hc : Decimal.value [c] < 10 := by
      have hd := h.2
      simp only [CodePoint.isDigit, Bool.and_eq_true, decide_eq_true_eq] at hd
      simp only [Decimal.value, List.foldl_cons, List.foldl_nil]
      omega
    rw [Decimal.value_append, List.length_append, List.length_singleton, pow_succ]
    omega

theorem hasIdleZero_ofInt (i : Int) : hasIdleZero (Decimal.ofInt i) = false := by
  have hd := Decimal.digits_ofNat i.natAbs
  have hv := Decimal.value_ofNat i.natAbs
  unfold hasIdleZero
  rw [unsigned_ofInt]
  split
  · next z y ds hds =>
    change Decimal.ofNat i.natAbs = z :: y :: ds at hds
    refine Bool.eq_false_iff.2 fun hz => ?_
    have hlong : (Decimal.ofNat i.natAbs).length = (y :: ds).length + 1 := by rw [hds]; rfl
    have htail : Decimal.value (lit "0" ++ (y :: ds)) = i.natAbs := by
      rw [← hv, hds, CodePoint.is_iff.1 hz]
      rfl
    rw [Decimal.value_append] at htail
    have hlt := value_lt fun c hc => hd.isDigit c (hds ▸ List.mem_cons_of_mem z hc)
    have hzero : Decimal.value (lit "0") = 0 := by decide
    rw [hzero, Nat.zero_mul, Nat.zero_add] at htail
    rw [htail] at hlt
    have hpos : 0 < (y :: ds).length := Nat.succ_pos _
    have hle := Decimal.length_ofNat_le hpos hlt
    omega
  · rfl

theorem numberOf_ofInt (i : Int) : numberOf (Decimal.ofInt i) [] [] = .int i := by
  simp only [numberOf, List.append_nil, if_true, unsigned_ofInt, Decimal.value_ofNat, Decimal.signed,
    decide_eq_true_eq, Json.int.injEq]
  omega

theorem fraction_eq_none {rest : Text} (h : Stops rest) : fraction rest = none := by
  cases rest with
  | nil => rfl
  | cons c rest =>
    cases hc : c.is '.' with
    | true =>
      have hs : Lexeme.single '.' (c :: rest) = some ([c], rest) := by simp [Lexeme.single, hc]
      exact Lexeme.andThen_of_none hs
        (Lexeme.run_eq_none (h.fraction rest (by rw [CodePoint.is_iff.1 hc])))
    | false => simp [fraction, Lexeme.andThen, Lexeme.single, hc]

theorem number?_ofInt (i : Int) {rest : Text} (h : Stops rest) :
    number? (Decimal.ofInt i ++ rest) = some (.int i, rest) := by
  have hint := Lexeme.int_append (Decimal.digits_ofNat i.natAbs) h.digit (i < 0)
  rw [← List.append_assoc, ← Decimal.ofInt_eq] at hint
  simp [number?, hint, hasIdleZero_ofInt, fraction_eq_none h, FloatNumeral.exponent_eq_none h,
    numberOf_ofInt]

/-! ## Tokens -/

theorem tokens?_cons {c : CodePoint} {s r : Text} {t : Token} (hc : isSpace c = false)
    (h : token? c s = some (t, r)) : tokens? (c :: s) = (tokens? r).map (t :: ·) := by
  rw [tokens?.eq_def]
  simp only [hc, Bool.false_eq_true, if_false]
  split
  · next hn => rw [h] at hn; cases hn
  · next hs => rw [h] at hs; cases hs; rfl

theorem tokens?_space {c : CodePoint} (hc : isSpace c = true) (s : Text) :
    tokens? (c :: s) = tokens? s := by
  rw [tokens?.eq_def]
  simp only [hc, if_true]

theorem tokens?_indent (level : Nat) (s : Text) : tokens? (indent level ++ s) = tokens? s := by
  have hspaces (n : Nat) : tokens? (Text.spaces n ++ s) = tokens? s := by
    induction n with
    | zero => rfl
    | succ n ih =>
      rw [Text.spaces, List.replicate_succ, List.cons_append, tokens?_space (by decide)]
      exact ih
  rw [indent, List.cons_append, tokens?_space (by decide), hspaces]

theorem tokens?_stringText (k s : Text) :
    tokens? (stringText k ++ s) = (tokens? s).map (.value (.str k) :: ·) := by
  have hq (s : Text) : token? quotation s = (stringRest s).map fun (t, r) => (.value (.str t), r) :=
    rfl
  have hs : stringText k ++ s = quotation :: (k.flatMap stringPoint ++ quotation :: s) := by
    simp [stringText]
  rw [hs]
  refine tokens?_cons (by decide) ?_
  rw [hq, stringRest_flatMap]
  rfl

theorem token?_number {c : CodePoint} {s r : Text} {j : Json}
    (hc : c.isDigit = true ∨ c = .ofChar '-') (h : number? (c :: s) = some (j, r)) :
    token? c s = some (.value j, r) := by
  have hne (ch : Char) (hd : (CodePoint.ofChar ch).isDigit = false)
      (hm : CodePoint.ofChar ch ≠ .ofChar '-') : c.is ch = false := by
    refine Bool.eq_false_iff.2 fun hi => ?_
    rw [CodePoint.is_iff] at hi
    subst hi
    exact hc.elim (Bool.eq_false_iff.1 hd) hm
  have hq : c ≠ quotation := by
    rintro rfl
    exact hc.elim (by decide) (by decide)
  rw [token?, hne '[' (by decide) (by decide), hne ']' (by decide) (by decide),
    hne '\x7b' (by decide) (by decide), hne '\x7d' (by decide) (by decide),
    hne ':' (by decide) (by decide), hne ',' (by decide) (by decide), if_neg hq, h]
  rfl

theorem tokens?_ofInt (i : Int) {rest : Text} (h : Stops rest) :
    tokens? (Decimal.ofInt i ++ rest) = (tokens? rest).map (.value (.int i) :: ·) := by
  have hn := number?_ofInt i h
  have hd := Decimal.digits_ofNat i.natAbs
  obtain ⟨c, s, hs, hc⟩ : ∃ c s, Decimal.ofInt i = c :: s ∧
      (c.isDigit = true ∨ c = .ofChar '-') := by
    cases i with
    | ofNat n =>
      obtain ⟨c, s, hs⟩ := List.exists_cons_of_ne_nil hd.ne_nil
      exact ⟨c, s, hs, .inl (hd.isDigit c (hs ▸ List.mem_cons_self))⟩
    | negSucc n => exact ⟨_, _, rfl, .inr rfl⟩
  have hspace : isSpace c = false := by
    obtain hc | rfl := hc
    · simp only [CodePoint.isDigit, isSpace] at *
      grind
    · decide
  rw [hs] at hn ⊢
  exact tokens?_cons hspace (token?_number hc hn)

mutual

def tokens : Json → List Token
  | .arr [] => [.openArray, .closeArray]
  | .arr (j :: js) => .openArray :: (tokens j ++ itemTokens js ++ [.closeArray])
  | .obj [] => [.openObject, .closeObject]
  | .obj ((k, j) :: ms) =>
    .openObject :: .value (.str k) :: .colon :: (tokens j ++ memberTokens ms ++ [.closeObject])
  | j => [.value j]

def itemTokens : List Json → List Token
  | [] => []
  | j :: js => .comma :: (tokens j ++ itemTokens js)

def memberTokens : List (Text × Json) → List Token
  | [] => []
  | (k, j) :: ms => .comma :: .value (.str k) :: .colon :: (tokens j ++ memberTokens ms)

end

inductive Whole : Json → Prop where
  | null : Whole .null
  | bool (b : Bool) : Whole (.bool b)
  | int (i : Int) : Whole (.int i)
  | str (s : Text) : Whole (.str s)
  | arr {js : List Json} : (∀ j ∈ js, Whole j) → Whole (.arr js)
  | obj {ms : List (Text × Json)} : (∀ m ∈ ms, Whole m.2) → Whole (.obj ms)

theorem tokens?_sign (ch : Char) {w : String} {t : Token} (hw : lit w = [.ofChar ch])
    (hc : isSpace (.ofChar ch) = false) (ht : ∀ s, token? (.ofChar ch) s = some (t, s)) (s : Text) :
    tokens? (lit w ++ s) = (tokens? s).map (t :: ·) := by
  rw [hw]
  exact tokens?_cons hc (ht s)

theorem tokens?_comma (s : Text) : tokens? (lit "," ++ s) = (tokens? s).map (.comma :: ·) :=
  tokens?_sign ',' rfl (by decide) (fun _ => rfl) s

theorem tokens?_colon (s : Text) : tokens? (lit ": " ++ s) = (tokens? s).map (.colon :: ·) := by
  have hs : lit ": " ++ s = lit ":" ++ (.space :: s) := rfl
  rw [hs, tokens?_sign ':' rfl (by decide) (fun _ => rfl), tokens?_space (by decide)]

/-- The text is cut into some tokens, if what follows prolongs none of them. -/
def CutInto (t : Text) (ts : List Token) : Prop :=
  ∀ rest, Stops rest → tokens? (t ++ rest) = (tokens? rest).map (ts ++ ·)

theorem stops_newline (s : Text) : Stops (.newline :: s) :=
  stops_cons (by decide) (by decide) (by decide) s

theorem stops_indent (level : Nat) (s : Text) : Stops (indent level ++ s) := stops_newline _

theorem stops_itemsAt (level : Nat) (js : List Json) {rest : Text} (h : Stops rest) :
    Stops (itemsAt level js ++ rest) := by
  cases js with
  | nil => exact h
  | cons j js => exact stops_of_sign (.inl rfl) _

theorem cutInto_itemsAt {js : List Json} {level : Nat}
    (h : ∀ j ∈ js, CutInto (j.textAt level) j.tokens) :
    CutInto (itemsAt level js) (itemTokens js) := by
  intro rest hr
  induction js with
  | nil => simp [itemsAt, itemTokens]
  | cons j js ih =>
    rw [List.forall_mem_cons] at h
    simp only [itemsAt, List.append_assoc]
    rw [tokens?_comma, tokens?_indent, h.1 _ (stops_itemsAt level js hr), ih h.2]
    simp [itemTokens, Function.comp_def]

theorem stops_membersAt (level : Nat) (ms : List (Text × Json)) {rest : Text} (h : Stops rest) :
    Stops (membersAt level ms ++ rest) := by
  cases ms with
  | nil => exact h
  | cons m ms => exact stops_of_sign (.inl rfl) _

theorem cutInto_membersAt {ms : List (Text × Json)} {level : Nat}
    (h : ∀ m ∈ ms, CutInto (m.2.textAt level) m.2.tokens) :
    CutInto (membersAt level ms) (memberTokens ms) := by
  intro rest hr
  induction ms with
  | nil => simp [membersAt, memberTokens]
  | cons m ms ih =>
    obtain ⟨k, j⟩ := m
    rw [List.forall_mem_cons] at h
    simp only [membersAt, List.append_assoc]
    rw [tokens?_comma, tokens?_indent, tokens?_stringText, tokens?_colon,
      h.1 _ (stops_membersAt level ms hr), ih h.2]
    simp [memberTokens, Function.comp_def]

theorem cutInto_textAt {j : Json} (h : j.Whole) (level : Nat) : CutInto (j.textAt level) j.tokens := by
  induction h generalizing level with
  | null =>
    exact fun rest _ => tokens?_cons (c := .ofChar 'n') (s := lit "ull" ++ rest) (by decide) rfl
  | bool b =>
    intro rest _
    cases b with
    | true => exact tokens?_cons (c := .ofChar 't') (s := lit "rue" ++ rest) (by decide) rfl
    | false => exact tokens?_cons (c := .ofChar 'f') (s := lit "alse" ++ rest) (by decide) rfl
  | int i => exact fun rest hr => tokens?_ofInt i hr
  | str s => exact fun rest _ => tokens?_stringText s rest
  | @arr js _ ih =>
    intro rest hr
    have hopen (s : Text) : tokens? (lit "[" ++ s) = (tokens? s).map (.openArray :: ·) :=
      tokens?_sign '[' rfl (by decide) (fun _ => rfl) s
    have hclose (s : Text) : tokens? (lit "]" ++ s) = (tokens? s).map (.closeArray :: ·) :=
      tokens?_sign ']' rfl (by decide) (fun _ => rfl) s
    cases js with
    | nil =>
      have ht : textAt level (.arr []) ++ rest = lit "[" ++ (lit "]" ++ rest) := rfl
      rw [ht, hopen, hclose]
      simp [tokens, Function.comp_def]
    | cons j js =>
      rw [List.forall_mem_cons] at ih
      have hitems := cutInto_itemsAt fun j hj => ih.2 j hj (level + 1)
      simp only [textAt, List.append_assoc]
      rw [hopen, tokens?_indent, ih.1 _ _ (stops_itemsAt _ js (stops_indent _ _)),
        hitems _ (stops_indent _ _), tokens?_indent, hclose]
      simp [tokens, Function.comp_def]
  | @obj ms _ ih =>
    intro rest hr
    have hopen (s : Text) : tokens? (lit "\x7b" ++ s) = (tokens? s).map (.openObject :: ·) :=
      tokens?_sign '\x7b' rfl (by decide) (fun _ => rfl) s
    have hclose (s : Text) : tokens? (lit "\x7d" ++ s) = (tokens? s).map (.closeObject :: ·) :=
      tokens?_sign '\x7d' rfl (by decide) (fun _ => rfl) s
    cases ms with
    | nil =>
      have ht : textAt level (.obj []) ++ rest = lit "\x7b" ++ (lit "\x7d" ++ rest) := rfl
      rw [ht, hopen, hclose]
      simp [tokens, Function.comp_def]
    | cons m ms =>
      obtain ⟨k, j⟩ := m
      rw [List.forall_mem_cons] at ih
      have hmembers := cutInto_membersAt fun m hm => ih.2 m hm (level + 1)
      simp only [textAt, List.append_assoc]
      rw [hopen, tokens?_indent, tokens?_stringText, tokens?_colon,
        ih.1 _ _ (stops_membersAt _ ms (stops_indent _ _)), hmembers _ (stops_indent _ _),
        tokens?_indent, hclose]
      simp [tokens, Function.comp_def]

/-! ## Taking the tokens -/

def Taken (j : Json) : Prop :=
  ∀ fs want ts, want = .value ∨ want = .itemOrEnd →
    (tokens j ++ ts).foldlM State.step (.reading fs want) = ts.foldlM State.step (State.deliver j fs)

theorem foldlM_itemTokens {js : List Json} (h : ∀ j ∈ js, j.Taken) (acc : List Json)
    (fs : List Frame) (ts : List Token) :
    (itemTokens js ++ .closeArray :: ts).foldlM State.step (.reading (.arr acc :: fs) .separator) =
      ts.foldlM State.step (State.deliver (.arr (acc.reverse ++ js)) fs) := by
  induction js generalizing acc with
  | nil => simp [itemTokens, State.step]
  | cons j js ih =>
    rw [List.forall_mem_cons] at h
    have hcomma : State.step (.reading (.arr acc :: fs) .separator) .comma =
        some (.reading (.arr acc :: fs) .value) := rfl
    rw [itemTokens, List.cons_append, List.foldlM_cons, hcomma, List.append_assoc]
    refine (h.1 _ _ _ (.inl rfl)).trans ((ih h.2 (j :: acc)).trans ?_)
    simp

theorem foldlM_memberTokens {ms : List (Text × Json)} (h : ∀ m ∈ ms, m.2.Taken)
    (acc : List (Text × Json)) (key : Text) (fs : List Frame) (ts : List Token) :
    (memberTokens ms ++ .closeObject :: ts).foldlM State.step
        (.reading (.obj acc key :: fs) .separator) =
      ts.foldlM State.step (State.deliver (.obj (acc.reverse ++ ms)) fs) := by
  induction ms generalizing acc key with
  | nil => simp [memberTokens, State.step]
  | cons m ms ih =>
    obtain ⟨k, j⟩ := m
    rw [List.forall_mem_cons] at h
    have hcomma : State.step (.reading (.obj acc key :: fs) .separator) .comma =
        some (.reading (.obj acc key :: fs) .key) := rfl
    have hkey : State.step (.reading (.obj acc key :: fs) .key) (.value (.str k)) =
        some (.reading (.obj acc k :: fs) .colon) := rfl
    have hcolon : State.step (.reading (.obj acc k :: fs) .colon) .colon =
        some (.reading (.obj acc k :: fs) .value) := rfl
    simp only [memberTokens, List.cons_append, List.foldlM_cons, hcomma, hkey, hcolon,
      List.append_assoc, Option.bind_eq_bind, Option.bind_some]
    refine (h.1 _ _ _ (.inl rfl)).trans ((ih h.2 ((k, j) :: acc) k).trans ?_)
    simp

theorem Whole.taken {j : Json} (h : j.Whole) : j.Taken := by
  induction h with
  | null | bool b | int i | str s =>
    rintro fs want ts (rfl | rfl) <;> rfl
  | @arr js _ ih =>
    intro fs want ts hw
    have hopen : State.step (.reading fs want) .openArray =
        some (.reading (.arr [] :: fs) .itemOrEnd) := by
      obtain rfl | rfl := hw <;> rfl
    cases js with
    | nil =>
      have hclose : State.step (.reading (.arr [] :: fs) .itemOrEnd) .closeArray =
          some (State.deliver (.arr []) fs) := rfl
      simp only [tokens, List.cons_append, List.nil_append, List.foldlM_cons, hopen, hclose,
        Option.bind_eq_bind, Option.bind_some]
    | cons j js =>
      rw [List.forall_mem_cons] at ih
      simp only [tokens, List.cons_append, List.foldlM_cons, hopen, List.append_assoc,
        Option.bind_eq_bind, Option.bind_some]
      exact (ih.1 _ _ _ (.inr rfl)).trans (foldlM_itemTokens ih.2 [j] fs ts)
  | @obj ms _ ih =>
    intro fs want ts hw
    have hopen : State.step (.reading fs want) .openObject =
        some (.reading (.obj [] [] :: fs) .keyOrEnd) := by
      obtain rfl | rfl := hw <;> rfl
    cases ms with
    | nil =>
      have hclose : State.step (.reading (.obj [] [] :: fs) .keyOrEnd) .closeObject =
          some (State.deliver (.obj []) fs) := rfl
      simp only [tokens, List.cons_append, List.nil_append, List.foldlM_cons, hopen, hclose,
        Option.bind_eq_bind, Option.bind_some]
    | cons m ms =>
      obtain ⟨k, j⟩ := m
      rw [List.forall_mem_cons] at ih
      have hkey : State.step (.reading (.obj [] [] :: fs) .keyOrEnd) (.value (.str k)) =
          some (.reading (.obj [] k :: fs) .colon) := rfl
      have hcolon : State.step (.reading (.obj [] k :: fs) .colon) .colon =
          some (.reading (.obj [] k :: fs) .value) := rfl
      simp only [tokens, List.cons_append, List.foldlM_cons, hopen, hkey, hcolon, List.append_assoc,
        Option.bind_eq_bind, Option.bind_some]
      exact (ih.1 _ _ _ (.inl rfl)).trans (foldlM_memberTokens ih.2 [(k, j)] k fs ts)

/-- A document is found again in its text. -/
theorem parse?_textAt {j : Json} (h : j.Whole) : parse? (j.textAt 0) = some j := by
  have hstops : Stops [] := ⟨fun _ hc => (Option.not_mem_none _ hc).elim, rfl, fun _ hr => by cases hr⟩
  have hc := cutInto_textAt h 0 [] hstops
  have ht := h.taken [] .value [] (.inl rfl)
  rw [List.append_nil] at hc ht
  rw [parse?, hc]
  simp [tokens?, ofTokens?, ht, State.deliver]

end EnumForms.Json
