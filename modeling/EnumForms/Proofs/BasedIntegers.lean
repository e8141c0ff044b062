import EnumForms.Proofs.Order
import EnumForms.Proofs.Reported
import Mathlib.Data.List.Induction
import Mathlib.Data.Nat.Digits.Defs

/-!
Integers in a base. Digits of any base up to 36 denote what their places say. In the bases 2, 8 and
16 the digits may also have the mark of the base in front, a zero and a letter, which is no digit of
that base.
-/
namespace EnumForms

structure Text.DigitsBelow (b : Nat) (ds : Text) : Prop where
  ne_nil : ds ≠ []
  digit : ∀ c ∈ ds, ∃ v, c.digit? = some v ∧ v < b

def Text.positional (b : Nat) (ds : Text) : Nat :=
  Nat.ofDigits b (ds.reverse.map fun c => c.digit?.getD 0)

theorem Escape.number_eq_positional (b : Nat) (ds : Text) : number b ds = ds.positional b := by
  induction ds using List.reverseRecOn with
  | nil => rfl
  | append_singleton ds c ih =>
    calc number b (ds ++ [c]) = b * number b ds + c.digit?.getD 0 := by
          rw [number, List.foldl_append]
          rfl
      _ = c.digit?.getD 0 + b * Text.positional b ds := by rw [ih, Nat.add_comm]
      _ = Text.positional b (ds ++ [c]) := by simp [Text.positional, Nat.ofDigits_cons]

namespace BasedInt

structure Written (t : Text) (negative : Bool) (bs ds : Text) : Prop where
  text : t = Decimal.sign negative ++ (bs ++ .ofChar '#' :: ds)
  base : Decimal.Digits bs
  ne_nil : ds ≠ []
  isAlphanumeric : ∀ c ∈ ds, c.isAlphanumeric = true

def Marked (b : Nat) (ds r : Text) : Prop :=
  ∃ z m ch, ds = z :: m :: r ∧ z.is '0' = true ∧ marker? b = some ch ∧
    (m.is ch = true ∨ m.is ch.toUpper = true)

/-- The integer that digits in a base denote. -/
def Denotes (negative : Bool) (b : Nat) (ds : Text) (i : Int) : Prop :=
  2 ≤ b ∧ b ≤ 36 ∧ ∃ r, (r = ds ∨ Marked b ds r) ∧ r.DigitsBelow b ∧
    i = Decimal.signed negative (r.positional b)

def defect (b : Nat) (t : Text) : Defect :=
  if 2 ≤ b ∧ b ≤ 36 then .badDigits b t else .baseOutOfRange b t

/-! ## Tokens -/

theorem exists_written {s t r : Text} (h : Lexeme.basedInt s = some (t, r)) :
    ∃ negative bs ds, Written t negative bs ds := by
  obtain ⟨a, q, b, ha, hb, rfl⟩ := Lexeme.andThen_eq_some.1 h
  obtain ⟨m, q', ds, hm, hds, rfl⟩ := Lexeme.andThen_eq_some.1 hb
  obtain ⟨negative, bs, hbs, rfl⟩ := Lexeme.int_eq_some ha
  cases q with
  | nil => cases hm
  | cons c q =>
    obtain rfl := Lexeme.single_cons hm
    cases hm
    exact ⟨negative, bs, ds, List.append_assoc .., hbs, Lexeme.finds_run _ _ _ _ hds,
      fun _ => Lexeme.of_mem_run hds⟩

/-! ## Marks -/

variable {b : Nat} {ds r : Text}

theorem unmarked_of_marked (h : Marked b ds r) : unmarked b ds = r := by
  obtain ⟨z, m, ch, rfl, hz, hb, hm⟩ := h
  rw [unmarked, hz, hb, if_pos (by simpa using hm)]

theorem unmarked_eq_self (h : ∀ r, ¬ Marked b ds r) : unmarked b ds = ds := by
  unfold unmarked
  split
  · next z m r =>
    refine if_neg fun hm => ?_
    rw [Bool.and_eq_true, Option.any_eq_true] at hm
    obtain ⟨hz, ch, hb, hm⟩ := hm
    exact h r ⟨z, m, ch, rfl, hz, hb, by simpa using hm⟩
  · rfl

theorem Marked.not_digitsBelow (h : Marked b ds r) : ¬ ds.DigitsBelow b := by
  obtain ⟨z, m, ch, rfl, -, hb, hm⟩ := h
  intro hd
  obtain ⟨v, hv, hlt⟩ := hd.digit m (by simp)
  unfold marker? at hb
  split at hb <;> cases hb <;> rcases hm with hm | hm <;> rw [CodePoint.is_iff] at hm <;>
    subst hm <;> cases hv <;> revert hlt <;> decide

theorem read_digits_iff : (r = ds ∨ Marked b ds r) ∧ r.DigitsBelow b ↔
    r = unmarked b ds ∧ r.DigitsBelow b := by
  refine and_congr_left fun hd => ?_
  by_cases h : ∃ r', Marked b ds r'
  · obtain ⟨r', hr'⟩ := h
    rw [unmarked_of_marked hr']
    constructor
    · rintro (rfl | hr)
      · exact absurd hd hr'.not_digitsBelow
      · rw [← unmarked_of_marked hr, unmarked_of_marked hr']
    · rintro rfl
      exact .inr hr'
  · rw [unmarked_eq_self (not_exists.1 h)]
    exact or_iff_left fun hr => h ⟨r, hr⟩

theorem length_unmarked_le (b : Nat) (ds : Text) : (unmarked b ds).length ≤ ds.length := by
  unfold unmarked
  split
  · split
    · exact Nat.le_add_right _ 2
    · exact le_rfl
  · exact le_rfl

theorem digitsBelow_iff : ds.DigitsBelow b ↔
    ds ≠ [] ∧ ds.all (fun c => c.digit?.any (· < b)) = true := by
  simp only [List.all_eq_true, Option.any_eq_true, decide_eq_true_eq]
  exact ⟨fun h => ⟨h.ne_nil, h.digit⟩, fun h => ⟨h.1, h.2⟩⟩

theorem value?_eq_some_iff {n : Nat} (hl : ds.length ≤ Decimal.limit) : value? b ds = some n ↔
    ∃ r, (r = ds ∨ Marked b ds r) ∧ r.DigitsBelow b ∧ n = r.positional b := by
  have hle : (unmarked b ds).length ≤ Decimal.limit := (length_unmarked_le b ds).trans hl
  simp only [← and_assoc, read_digits_iff]
  simp only [value?, hle, or_true, and_true, ← digitsBelow_iff, Escape.number_eq_positional,
    Option.ite_none_right_eq_some, Option.some.injEq]
  constructor
  · rintro ⟨hd, rfl⟩
    exact ⟨_, ⟨rfl, hd⟩, rfl⟩
  · rintro ⟨r, ⟨rfl, hd⟩, rfl⟩
    exact ⟨hd, rfl⟩

/-! ## Values -/

variable {t bs : Text} {negative : Bool}

theorem Written.read (h : Written t negative bs ds) (hb : bs.length ≤ Decimal.limit)
    (place : Place) : BasedInt.read place t =
      if 2 ≤ Decimal.value bs ∧ Decimal.value bs ≤ 36 then
        match value? (Decimal.value bs) ds with
        | some n => .ok (Decimal.signed negative n)
        | none => .error (.defect place (.badDigits (Decimal.value bs) t))
      else .error (.defect place (.baseOutOfRange (Decimal.value bs) t)) := by
  have hu : Decimal.unsigned t = (negative, bs ++ .ofChar '#' :: ds) := by
    rw [h.text, h.base.unsigned]
  have hmark : ∀ c ∈ (CodePoint.ofChar '#' :: ds).head?, c.isDigit = false := by
    intro c hc
    cases hc
    rfl
  obtain ⟨htake, hdrop⟩ := Lexeme.takeWhile_dropWhile_append h.base.isDigit hmark
  cases hv : value? (Decimal.value bs) ds with
  | none =>
    simp only [BasedInt.read, hu, htake, hdrop, Decimal.value?, if_pos hb, List.tail_cons, hv]
  | some n =>
    simp only [BasedInt.read, hu, htake, hdrop, Decimal.value?, if_pos hb, List.tail_cons, hv]

theorem Written.value_eq_ok_iff (h : Written t negative bs ds) (hb : bs.length ≤ Decimal.limit)
    (hd : ds.length ≤ Decimal.limit) (place : Place) (i : Int) :
    Literal.value place t .basedInt = .ok (.int i) ↔ Denotes negative (Decimal.value bs) ds i := by
  rw [Literal.value, Attempt.map_eq_ok, h.read hb]
  constructor
  · rintro ⟨j, hj, hi⟩
    cases hi
    split at hj
    · next hrange =>
      split at hj
      · next n hn =>
        obtain ⟨r, hr, hdigits, rfl⟩ := (value?_eq_some_iff hd).1 hn
        exact ⟨hrange.1, hrange.2, r, hr, hdigits, (Except.ok.inj hj).symm⟩
      · cases hj
    · cases hj
  · rintro ⟨hlow, hhigh, r, hr, hdigits, rfl⟩
    have hn := (value?_eq_some_iff hd).2 ⟨r, hr, hdigits, rfl⟩
    exact ⟨_, by rw [if_pos ⟨hlow, hhigh⟩, hn], rfl⟩

theorem Written.value_eq_error (h : Written t negative bs ds) (hb : bs.length ≤ Decimal.limit)
    (hd : ds.length ≤ Decimal.limit) (place : Place)
    (hn : ∀ i, ¬ Denotes negative (Decimal.value bs) ds i) :
    Literal.value place t .basedInt = .error (.defect place (defect (Decimal.value bs) t)) := by
  rw [Literal.value, Attempt.map_eq_error, h.read hb, defect]
  split
  · next hrange =>
    split
    · next n hsome =>
      obtain ⟨r, hr, hdigits, rfl⟩ := (value?_eq_some_iff hd).1 hsome
      exact absurd ⟨hrange.1, hrange.2, r, hr, hdigits, rfl⟩ (hn _)
    · rfl
  · rfl

/-- What becomes of a token `B#D` in a text with these trees. -/
structure Settled (s : Text) (trees : List Node) (t : Token) (negative : Bool) (b : Nat)
    (ds : Text) : Prop where
  mem : .literal .basedInt t.text t.place ∈ Node.partsOf trees
  accepted : ∀ before after terms,
    Node.partsOf trees = before ++ .literal .basedInt t.text t.place :: after →
    readTerms s = .ok terms → ∃ i, Denotes negative b ds i ∧
      (Term.leavesOf terms)[(before.filter Node.isLeaf).length]? = some (.int i)
  harmless : ∀ before after i,
    Node.partsOf trees = before ++ .literal .basedInt t.text t.place :: after →
    Denotes negative b ds i → (∀ n ∈ before ++ after, ∃ v, n.value = .ok v) →
    ∃ terms, readTerms s = .ok terms
  refused : ∀ before after,
    Node.partsOf trees = before ++ .literal .basedInt t.text t.place :: after →
    (∀ i, ¬ Denotes negative b ds i) → (∀ n ∈ before, ∃ v, n.value = .ok v) →
    ∃ e, readTerms s = .error e ∧ e = .defect t.place (defect b t.text) ∧
      ∀ file, ∃ report, e.report? s file = some report ∧ report.place = t.place

end BasedInt

/-- In every text that the grammar derives, a token `B#D` denotes an integer if and only if the base
is from 2 to 36 and the digits are below it, after the mark of the base if they begin with it. The
integer is the one that the places of the digits give, with the sign. -/
theorem readTerms_basedInt (s : Text) (tokens : List Token) (trees : List Node)
    (hx : Lexed .start s tokens) (hd : Derives .start tokens trees) (t : Token) (ht : t ∈ tokens)
    (hk : t.kind = .literal .basedInt) :
    (∃ negative bs ds, BasedInt.Written t.text negative bs ds) ∧
    ∀ negative bs ds, BasedInt.Written t.text negative bs ds → bs.length ≤ Decimal.limit →
      ds.length ≤ Decimal.limit →
      BasedInt.Settled s trees t negative (Decimal.value bs) ds := by
  have hread : readTerms s = Node.values trees := by
    rw [readTerms, parse_eq_ok_iff.2 ⟨tokens, hx, hd⟩]
    rfl
  refine ⟨?_, fun negative bs ds hw hbs hds => ?_⟩
  · obtain ⟨q, r, hq, -⟩ := hx.exists_lexeme? t ht
    rw [hk] at hq
    exact BasedInt.exists_written hq
  have hvalue := hw.value_eq_ok_iff hbs hds t.place
  refine ⟨hd.literal_mem_parts ht hk, fun before after terms hs hok => ?_,
    fun before after i hs hi hall => ?_, fun before after hs hn hb => ?_⟩
  · have hleaves := Node.valued_leavesOf (hread.symm.trans hok)
    rw [hs, List.filter_append, List.filter_cons_of_pos rfl] at hleaves
    obtain ⟨v, hv, hval⟩ := hleaves.getElem?
    obtain ⟨i, -, rfl⟩ := Attempt.map_eq_ok.1 hval
    exact ⟨i, (hvalue i).1 hval, hv⟩
  · rw [hread]
    refine Node.exists_values_iff.2 fun n hn => ?_
    rw [hs] at hn
    rcases List.mem_append.1 hn with hn | hn
    · exact hall n (List.mem_append_left _ hn)
    · rcases List.mem_cons.1 hn with rfl | hn
      · exact ⟨_, (hvalue i).2 hi⟩
      · exact hall n (List.mem_append_right _ hn)
  · have herror := Node.values_eq_error hs hb (hw.value_eq_error hbs hds t.place hn)
    exact ⟨_, hread.trans herror, rfl, fun file => ⟨_, rfl, rfl⟩⟩

def mixedBases : Text := lit "\x7b-16#0xfF,2#9\x7d."

theorem readTerms_basedInt_mixedBases : ∃ tokens trees,
    Lexed .start mixedBases tokens ∧ Derives .start tokens trees ∧
    ⟨.literal .basedInt, lit "2#9", ⟨1, 11⟩⟩ ∈ tokens ∧
    BasedInt.Settled mixedBases trees ⟨.literal .basedInt, lit "2#9", ⟨1, 11⟩⟩ false 2 (lit "9") ∧
    BasedInt.Denotes true 16 (lit "0xfF") (-255) ∧
    readTerms mixedBases = .error (.defect ⟨1, 11⟩ (.badDigits 2 (lit "2#9"))) := by
  let good : Token := ⟨.literal .basedInt, lit "-16#0xfF", ⟨1, 2⟩⟩
  let bad : Token := ⟨.literal .basedInt, lit "2#9", ⟨1, 11⟩⟩
  let tokens : List Token :=
    [⟨.openTuple, lit "\x7b", ⟨1, 1⟩⟩, good, ⟨.comma, lit ",", ⟨1, 10⟩⟩, bad,
      ⟨.closeTuple, lit "\x7d", ⟨1, 14⟩⟩, ⟨.dot, lit ".", ⟨1, 15⟩⟩]
  let leaf (t : Token) : Node := .literal .basedInt t.text t.place
  let trees : List Node := [.tuple ⟨1, 1⟩ [leaf good, leaf bad]]
  have hx : Lexed .start mixedBases tokens :=
    .of_scan rfl <| .of_scan rfl <| .of_scan rfl <| .of_scan rfl <| .of_scan rfl <|
      .of_scan rfl .done
  have hd : Derives .start tokens trees := Reading.steps_iff_derives.1 ⟨_, rfl, rfl⟩
  have hw : BasedInt.Written bad.text false (lit "2") (lit "9") :=
    ⟨rfl, ⟨by decide, by decide⟩, by decide, by decide⟩
  have hbad : bad ∈ tokens := by decide
  have h := (readTerms_basedInt mixedBases tokens trees hx hd bad hbad rfl).2 false (lit "2")
    (lit "9") hw (by decide) (by decide)
  have hnine (i : Int) : ¬ BasedInt.Denotes false 2 (lit "9") i := by
    rintro ⟨-, -, r, hr, hdigits, -⟩
    obtain ⟨rfl, hdigits⟩ := BasedInt.read_digits_iff.1 ⟨hr, hdigits⟩
    exact absurd (BasedInt.digitsBelow_iff.1 hdigits) (by decide)
  have hgood : ∃ v, (leaf good).value = .ok v := ⟨.int (-255), rfl⟩
  obtain ⟨e, he, rfl, -⟩ := h.refused [leaf good] [.tuple ⟨1, 1⟩ [leaf good, leaf bad]] rfl hnine
    (by simpa using hgood)
  refine ⟨tokens, trees, hx, hd, hbad, h, ?_, he⟩
  exact ⟨by decide, by decide, lit "fF", .inr ⟨_, _, _, rfl, rfl, rfl, .inl rfl⟩,
    BasedInt.digitsBelow_iff.2 (by decide), rfl⟩

/-- Digits with the mark of their base are read, though the letter of the mark is no digit of it. -/
theorem not_digitsBelow_marked :
    readTerms (lit "16#0x1F.") = .ok [.int 31] ∧ ¬ (lit "0x1F").DigitsBelow 16 := by
  let tokens : List Token :=
    [⟨.literal .basedInt, lit "16#0x1F", ⟨1, 1⟩⟩, ⟨.dot, lit ".", ⟨1, 8⟩⟩]
  have hx : Lexed .start (lit "16#0x1F.") tokens := .of_scan rfl <| .of_scan rfl .done
  have hd : Derives .start tokens [.literal .basedInt (lit "16#0x1F") ⟨1, 1⟩] :=
    Reading.steps_iff_derives.1 ⟨_, rfl, rfl⟩
  refine ⟨?_, fun h => absurd (BasedInt.digitsBelow_iff.1 h) (by decide)⟩
  rw [readTerms, parse_eq_ok_iff.2 ⟨_, hx, hd⟩]
  rfl

end EnumForms
