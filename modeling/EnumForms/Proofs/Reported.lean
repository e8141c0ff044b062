import EnumForms.Proofs.Characters
import EnumForms.Proofs.Grammar
import EnumForms.Proofs.Numerals
import EnumForms.ReadError.Message

/-!
A text without long runs of digits is read or has an error that is reported. Only an integer with
too many digits has none, and its digits are in the text one after the other.
-/
namespace EnumForms

def Text.DigitsWithin (n : Nat) (s : Text) : Prop :=
  ∀ ds, ds <:+: s → (∀ c ∈ ds, c.isDigit = true) → ds.length ≤ n

theorem Text.DigitsWithin.of_infix {n : Nat} {s t : Text} (h : s.DigitsWithin n) (ht : t <:+: s) :
    t.DigitsWithin n := fun ds hds => h ds (hds.trans ht)

theorem Decimal.unsigned_suffix (t : Text) : (unsigned t).2 <:+ t := by
  unfold unsigned
  split
  · split
    · exact List.suffix_cons ..
    · exact List.suffix_refl _
  · exact List.suffix_refl _

theorem Decimal.value?_of_digitsWithin {ds : Text} (h : ds.DigitsWithin limit)
    (hd : ∀ c ∈ ds, c.isDigit = true) : value? ds = some (value ds) :=
  if_pos (h ds (List.infix_refl _) hd)

theorem Lexeme.int_eq_some {s t r : Text} (h : int s = some (t, r)) :
    ∃ negative ds, Decimal.Digits ds ∧ t = Decimal.sign negative ++ ds := by
  obtain ⟨a, q, b, ha, hb, rfl⟩ := andThen_eq_some.1 h
  have hds : Decimal.Digits b := ⟨finds_run _ _ _ _ hb, fun _ => of_mem_run hb⟩
  cases hm : single '-' s with
  | none =>
    rw [optional, hm] at ha
    cases ha
    exact ⟨false, b, hds, rfl⟩
  | some p =>
    rw [optional, hm] at ha
    cases ha
    cases s with
    | nil => cases hm
    | cons c s =>
      obtain rfl := single_cons hm
      cases hm
      exact ⟨true, b, hds, rfl⟩

/-! ## Errors that are not met -/

def ReadError.isReported : ReadError → Bool
  | .overlong _ | .notOneCharacter => false
  | _ => true

theorem ReadError.report?_eq_none_iff {source file : Text} {e : ReadError} :
    e.report? source file = none ↔ e.isReported = false := by
  cases e <;> simp [report?, isReported]

def Spares {α : Type} (e : ReadError) (x : Except ReadError α) : Prop := x ≠ .error e

namespace Spares

variable {α β : Type} {e : ReadError} {x : Except ReadError α}

theorem ok (a : α) : Spares e (.ok a) := by
  intro h
  cases h

theorem defect (he : e.isReported = false) (place : Place) (d : Defect) :
    Spares e (.error (.defect place d) : Except ReadError α) := by
  rintro ⟨⟩
  cases he

theorem bind {f : α → Except ReadError β} (hx : Spares e x) (hf : ∀ a, x = .ok a → Spares e (f a)) :
    Spares e (x >>= f) := by
  cases x with
  | ok a => exact hf a rfl
  | error e =>
    rintro ⟨⟩
    exact hx rfl

theorem map {f : α → β} (hx : Spares e x) : Spares e (x.map f) := by
  cases x with
  | ok a => exact ok (f a)
  | error e =>
    rintro ⟨⟩
    exact hx rfl

theorem unquote (he : e.isReported = false) (place : Place) (t : Text) :
    Spares e (unquote place t) := by
  unfold EnumForms.unquote
  split
  · exact ok _
  · exact defect he _ _

theorem joinStrings (he : e.isReported = false) (place : Place) (ts : List Text) :
    Spares e (joinStrings place ts) := by
  induction ts with
  | nil => exact ok []
  | cons t ts ih => exact (unquote he place t).bind fun _ _ => ih.bind fun _ _ => ok _

theorem values {ns : List Node} (h : ∀ n ∈ ns, Spares e n.value) : Spares e (Node.values ns) := by
  induction ns with
  | nil => exact ok []
  | cons n ns ih =>
    rw [List.forall_mem_cons] at h
    exact h.1.bind fun _ _ => (ih h.2).bind fun _ _ => ok _

theorem run (he : e.isReported = false) (r : Reading) (last here : Place) (s : Text) :
    Spares e (r.run last here s) := by
  fun_induction Reading.run r last here s with
  | case3 _ _ _ _ _ _ _ _ _ ih => exact ih
  | case4 _ _ _ _ _ _ _ _ _ _ _ _ _ ih => exact ih
  | _ =>
    rintro ⟨⟩ <;> cases he

end Spares

/-- The values of the trees of a derivation meet an error without a report only in a literal. -/
theorem Derives.spares {e : ReadError} (he : e.isReported = false) {s : Symbol} {us : List Token}
    {ns : List Node} (h : Derives s us ns)
    (hu : ∀ t ∈ us, ∀ l, t.kind = .literal l → Spares e (l.value t.place t.text)) :
    ∀ n ∈ ns, Spares e n.value := by
  induction h with
  | noForm => exact List.forall_mem_nil _
  | forms _ _ ihu ihv =>
    rw [List.forall_mem_append] at hu
    exact List.forall_mem_cons.2 ⟨ihu hu.1 _ (by simp), ihv hu.2⟩
  | form _ _ ih => exact ih fun t ht => hu t (by simp [ht])
  | literal hk => exact List.forall_mem_singleton.2 (hu _ (by simp) _ hk)
  | strings => exact List.forall_mem_singleton.2 (Spares.joinStrings he _ _).map
  | ofTuple _ ih => exact ih hu
  | ofList _ ih => exact ih hu
  | emptyTuple | emptyList => exact List.forall_mem_singleton.2 (.ok _)
  | tuple _ _ _ ih | list _ _ _ ih =>
    have hn := ih fun t ht => hu t (by simp [ht])
    exact List.forall_mem_singleton.2 ((Spares.values hn).bind fun _ _ => .ok _)
  | listWithTail _ _ _ _ ihu ihv =>
    have hn := ihu fun t ht => hu t (by simp [ht])
    have ht := ihv fun t ht => hu t (by simp [ht])
    refine List.forall_mem_singleton.2 ((Spares.values hn).bind fun _ _ => ?_)
    refine (List.forall_mem_singleton.1 ht).bind fun t _ => ?_
    split
    · exact .ok _
    · exact .defect he _ _
  | tail _ _ ih => exact ih fun t ht => hu t (by simp [ht])
  | one _ ih => exact ih hu
  | more _ _ _ ihu ihv =>
    have hn := ihu fun t ht => hu t (by simp [ht])
    exact List.forall_mem_cons.2 ⟨hn _ (by simp), ihv fun t ht => hu t (by simp [ht])⟩

theorem Lexed.exists_lexeme? {p : Place} {s : Text} {ts : List Token} (h : Lexed p s ts) :
    ∀ t ∈ ts, ∃ q r, t.kind.lexeme? q = some (t.text, r) ∧ q <:+ s := by
  induction h with
  | done => exact List.forall_mem_nil _
  | layout hl _ ih =>
    intro t ht
    obtain ⟨q, r, hq, hs⟩ := ih t ht
    exact ⟨q, r, hq, hs.trans ⟨_, (Lexeme.cuts_layout _ _ _ hl).symm⟩⟩
  | token hk _ ih =>
    intro t ht
    rcases List.mem_cons.1 ht with rfl | ht
    · exact ⟨_, _, hk.1, List.suffix_refl _⟩
    · obtain ⟨q, r, hq, hs⟩ := ih t ht
      exact ⟨q, r, hq, hs.trans ⟨_, (Kind.cuts_lexeme? _ _ _ _ hk.1).symm⟩⟩

theorem spares_readTerms {e : ReadError} (he : e.isReported = false) {s : Text}
    (h : ∀ l q t r place, (Kind.literal l).lexeme? q = some (t, r) → t <:+: s →
      Spares e (l.value place t)) : Spares e (readTerms s) := by
  refine (Spares.run he _ _ _ _).bind fun ns hp => ?_
  obtain ⟨ts, hx, hd⟩ := parse_eq_ok_iff.1 hp
  refine Spares.values (hd.spares he fun t ht l hk => ?_)
  obtain ⟨q, r, hq, hs⟩ := hx.exists_lexeme? t ht
  have hi : t.text <:+: s :=
    List.IsInfix.trans ⟨[], r, (Kind.cuts_lexeme? _ _ _ _ hq).symm⟩ hs.isInfix
  rw [hk] at hq
  exact h l q t.text r t.place hq hi

/-! ## Literals -/

/-- The scanner finds character tokens of one code point only. -/
theorem readTerms_ne_notOneCharacter (s : Text) : readTerms s ≠ .error .notOneCharacter := by
  refine spares_readTerms rfl fun l q t r place ht _ => ?_
  cases l with
  | atom | float => exact .ok _
  | quotedAtom => exact (Spares.unquote rfl place t).map
  | int =>
    rw [Literal.value]
    split
    · exact .ok _
    · rintro ⟨⟩
  | basedInt =>
    refine Spares.map ?_
    simp only [BasedInt.read]
    split
    · rintro ⟨⟩
    · split
      · split
        · exact .ok _
        · exact .defect rfl _ _
      · exact .defect rfl _ _
  | char =>
    refine Spares.map ?_
    obtain ⟨c, hc⟩ | hn := Lexeme.decode?_char ht
    · rw [charCode, hc]
      exact .ok _
    · rw [charCode, hn]
      exact .defect rfl _ _

theorem readTerms_ne_overlong {s : Text} (h : s.DigitsWithin Decimal.limit) (k : Literal) :
    readTerms s ≠ .error (.overlong k) := by
  refine spares_readTerms rfl fun l q t r place ht hi => ?_
  have hu : (Decimal.unsigned t).2.DigitsWithin Decimal.limit :=
    h.of_infix ((Decimal.unsigned_suffix t).isInfix.trans hi)
  cases l with
  | atom | float => exact .ok _
  | quotedAtom => exact (Spares.unquote rfl place t).map
  | int =>
    obtain ⟨negative, ds, hds, rfl⟩ := Lexeme.int_eq_some ht
    have hs := hds.unsigned negative []
    rw [List.append_nil] at hs
    rw [hs] at hu
    simp [Spares, Literal.value, Decimal.int?, hs, Decimal.value?_of_digitsWithin hu hds.isDigit]
  | basedInt =>
    have hb := Decimal.value?_of_digitsWithin (hu.of_infix (List.takeWhile_prefix _).isInfix)
      fun c hc => List.mem_takeWhile_imp hc
    refine Spares.map ?_
    simp only [BasedInt.read, hb]
    split
    · split
      · exact .ok _
      · exact .defect rfl _ _
    · exact .defect rfl _ _
  | char =>
    refine Spares.map ?_
    unfold charCode
    split
    · exact .ok _
    · rintro ⟨⟩
    · exact .defect rfl _ _

theorem readTerms_reported {s : Text} (h : s.DigitsWithin Decimal.limit) {e : ReadError}
    (he : readTerms s = .error e) : e.isReported = true := by
  cases e with
  | overlong l => exact absurd he (readTerms_ne_overlong h l)
  | notOneCharacter => exact absurd he (readTerms_ne_notOneCharacter s)
  | _ => rfl

/-- A text without long runs of digits is read as terms, or has an error with a report. A character
token anywhere stands for one code point, or is reported as out of range; the latter if it is a
number past the last code point, in base sixteen and between braces. -/
theorem readTerms_ok_or_report (s file : Text) :
    (s.DigitsWithin Decimal.limit →
      (∃ ts, readTerms s = .ok ts) ∨
        ∃ e report, readTerms s = .error e ∧ e.report? s file = some report) ∧
    ∀ t r place, (Kind.literal .char).lexeme? s = some (t, r) →
      ((∃ c, Escape.decode? t.tail = some [c] ∧
          Literal.value place t .char = .ok (.int c.val)) ∨
        Escape.decode? t.tail = none ∧
          Literal.value place t .char = .error (.defect place .escapeOutOfRange)) ∧
      (Escape.decode? t.tail = none ↔ ∃ ds, ds ≠ [] ∧ (∀ d ∈ ds, d.isHex = true) ∧
        t = lit "$\\x\x7b" ++ ds ++ lit "\x7d" ∧ 0x10FFFF < Escape.number 16 ds) := by
  refine ⟨fun h => ?_, fun t r place ht => ⟨?_, ?_⟩⟩
  · cases hr : readTerms s with
    | ok ts => exact .inl ⟨ts, rfl⟩
    | error e =>
      have he := readTerms_reported h hr
      cases hm : e.report? s file with
      | some report => exact .inr ⟨e, report, rfl, hm⟩
      | none =>
        rw [ReadError.report?_eq_none_iff.1 hm] at he
        cases he
  · obtain ⟨c, hc⟩ | hn := Lexeme.decode?_char ht
    · exact .inl ⟨c, hc, by simp [Literal.value, charCode, hc, Except.map]⟩
    · exact .inr ⟨hn, by simp [Literal.value, charCode, hn, Except.map]⟩
  · exact Lexeme.decode?_char_eq_none_iff ht

theorem Text.digitsWithin_of_length_le {n : Nat} {s : Text} (h : s.length ≤ n) :
    s.DigitsWithin n := fun _ hds _ => hds.length_le.trans h

def pastLast : Text := lit "$\\x\x7b110000\x7d"

theorem readTerms_ok_or_report_pastLast :
    (pastLast ++ lit ".").DigitsWithin Decimal.limit ∧
    ((∃ ts, readTerms (pastLast ++ lit ".") = .ok ts) ∨
      ∃ e report, readTerms (pastLast ++ lit ".") = .error e ∧
        e.report? (pastLast ++ lit ".") SyntaxReport.noFile = some report) ∧
    (Kind.literal .char).lexeme? (pastLast ++ lit ".") = some (pastLast, lit ".") ∧
    Escape.decode? pastLast.tail = none := by
  have hd : (pastLast ++ lit ".").DigitsWithin Decimal.limit :=
    Text.digitsWithin_of_length_le (by decide)
  have ht : (Kind.literal .char).lexeme? (pastLast ++ lit ".") = some (pastLast, lit ".") := by
    decide
  have h := readTerms_ok_or_report (pastLast ++ lit ".") SyntaxReport.noFile
  have hs := (h.2 pastLast (lit ".") .start ht).2
  exact ⟨hd, h.1 hd, ht, hs.2 ⟨lit "110000", by decide, by decide, rfl, by decide⟩⟩

end EnumForms
