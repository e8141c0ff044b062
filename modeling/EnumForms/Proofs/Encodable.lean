import EnumForms.Form
import EnumForms.Proofs.FloatText
import EnumForms.Text.Terminal
import EnumForms.Text.Utf8

/-!
Texts without surrogates. They are the ones that have bytes in UTF-8, and what is put around a name or
a string to write it brings none in and leaves none out. So a term is written in a file if it has no
surrogate in it and no integer with too many digits.
-/
namespace EnumForms

theorem CodePoint.isSurrogate_of_lt {c : CodePoint} (h : c.val < 0xD800) : c.isSurrogate = false := by
  simp only [isSurrogate, Bool.and_eq_false_iff, decide_eq_false_iff_not]
  omega

namespace Text

def Encodable (t : Text) : Prop := ∀ c ∈ t, c.isSurrogate = false

instance (t : Text) : Decidable t.Encodable :=
  inferInstanceAs (Decidable (∀ c ∈ t, c.isSurrogate = false))

variable {s t : Text} {ts : List Text} {c : CodePoint}

@[simp]
theorem encodable_nil : Encodable [] := List.forall_mem_nil _

@[simp]
theorem encodable_cons : Encodable (c :: t) ↔ c.isSurrogate = false ∧ t.Encodable :=
  List.forall_mem_cons

@[simp]
theorem encodable_append : (s ++ t).Encodable ↔ s.Encodable ∧ t.Encodable :=
  List.forall_mem_append

theorem Encodable.mono (h : t.Encodable) (hs : s ⊆ t) : s.Encodable := fun c hc => h c (hs hc)

@[simp]
theorem encodable_lit (s : String) : (lit s).Encodable := by
  intro c hc
  obtain ⟨ch, -, rfl⟩ := List.mem_map.1 hc
  have hv : ch.val.toNat.isValidChar := ch.valid
  have he : (CodePoint.ofChar ch).val = ch.val.toNat := rfl
  simp only [Nat.isValidChar] at hv
  simp only [CodePoint.isSurrogate, he, Bool.and_eq_false_iff, decide_eq_false_iff_not]
  omega

theorem encodable_map_ofChar (s : List Char) : Encodable (s.map CodePoint.ofChar) := by
  have h := encodable_lit (String.ofList s)
  rwa [lit, String.toList_ofList] at h

theorem encodable_replicate (n : Nat) (h : c.isSurrogate = false) :
    Encodable (List.replicate n c) := by
  intro d hd
  rw [List.eq_of_mem_replicate hd]
  exact h

theorem encodable_hex (width n : Nat) : (hex width n).Encodable :=
  encodable_append.2 ⟨encodable_replicate _ (by decide), encodable_map_ofChar _⟩

theorem encodable_upperHex (n : Nat) : (upperHex n).Encodable := by
  have h := encodable_map_ofChar ((Nat.toDigits 16 n).map Char.toUpper)
  rwa [List.map_map] at h

theorem encodable_join {sep : Text} (h : sep.Encodable) :
    (join sep ts).Encodable ↔ ∀ t ∈ ts, t.Encodable := by
  induction ts with
  | nil => exact iff_of_true encodable_nil (List.forall_mem_nil _)
  | cons t ts ih =>
    cases ts with
    | nil => simp [join]
    | cons u us =>
      rw [join_cons_cons, encodable_append, encodable_append, ih, List.forall_mem_cons]
      simp [h]

theorem encodable_flatMap {f : CodePoint → Text}
    (h : ∀ c, (f c).Encodable ↔ c.isSurrogate = false) : Encodable (t.flatMap f) ↔ t.Encodable := by
  simp only [Encodable, List.forall_mem_flatMap] at h ⊢
  exact forall₂_congr fun c _ => h c

theorem encodable_marked {f : CodePoint → Text} {mark : CodePoint}
    (h : ∀ c, (f c).Encodable ↔ c.isSurrogate = false) (hm : mark.isSurrogate = false) :
    Encodable (mark :: t.flatMap f ++ [mark]) ↔ t.Encodable := by
  simp [encodable_flatMap h, hm]

end Text

open Text (encodable_lit)

@[simp]
theorem Decimal.encodable_ofNat (n : Nat) : (ofNat n).Encodable := Text.encodable_map_ofChar _

@[simp]
theorem Decimal.encodable_ofInt (i : Int) : (ofInt i).Encodable := by
  cases i <;> simp [ofInt]

theorem Utf8.exists_encode?_iff {t : Text} :
    (∃ bytes, encode? t = some bytes) ↔ t.Encodable := by
  have hpoint (c : CodePoint) : (encodePoint c).isSome = true ↔ c.isSurrogate = false := by
    simp only [encodePoint]
    repeat' split
    all_goals simp_all
  simp only [← Option.isSome_iff_exists]
  induction t with
  | nil => simp [encode?]
  | cons c t ih =>
    refine Iff.trans ?_ ((and_congr (hpoint c) ih).trans Text.encodable_cons.symm)
    rw [encode?]
    cases encodePoint c <;> cases encode? t <;> simp

/-! ## Control sequences -/

namespace Text

theorem encodable_dropWhile {p : CodePoint → Bool} {t : Text}
    (hp : ∀ c, p c = true → c.isSurrogate = false) :
    Text.Encodable (t.dropWhile p) ↔ t.Encodable := by
  have ht : Text.Encodable (t.takeWhile p) := fun c hc => hp c (List.mem_takeWhile_imp hc)
  have h : Text.Encodable (t.takeWhile p ++ t.dropWhile p) ↔ _ := encodable_append
  rw [List.takeWhile_append_dropWhile] at h
  rw [h, and_iff_right ht]

theorem encodable_afterControl? {s r : Text} (h : afterControl? s = some r) :
    r.Encodable ↔ s.Encodable := by
  have hparameter (c : CodePoint) (hc : c.isParameter = true) : c.isSurrogate = false :=
    CodePoint.isSurrogate_of_lt (by grind [CodePoint.isParameter])
  have hintermediate (c : CodePoint) (hc : c.isIntermediate = true) : c.isSurrogate = false :=
    CodePoint.isSurrogate_of_lt (by grind [CodePoint.isIntermediate])
  have hfinal {c : CodePoint} (hc : c.isFinal = true) : c.isSurrogate = false :=
    CodePoint.isSurrogate_of_lt (by grind [CodePoint.isFinal])
  unfold afterControl? at h
  split at h
  · cases h
  · next b s =>
    split at h
    · next hb =>
      split at h
      · next c q hq =>
        split at h
        · next hc =>
          cases h
          have hb' : b.isSurrogate = false := by
            rw [CodePoint.is_iff.1 hb]
            decide
          have hs := (encodable_dropWhile hintermediate).trans (encodable_dropWhile (t := s) hparameter)
          rw [hq, encodable_cons, and_iff_right (hfinal hc)] at hs
          rw [hs, encodable_cons, and_iff_right hb']
        · cases h
      · cases h
    · cases h

theorem encodable_withoutControls (t : Text) : t.withoutControls.Encodable ↔ t.Encodable := by
  have he : CodePoint.escape.isSurrogate = false := by decide
  fun_induction withoutControls t with
  | case1 => rfl
  | case2 s r h _ ih =>
    refine ih.trans ((encodable_afterControl? h).trans ?_)
    rw [encodable_cons, and_iff_right he]
  | case3 s h ih => exact encodable_cons.trans ((and_congr_right' ih).trans encodable_cons.symm)
  | case4 c s h ih => exact encodable_cons.trans ((and_congr_right' ih).trans encodable_cons.symm)

end Text

/-! ## What is written for terms -/

theorem Atom.encodable_text (name : Text) : (Atom.text name).Encodable ↔ name.Encodable := by
  have hpoint (c : CodePoint) : (quotePoint c).Encodable ↔ c.isSurrogate = false := by
    have hb : CodePoint.backslash.isSurrogate = false := by decide
    unfold quotePoint
    split <;> simp [hb]
  unfold text
  split
  · rfl
  · exact Text.encodable_marked hpoint (by decide)

theorem encodable_stringPoint (c : CodePoint) :
    (stringPoint c).Encodable ↔ c.isSurrogate = false := by
  have hb : CodePoint.backslash.isSurrogate = false := by decide
  unfold stringPoint
  split
  · simp [hb]
  · split
    all_goals first
      | next h =>
        exact iff_of_true (encodable_lit _) (CodePoint.isSurrogate_of_lt (h.trans_lt (by decide)))
      | skip
    split
    · next hn =>
      refine iff_of_true ?_ (CodePoint.isSurrogate_of_lt (by omega))
      simp [Text.encodable_upperHex]
    · simp

theorem encodable_stringText (s : Text) : (stringText s).Encodable ↔ s.Encodable :=
  Text.encodable_marked encodable_stringPoint (by decide)

namespace Binary64

theorem encodable_zeros (n : Nat) : (zeros n).Encodable := Text.encodable_replicate n (by decide)

theorem encodable_significant (n : Nat) : (significant n).Encodable := by
  refine (Decimal.encodable_ofNat n).mono fun c hc => ?_
  rw [significant, List.mem_reverse] at hc
  exact List.mem_reverse.1 ((List.dropWhile_sublist _).subset hc)

variable {ds : Text}

theorem encodable_positional (h : ds.Encodable) (point : Int) : (positional ds point).Encodable := by
  have ht (n : Nat) : Text.Encodable (ds.take n) := h.mono (List.take_subset n ds)
  have hd (n : Nat) : Text.Encodable (ds.drop n) := h.mono (List.drop_subset n ds)
  unfold positional
  repeat' split
  all_goals simp [h, ht, hd, encodable_zeros]

theorem encodable_withPower (h : ds.Encodable) (power : Int) : (withPower ds power).Encodable := by
  have hp : Text.Encodable (ds.take 1 ++ lit "." ++ ds.drop 1) := by
    have ht : Text.Encodable (ds.take 1) := h.mono (List.take_subset 1 ds)
    have hd : Text.Encodable (ds.drop 1) := h.mono (List.drop_subset 1 ds)
    exact Text.encodable_append.2 ⟨Text.encodable_append.2 ⟨ht, encodable_lit _⟩, hd⟩
  simp only [withPower, Text.encodable_append, encodable_zeros, Decimal.encodable_ofNat, and_true]
  constructor
  · split
    · exact h
    · exact hp
  · split <;> exact encodable_lit _

theorem encodable_text (x : Binary64) : x.text.Encodable := by
  cases x with
  | nan i => exact encodable_lit _
  | infinite negative => cases negative <;> exact encodable_lit _
  | finite negative m e =>
    rw [text_finite, Text.encodable_append, Decimal.sign]
    constructor
    · split
      · exact encodable_lit _
      · exact Text.encodable_nil
    · simp only
      split
      · exact encodable_lit _
      · split
        · exact encodable_positional (encodable_significant _) _
        · exact encodable_withPower (encodable_significant _) _

theorem encodable_floatText (x : Binary64) : (floatText x).Encodable := by
  have hm := (encodable_text x).mono (List.takeWhile_subset fun c => !c.is 'e')
  have hp := (encodable_text x).mono (List.dropWhile_subset fun c => !c.is 'e')
  rw [floatText, Text.encodable_append]
  refine ⟨?_, hp⟩
  split <;> simp [hm]

end Binary64

namespace Term

/-- The term is written in a file: it has no surrogate and no integer with too many digits. -/
inductive Showable : Term → Prop where
  | atom {name : Text} : name.Encodable → Showable (.atom name)
  | int {i : Int} : Decimal.isOverlong i = false → Showable (.int i)
  | float (x : Binary64) : Showable (.float x)
  | str {s : Text} : s.Encodable → Showable (.str s)
  | tuple {ts : List Term} : (∀ t ∈ ts, Showable t) → Showable (.tuple ts)
  | list {ts : List Term} : (∀ t ∈ ts, Showable t) → Showable (.list ts)
  | bool (b : Bool) : Showable (.bool b)

mutual

theorem showable_iff (t : Term) : t.Showable ↔ t.isWritable = true ∧ t.text.Encodable := by
  cases t with
  | atom name =>
    rw [text, Atom.encodable_text]
    exact ⟨fun h => by cases h; exact ⟨rfl, ‹_›⟩, fun h => .atom h.2⟩
  | int i =>
    rw [text, isWritable_iff, hasOverlong]
    exact ⟨fun h => by cases h; exact ⟨⟨‹_›, rfl⟩, Decimal.encodable_ofInt i⟩, fun h => .int h.1.1⟩
  | float x => exact iff_of_true (.float x) ⟨rfl, Binary64.encodable_floatText x⟩
  | str s =>
    rw [text, encodable_stringText]
    exact ⟨fun h => by cases h; exact ⟨rfl, ‹_›⟩, fun h => .str h.2⟩
  | tuple ts =>
    have hts : (tuple ts).Showable ↔ ∀ t ∈ ts, t.Showable :=
      ⟨fun h => by cases h; assumption, .tuple⟩
    rw [hts, forall_showable_iff ts, text, isWritable_tuple_iff]
    simp [Text.encodable_join]
  | list ts =>
    have hts : (list ts).Showable ↔ ∀ t ∈ ts, t.Showable :=
      ⟨fun h => by cases h; assumption, .list⟩
    rw [hts, forall_showable_iff ts, text, isWritable_list_iff]
    simp [Text.encodable_join]
  | bool b => exact iff_of_true (.bool b) ⟨rfl, by cases b <;> exact encodable_lit _⟩
  | nothing => exact iff_of_false (fun h => by cases h) fun h => Bool.false_ne_true h.1

theorem forall_showable_iff (ts : List Term) : (∀ t ∈ ts, t.Showable) ↔
    (∀ t ∈ ts, t.isWritable = true) ∧ ∀ u ∈ texts ts, u.Encodable := by
  cases ts with
  | nil => simp [texts]
  | cons t ts =>
    rw [List.forall_mem_cons, showable_iff t, forall_showable_iff ts, List.forall_mem_cons, texts,
      List.forall_mem_cons, and_and_and_comm]

end

end Term

theorem Form.exists_text?_iff {fs : List Form} :
    (∃ s, text? fs = some s ∧ s.Encodable) ↔ ∀ f ∈ fs, f.toTerm.Showable := by
  have htext : Text.Encodable (fs.flatMap fun f => f.toTerm.text ++ lit ".\n") ↔
      ∀ f ∈ fs, f.toTerm.text.Encodable := by
    simp only [Text.Encodable, List.forall_mem_flatMap]
    refine forall₂_congr fun f _ => ?_
    exact Text.encodable_append.trans (and_iff_left (encodable_lit _))
  simp only [Term.showable_iff, forall_and, text?, List.all_eq_true]
  split
  · next h =>
    rw [and_iff_right h, ← htext]
    simp
  · next h => simp [h]

end EnumForms
