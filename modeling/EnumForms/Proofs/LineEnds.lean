import EnumForms.Proofs.Readable
import EnumForms.Text.Lines

/-!
Line ends in written terms. Strings and numbers are written without carriage returns, so a file keeps
them; the name of an atom is written as it is, and with the line ends of the file its own are made
line feeds.
-/
namespace EnumForms

open CodePoint (carriageReturn newline)

namespace Text

/-- Whatever comes after the text, its line ends are made line feeds by themselves. -/
def Unifies (s s' : Text) : Prop := ∀ rest, unifyNewlines (s ++ rest) = s' ++ unifyNewlines rest

theorem unifyNewlines_cons {c : CodePoint} (hc : c ≠ carriageReturn) (s : Text) :
    unifyNewlines (c :: s) = c :: unifyNewlines s := by
  rw [unifyNewlines.eq_def]
  simp [hc]

theorem unifyNewlines_return_newline (s : Text) :
    unifyNewlines (carriageReturn :: newline :: s) = newline :: unifyNewlines s := by
  simp [unifyNewlines]

theorem unifyNewlines_return {s : Text} (h : ∀ d ∈ s.head?, d ≠ newline) :
    unifyNewlines (carriageReturn :: s) = newline :: unifyNewlines s := by
  cases s with
  | nil => simp [unifyNewlines]
  | cons d s => rw [unifyNewlines.eq_def]; simp [h d rfl]

namespace Unifies

variable {s s' t t' : Text}

theorem append (hs : Unifies s s') (ht : Unifies t t') : Unifies (s ++ t) (s' ++ t') := by
  intro rest
  rw [List.append_assoc, hs, ht, List.append_assoc]

theorem of_notMem (h : carriageReturn ∉ s) : Unifies s s := by
  intro rest
  induction s with
  | nil => rfl
  | cons c s ih =>
    rw [List.mem_cons, not_or] at h
    rw [List.cons_append, unifyNewlines_cons (Ne.symm h.1), ih h.2, List.cons_append]

theorem eq (h : Unifies s s') : unifyNewlines s = s' := by
  have hs := h []
  simpa [unifyNewlines] using hs

end Unifies

theorem notMem_unifyNewlines (s : Text) : carriageReturn ∉ unifyNewlines s := by
  have hn : carriageReturn ≠ newline := by decide
  fun_induction unifyNewlines s with
  | case1 => simp
  | case2 => simp [hn]
  | case3 _ ih => simp [hn, ih]
  | case4 _ _ _ ih => simp [hn, ih]
  | case5 c s hc ih => simp [Ne.symm hc, ih]

theorem newline_mem_unifyNewlines {s : Text} (h : carriageReturn ∈ s) :
    newline ∈ unifyNewlines s := by
  fun_induction unifyNewlines s with
  | case1 => cases h
  | case2 => simp
  | case3 => simp
  | case4 => simp
  | case5 c s hc ih => exact List.mem_cons_of_mem c (ih ((List.mem_cons.1 h).resolve_left (Ne.symm hc)))

theorem unifyNewlines_eq_self_iff {s : Text} : unifyNewlines s = s ↔ carriageReturn ∉ s := by
  constructor
  · intro h
    rw [← h]
    exact notMem_unifyNewlines s
  · exact fun h => (Unifies.of_notMem h).eq

end Text

open Text (unifyNewlines Unifies)

/-! ## What is written for atoms, strings and numbers -/

namespace Atom

theorem notMem_quotePoint {c : CodePoint} (hc : c ≠ carriageReturn) :
    carriageReturn ∉ quotePoint c := by
  have hb : CodePoint.backslash ≠ carriageReturn := by decide
  unfold quotePoint
  split <;> simp [Ne.symm hc, Ne.symm hb]

theorem head?_quotePoint {c : CodePoint} (hc : c ≠ newline) (s : Text) :
    ∀ d ∈ (quotePoint c ++ s).head?, d ≠ newline := by
  have hb : CodePoint.backslash ≠ newline := by decide
  unfold quotePoint
  split <;> simp [hc, hb]

theorem unifies_quoted (name : Text) :
    Unifies (name.flatMap quotePoint ++ [.apostrophe])
      ((unifyNewlines name).flatMap quotePoint ++ [.apostrophe]) := by
  intro rest
  have hr : quotePoint carriageReturn = [carriageReturn] := rfl
  have hn : quotePoint newline = [newline] := rfl
  have ha : CodePoint.apostrophe ≠ newline := by decide
  have hp := Text.unifyNewlines_cons (c := .apostrophe) (by decide) rest
  have hl : unifyNewlines (carriageReturn :: .apostrophe :: rest) =
      newline :: .apostrophe :: unifyNewlines rest := by
    rw [Text.unifyNewlines_return (by simpa using ha), hp]
  fun_induction unifyNewlines name with
  | case1 => simp [hp]
  | case2 => simp [hr, hn, hl]
  | case3 s ih => simpa [hr, hn, Text.unifyNewlines_return_newline] using ih
  | case4 d s hd ih =>
    have hh := head?_quotePoint hd (s.flatMap quotePoint ++ [.apostrophe] ++ rest)
    rw [← List.append_assoc, ← List.append_assoc, ← List.flatMap_cons] at hh
    rw [List.flatMap_cons, hr, List.append_assoc, List.append_assoc, List.singleton_append,
      ← List.append_assoc, Text.unifyNewlines_return hh, ih]
    simp [hn]
  | case5 c s hc ih =>
    have hq := Unifies.of_notMem (notMem_quotePoint hc)
    rw [List.flatMap_cons, List.append_assoc, List.append_assoc, hq, ← List.append_assoc, ih]
    simp

theorem isBare_eq_false_of_mem {name : Text} {c : CodePoint} (hc : c ∈ name)
    (hp : isNamePart c = false) : isBare name = false := by
  have hl : c.isLowerLetter = false := by
    simp only [isNamePart, CodePoint.isAlphanumeric, Bool.or_eq_false_iff] at hp
    exact hp.1.1.1.2
  cases name with
  | nil => rfl
  | cons d name =>
    obtain rfl | hc := List.mem_cons.1 hc
    · simp [isBare, isName, hl]
    · have ha : name.all isNamePart = false := List.all_eq_false.2 ⟨c, hc, by simp [hp]⟩
      simp [isBare, isName, ha]

theorem text_of_isBare_eq_false {name : Text} (h : isBare name = false) :
    text name = .apostrophe :: (name.flatMap quotePoint ++ [.apostrophe]) := by
  rw [text, if_neg (by simp [h]), List.cons_append]

/-- A line end makes an atom a quoted one, so it is quoted in both texts. -/
theorem unifies_text (name : Text) : Unifies (text name) (text (unifyNewlines name)) := by
  have ha : carriageReturn ≠ CodePoint.apostrophe := by decide
  by_cases h : carriageReturn ∈ name
  · have hn := isBare_eq_false_of_mem h (by decide)
    have hn' := isBare_eq_false_of_mem (Text.newline_mem_unifyNewlines h) (by decide)
    rw [text_of_isBare_eq_false hn, text_of_isBare_eq_false hn']
    exact (Unifies.of_notMem (s := [.apostrophe]) (by simpa using ha)).append (unifies_quoted name)
  · rw [Text.unifyNewlines_eq_self_iff.2 h]
    refine .of_notMem fun hm => ?_
    cases hb : isBare name with
    | true =>
      rw [text, if_pos hb] at hm
      exact h hm
    | false =>
      rw [text_of_isBare_eq_false hb] at hm
      obtain ⟨c, hc, hm⟩ : ∃ c ∈ name, carriageReturn ∈ quotePoint c := by simpa [ha] using hm
      exact notMem_quotePoint (fun he => h (he ▸ hc)) hm

end Atom

theorem notMem_stringPoint (c : CodePoint) : carriageReturn ∉ stringPoint c := by
  unfold stringPoint
  split
  · next h => rcases h with rfl | rfl <;> decide
  · split <;> try decide
    split
    · next hn =>
      obtain ⟨-, -, hd⟩ := upperHex_control _ hn
      have hx : carriageReturn ∉ lit "\\x\x7b" := by decide
      have hc : carriageReturn ∉ lit "\x7d" := by decide
      have hu : carriageReturn ∉ Text.upperHex c.val := fun hm => by cases (hd _ hm).1
      simp [hx, hu, hc]
    · next hr _ _ _ =>
      rw [List.mem_singleton]
      rintro rfl
      exact hr rfl

theorem notMem_stringText (s : Text) : carriageReturn ∉ stringText s := by
  have hq : carriageReturn ≠ CodePoint.quotation := by decide
  have hs : carriageReturn ∉ s.flatMap stringPoint := by
    rw [List.mem_flatMap]
    rintro ⟨c, -, hm⟩
    exact notMem_stringPoint c hm
  simp [stringText, hq, hs]

theorem Decimal.Digits.notMem {ds : Text} (h : Digits ds) : carriageReturn ∉ ds := by
  intro hm
  cases h.isDigit _ hm

theorem Decimal.notMem_sign (negative : Bool) : carriageReturn ∉ sign negative := by
  cases negative <;> decide

theorem FloatNumeral.notMem_text (n : FloatNumeral) : carriageReturn ∉ n.text := by
  have hp : carriageReturn ∉ powerText n.power := by
    cases h : n.power with
    | none => simp [powerText]
    | some p =>
      have hs : carriageReturn ∉ if p.1 = true then lit "e-" else lit "e+" := by
        split <;> decide
      exact fun hm => (List.mem_append.1 hm).elim hs (n.digits_power p h).notMem
  have hdot : carriageReturn ∉ lit "." := by decide
  simp [text, mantissa, Decimal.notMem_sign, n.digits_whole.notMem, hdot, n.digits_fraction.notMem, hp]

theorem Binary64.notMem_floatText {x : Binary64} (h : x.Canonical) :
    carriageReturn ∉ floatText x := by
  cases x with
  | nan tag => exact h.elim
  | infinite negative => cases negative <;> decide
  | finite s m e =>
    obtain ⟨n, ht, -⟩ := exists_floatNumeral h
    rw [ht]
    exact n.notMem_text

/-! ## Terms -/

namespace Term

mutual

/-- The term with the line ends in the names of its atoms made line feeds. -/
def unifyNames : Term → Term
  | .atom name => .atom (unifyNewlines name)
  | .tuple items => .tuple (unifyAllNames items)
  | .list items => .list (unifyAllNames items)
  | t => t

def unifyAllNames : List Term → List Term
  | [] => []
  | t :: ts => t.unifyNames :: unifyAllNames ts

end

mutual

/-- Does the name of an atom in the term hold a carriage return? -/
def hasReturn : Term → Bool
  | .atom name => name.contains carriageReturn
  | .tuple items => anyReturn items
  | .list items => anyReturn items
  | _ => false

def anyReturn : List Term → Bool
  | [] => false
  | t :: ts => t.hasReturn || anyReturn ts

end

variable {t : Term} {ts : List Term}

@[simp]
theorem unifyAllNames_eq_map (ts : List Term) : unifyAllNames ts = ts.map unifyNames := by
  induction ts with
  | nil => rfl
  | cons t ts ih => rw [unifyAllNames, ih, List.map_cons]

theorem anyReturn_eq_false_iff : anyReturn ts = false ↔ ∀ t ∈ ts, t.hasReturn = false := by
  induction ts with
  | nil => simp [anyReturn]
  | cons t ts ih => simp [anyReturn, ih]

theorem unifies_join (h : ∀ t ∈ ts, Unifies t.text t.unifyNames.text) :
    Unifies (Text.join (lit ",") (texts ts)) (Text.join (lit ",") (texts (ts.map unifyNames))) := by
  induction ts with
  | nil => exact fun _ => rfl
  | cons t ts ih =>
    rw [List.forall_mem_cons] at h
    cases ts with
    | nil => simpa [texts, Text.join] using h.1
    | cons t' ts =>
      have hc : Unifies (lit ",") (lit ",") := .of_notMem (by decide)
      rw [List.map_cons, List.map_cons, texts, texts, texts, texts, Text.join_cons_cons,
        Text.join_cons_cons]
      exact h.1.append (hc.append (ih h.2))

theorem Readable.unifies (h : t.Readable) : Unifies t.text t.unifyNames.text := by
  induction h with
  | atom name => exact Atom.unifies_text name
  | int i =>
    refine .of_notMem ?_
    rw [text, Decimal.ofInt_eq]
    simp [Decimal.notMem_sign, (Decimal.digits_ofNat _).notMem]
  | float hc => exact .of_notMem (Binary64.notMem_floatText hc)
  | str s => exact .of_notMem (notMem_stringText s)
  | tuple _ ih =>
    have ho : Unifies (lit "\x7b") (lit "\x7b") := .of_notMem (by decide)
    have hc : Unifies (lit "\x7d") (lit "\x7d") := .of_notMem (by decide)
    rw [unifyNames, unifyAllNames_eq_map, text, text]
    exact (ho.append (unifies_join ih)).append hc
  | list _ ih =>
    have ho : Unifies (lit "[") (lit "[") := .of_notMem (by decide)
    have hc : Unifies (lit "]") (lit "]") := .of_notMem (by decide)
    rw [unifyNames, unifyAllNames_eq_map, text, text]
    exact (ho.append (unifies_join ih)).append hc

theorem unifyNewlines_lines (h : ∀ t ∈ ts, t.Readable) :
    unifyNewlines (lines ts) = lines (ts.map unifyNames) := by
  refine Unifies.eq ?_
  induction ts with
  | nil => exact fun _ => rfl
  | cons t ts ih =>
    rw [List.forall_mem_cons] at h
    have hd : Unifies (lit ".\n") (lit ".\n") := .of_notMem (by decide)
    exact (h.1.unifies.append hd).append (ih h.2)

/-! ## What unifying names leaves as it is -/

theorem Readable.unifyNames (h : t.Readable) : t.unifyNames.Readable := by
  induction h with
  | atom name => exact .atom _
  | int i => exact .int i
  | float hc => exact .float hc
  | str s => exact .str s
  | tuple _ ih =>
    rw [Term.unifyNames, unifyAllNames_eq_map]
    exact .tuple (List.forall_mem_map.2 ih)
  | list _ ih =>
    rw [Term.unifyNames, unifyAllNames_eq_map]
    exact .list (List.forall_mem_map.2 ih)

mutual

theorem hasOverlong_unifyNames (t : Term) : t.unifyNames.hasOverlong = t.hasOverlong := by
  cases t with
  | tuple items => exact anyOverlong_unifyAllNames items
  | list items => exact anyOverlong_unifyAllNames items
  | _ => rfl

theorem anyOverlong_unifyAllNames (ts : List Term) :
    anyOverlong (unifyAllNames ts) = anyOverlong ts := by
  cases ts with
  | nil => rfl
  | cons t ts =>
    rw [unifyAllNames, anyOverlong, anyOverlong, hasOverlong_unifyNames t,
      anyOverlong_unifyAllNames ts]

end

mutual

theorem hasInfinite_unifyNames (t : Term) : t.unifyNames.hasInfinite = t.hasInfinite := by
  cases t with
  | tuple items => exact anyInfinite_unifyAllNames items
  | list items => exact anyInfinite_unifyAllNames items
  | _ => rfl

theorem anyInfinite_unifyAllNames (ts : List Term) :
    anyInfinite (unifyAllNames ts) = anyInfinite ts := by
  cases ts with
  | nil => rfl
  | cons t ts =>
    rw [unifyAllNames, anyInfinite, anyInfinite, hasInfinite_unifyNames t,
      anyInfinite_unifyAllNames ts]

end

mutual

theorem unifyNames_of_hasReturn_eq_false {t : Term} (h : t.hasReturn = false) :
    t.unifyNames = t := by
  cases t with
  | atom name =>
    rw [hasReturn] at h
    rw [unifyNames, Text.unifyNewlines_eq_self_iff.2 (by simpa using h)]
  | tuple items => rw [unifyNames, unifyAllNames_of_anyReturn_eq_false h]
  | list items => rw [unifyNames, unifyAllNames_of_anyReturn_eq_false h]
  | _ => rfl

theorem unifyAllNames_of_anyReturn_eq_false {ts : List Term} (h : anyReturn ts = false) :
    unifyAllNames ts = ts := by
  cases ts with
  | nil => rfl
  | cons t ts =>
    rw [anyReturn, Bool.or_eq_false_iff] at h
    rw [unifyAllNames, unifyNames_of_hasReturn_eq_false h.1,
      unifyAllNames_of_anyReturn_eq_false h.2]

end

mutual

theorem hasReturn_unifyNames (t : Term) : t.unifyNames.hasReturn = false := by
  cases t with
  | atom name => simpa [unifyNames, hasReturn] using Text.notMem_unifyNewlines name
  | tuple items => exact anyReturn_unifyAllNames items
  | list items => exact anyReturn_unifyAllNames items
  | _ => rfl

theorem anyReturn_unifyAllNames (ts : List Term) : anyReturn (unifyAllNames ts) = false := by
  cases ts with
  | nil => rfl
  | cons t ts =>
    rw [unifyAllNames, anyReturn, hasReturn_unifyNames t, anyReturn_unifyAllNames ts, Bool.or_false]

end

mutual

/-- A term whose names change is not equal to the one with them unified. -/
theorem hasReturn_of_equal {t : Term} (h : t.unifyNames.equal t = true) : t.hasReturn = false := by
  cases t with
  | atom name =>
    have hn : unifyNewlines name = name := by simpa [unifyNames, equal] using h
    simpa [hasReturn] using Text.unifyNewlines_eq_self_iff.1 hn
  | tuple items => exact anyReturn_of_equalAll (by simpa [unifyNames, equal] using h)
  | list items => exact anyReturn_of_equalAll (by simpa [unifyNames, equal] using h)
  | _ => rfl

theorem anyReturn_of_equalAll {ts : List Term} (h : equalAll (unifyAllNames ts) ts = true) :
    anyReturn ts = false := by
  cases ts with
  | nil => rfl
  | cons t ts =>
    rw [unifyAllNames, equalAll, Bool.and_eq_true, Bool.or_eq_true] at h
    rw [anyReturn, anyReturn_of_equalAll h.2, Bool.or_false]
    obtain hn | he := h.1
    · -- only values that are no numbers are the same in this way, and they have no names
      cases t with
      | float x => rfl
      | _ => cases hn
    · exact hasReturn_of_equal he

end

end Term

end EnumForms
