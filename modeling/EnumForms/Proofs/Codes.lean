import EnumForms.Proofs.Registry

/-!
Which code each entry of an enum gets. What is written of an entry is an enumerator: a name, with a
code or without. The code due at a place counts on from the last code written before it, and the
entries are taken exactly if no written code is below the one due at its place.
-/
namespace EnumForms

/-- An entry as it is written. -/
structure Enumerator where
  name : Text
  code? : Option Int
  deriving DecidableEq

namespace Enumerator

def toTerm : Enumerator → Term
  | ⟨name, none⟩ => .atom name
  | ⟨name, some code⟩ => .tuple [.atom name, .int code]

def Lists (t : Term) (xs : List Enumerator) : Prop :=
  t = .list (xs.map toTerm) ∨ t = .str [] ∧ xs = []

def codeAt (xs : List Enumerator) (i : Nat) : Option Int := xs[i]?.bind (·.code?)

/-- The code due at a place, with codes from `next` on: as far past the last code written before it
as the two places are apart, or as far past `next` as the place is from the start. -/
def due (next : Int) (xs : List Enumerator) (i : Nat) : Int :=
  let counted := fun j : Nat => (codeAt xs j).map fun k => k + ((i : Int) - j)
  ((List.range i).reverse.findSome? counted).getD (next + i)

/-- No written code is below the one due at its place. -/
def Fits (next : Int) (xs : List Enumerator) : Prop :=
  ∀ i k, codeAt xs i = some k → due next xs i ≤ k

/-- The entries that are written: each has the code written at its place, or the one due there. -/
def entries (next : Int) (xs : List Enumerator) : List Entry :=
  xs.mapIdx fun i x => ⟨x.name, x.code?.getD (due next xs i)⟩

variable {next : Int} {x : Enumerator} {xs : List Enumerator}

def code (next : Int) (x : Enumerator) : Int := x.code?.getD next

theorem due_zero (next : Int) (xs : List Enumerator) : due next xs 0 = next := by
  simp [due]

theorem due_succ (next : Int) (x : Enumerator) (xs : List Enumerator) (i : Nat) :
    due next (x :: xs) (i + 1) = due (x.code next + 1) xs i := by
  have hplaces : (List.range (i + 1)).reverse = (List.range i).reverse.map (· + 1) ++ [0] := by
    rw [List.range_succ_eq_map, List.reverse_cons, List.map_reverse]
  have hcounted (j : Nat) :
      (codeAt (x :: xs) (j + 1)).map (fun k => k + (((i + 1 : Nat) : Int) - (j + 1 : Nat))) =
        (codeAt xs j).map fun k => k + ((i : Int) - j) := by
    have hk (k : Int) : k + (((i + 1 : Nat) : Int) - (j + 1 : Nat)) = k + ((i : Int) - j) := by
      omega
    simp only [codeAt, List.getElem?_cons_succ, hk]
  simp only [due, hplaces, List.findSome?_append, List.findSome?_map, Function.comp_def, hcounted]
  cases (List.range i).reverse.findSome? fun j => (codeAt xs j).map fun k => k + ((i : Int) - j) with
  | some c => rfl
  | none =>
    -- no code is written after the first place, so the first entry's counts
    cases hx : x.code? with
    | none =>
      simp [codeAt, code, hx]
      omega
    | some k =>
      simp [codeAt, code, hx]
      omega

theorem fits_nil (next : Int) : Fits next [] := by
  intro i k hk
  cases hk

theorem fits_cons : Fits next (x :: xs) ↔ next ≤ x.code next ∧ Fits (x.code next + 1) xs := by
  constructor
  · intro h
    refine ⟨?_, fun i k hk => ?_⟩
    · cases hx : x.code? with
      | none => simp [code, hx]
      | some k => simpa [due_zero, code, hx] using h 0 k hx
    · rw [← due_succ]
      exact h (i + 1) k hk
  · rintro ⟨hx, hxs⟩ i k hk
    cases i with
    | zero =>
      have hk' : x.code? = some k := hk
      rw [due_zero]
      simpa [code, hk'] using hx
    | succ i =>
      rw [due_succ]
      exact hxs i k hk

theorem entries_cons :
    entries next (x :: xs) = ⟨x.name, x.code next⟩ :: entries (x.code next + 1) xs := by
  simp only [entries, List.mapIdx_cons, due_zero, due_succ, code]

theorem ofTerm?_toTerm (next : Int) (x : Enumerator) :
    Entry.ofTerm? next x.toTerm =
      if next ≤ x.code next then some ⟨x.name, x.code next⟩ else none := by
  obtain ⟨name, _ | k⟩ := x
  · simp [toTerm, Entry.ofTerm?, code]
  · rfl

theorem exists_of_ofTerm? {t : Term} {e : Entry} (h : Entry.ofTerm? next t = some e) :
    ∃ x : Enumerator, t = x.toTerm := by
  unfold Entry.ofTerm? at h
  split at h
  · next name => exact ⟨⟨name, none⟩, rfl⟩
  · next name k => exact ⟨⟨name, some k⟩, rfl⟩
  · cases h

theorem exists_of_listFrom? {ts : List Term} {es : List Entry}
    (h : Entry.listFrom? next ts = some es) : ∃ xs : List Enumerator, ts = xs.map toTerm := by
  induction ts generalizing next es with
  | nil => exact ⟨[], rfl⟩
  | cons t ts ih =>
    obtain ⟨e, he, h⟩ := Option.bind_eq_some_iff.1 h
    obtain ⟨rest, hr, -⟩ := Option.bind_eq_some_iff.1 h
    obtain ⟨x, rfl⟩ := exists_of_ofTerm? he
    obtain ⟨xs, rfl⟩ := ih hr
    exact ⟨x :: xs, rfl⟩

/-- The running count over the terms gives what is due at each place, and stops where it does not
fit. -/
theorem listFrom?_map_toTerm {es : List Entry} :
    Entry.listFrom? next (xs.map toTerm) = some es ↔ Fits next xs ∧ es = entries next xs := by
  induction xs generalizing next es with
  | nil => simp [Entry.listFrom?, entries, fits_nil, eq_comm]
  | cons x xs ih =>
    rw [fits_cons, entries_cons, List.map_cons, Entry.listFrom?, ofTerm?_toTerm]
    by_cases hx : next ≤ x.code next
    · simp only [if_pos hx, Option.bind_eq_bind, Option.bind_some, Option.bind_eq_some_iff, ih,
        Option.some.injEq]
      grind
    · simp [hx]

theorem listOfTerm?_eq_some_iff {t : Term} {es : List Entry} :
    Entry.listOfTerm? t = some es ↔ ∃ xs, Lists t xs ∧ Fits 0 xs ∧ es = entries 0 xs := by
  constructor
  · intro h
    unfold Entry.listOfTerm? at h
    split at h
    · next ts =>
      obtain ⟨xs, rfl⟩ := exists_of_listFrom? h
      exact ⟨xs, .inl rfl, listFrom?_map_toTerm.1 h⟩
    · exact ⟨[], .inr ⟨rfl, rfl⟩, listFrom?_map_toTerm.1 h⟩
    · cases h
  · rintro ⟨xs, rfl | ⟨rfl, rfl⟩, h⟩
    · exact listFrom?_map_toTerm.2 h
    · exact listFrom?_map_toTerm.2 h

theorem keys_entries (next : Int) (xs : List Enumerator) :
    Table.keys (entries next xs) = xs.map (·.name) := by
  induction xs generalizing next with
  | nil => rfl
  | cons x xs ih =>
    rw [entries_cons, List.map_cons, ← ih (x.code next + 1)]
    rfl

theorem ascending_entries (h : Fits next xs) :
    (∀ e ∈ entries next xs, next ≤ e.code) ∧ Entry.Ascending (entries next xs) :=
  Entry.ascending_of_listFrom? (listFrom?_map_toTerm.2 ⟨h, rfl⟩)

end Enumerator

open Enumerator in
/-- The entries of an enum are taken exactly if they are listed as names and pairs of a name and a
code, and no code is below the one due at its place. Then there is one entry for each, in order,
with the code written or the one due, and the codes go up from zero. All other entries are invalid,
whichever of them is wrong. -/
theorem normalizeEntries_numbered (name : Text) (t : Term) (pos : Position) :
    (∀ es, normalizeEntries name t pos = .ok es ↔
      ∃ xs, Lists t xs ∧ Fits 0 xs ∧ es = entries 0 xs) ∧
    (normalizeEntries name t pos = .error (.invalid pos name) ↔
      ¬ ∃ xs, Lists t xs ∧ Fits 0 xs) ∧
    ∀ xs, Fits 0 xs →
      (entries 0 xs).length = xs.length ∧
      Table.keys (entries 0 xs) = xs.map (·.name) ∧
      (∀ e ∈ entries 0 xs, 0 ≤ e.code) ∧
      Entry.Ascending (entries 0 xs) := by
  have hok (es : List Entry) : normalizeEntries name t pos = .ok es ↔
      ∃ xs, Lists t xs ∧ Fits 0 xs ∧ es = entries 0 xs := by
    rw [← listOfTerm?_eq_some_iff]
    cases h : Entry.listOfTerm? t <;> simp [normalizeEntries, h]
  refine ⟨hok, ⟨?_, fun hn => ?_⟩, fun xs hx => ?_⟩
  · rintro h ⟨xs, hl, hx⟩
    have hxs := (hok (entries 0 xs)).2 ⟨xs, hl, hx, rfl⟩
    cases h.symm.trans hxs
  · cases h : Entry.listOfTerm? t with
    | none => simp [normalizeEntries, h]
    | some es =>
      obtain ⟨xs, hl, hx, -⟩ := listOfTerm?_eq_some_iff.1 h
      exact absurd ⟨xs, hl, hx⟩ hn
  · obtain ⟨hle, hasc⟩ := ascending_entries hx
    exact ⟨List.length_mapIdx, keys_entries 0 xs, hle, hasc⟩

open Enumerator in
theorem normalizeEntries_numbered_mixed :
    normalizeEntries (lit "e") (.list [.atom (lit "a"), .tuple [.atom (lit "b"), .int 5],
      .atom (lit "c")]) (.line 1) = .ok [⟨lit "a", 0⟩, ⟨lit "b", 5⟩, ⟨lit "c", 6⟩] ∧
    Entry.Ascending [⟨lit "a", 0⟩, ⟨lit "b", 5⟩, ⟨lit "c", 6⟩] := by
  have hfits : Fits 0 [⟨lit "a", none⟩, ⟨lit "b", some 5⟩, ⟨lit "c", none⟩] := by
    simp only [fits_cons, code, Option.getD_some, Option.getD_none]
    exact ⟨Int.le_refl 0, by decide, Int.le_refl 6, fits_nil 7⟩
  obtain ⟨hok, -, hentries⟩ := normalizeEntries_numbered (lit "e")
    (.list [.atom (lit "a"), .tuple [.atom (lit "b"), .int 5], .atom (lit "c")]) (.line 1)
  exact ⟨(hok _).2 ⟨_, .inl rfl, hfits, by decide⟩, (hentries _ hfits).2.2.2⟩

end EnumForms
