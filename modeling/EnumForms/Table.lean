import EnumForms.Text

/-!
The table of enums: under each name its entries, each a name and a code. The names keep the order
in which they were first inserted.
-/
namespace EnumForms

structure Entry where
  name : Text
  code : Int
  deriving DecidableEq

/-- No name stands twice. -/
structure Table where
  enums : List (Text × List Entry)
  nodup : (enums.map (·.1)).Nodup
  deriving DecidableEq

namespace Table

def empty : Table := ⟨[], List.nodup_nil⟩

def names (t : Table) : List Text := t.enums.map (·.1)

def size (t : Table) : Nat := t.enums.length

def entryCount (t : Table) : Nat := (t.enums.flatMap (·.2)).length

def get? (t : Table) (name : Text) : Option (List Entry) := t.enums.lookup name

def contains (t : Table) (name : Text) : Bool := (t.get? name).isSome

/-- Replaces the value of a key where it stands, or adds the key at the end. -/
def put (key : Text) (value : List Entry) : List (Text × List Entry) → List (Text × List Entry)
  | [] => [(key, value)]
  | (k, v) :: rest => if k = key then (k, value) :: rest else (k, v) :: put key value rest

theorem keys_put (key : Text) (value : List Entry) (es : List (Text × List Entry)) :
    (put key value es).map (·.1) =
      if key ∈ es.map (·.1) then es.map (·.1) else es.map (·.1) ++ [key] := by
  induction es with
  | nil => simp [put]
  | cons e es ih =>
    obtain ⟨k, v⟩ := e
    by_cases h : k = key
    · simp [put, h]
    · rw [put, if_neg h, List.map_cons, ih]
      by_cases hm : key ∈ es.map (·.1)
      · simp [hm]
      · simp [hm, Ne.symm h]

theorem nodup_put (key : Text) (value : List Entry) {es : List (Text × List Entry)}
    (h : (es.map (·.1)).Nodup) : ((put key value es).map (·.1)).Nodup := by
  rw [keys_put]
  split
  · exact h
  · next hk =>
    refine List.nodup_append.2 ⟨h, by simp, ?_⟩
    intro a ha b hb hab
    rw [List.mem_singleton.1 hb] at hab
    exact hk (hab ▸ ha)

def insert (t : Table) (name : Text) (entries : List Entry) : Table :=
  ⟨put name entries t.enums, nodup_put name entries t.nodup⟩

def keys (entries : List Entry) : List Text := entries.map (·.name)

def codes (entries : List Entry) : List Int := entries.map (·.code)

theorem lookup_put_self (key : Text) (value : List Entry) (es : List (Text × List Entry)) :
    (put key value es).lookup key = some value := by
  induction es with
  | nil => simp [put]
  | cons e es ih =>
    obtain ⟨k, v⟩ := e
    by_cases h : k = key
    · simp [put, h]
    · rw [put, if_neg h, List.lookup_cons, beq_false_of_ne (Ne.symm h)]
      exact ih

theorem lookup_put_of_ne {key other : Text} (h : other ≠ key) (value : List Entry)
    (es : List (Text × List Entry)) : (put key value es).lookup other = es.lookup other := by
  induction es with
  | nil => simp [put, List.lookup_cons, beq_false_of_ne h]
  | cons e es ih =>
    obtain ⟨k, v⟩ := e
    by_cases hk : k = key
    · subst hk
      simp [put, List.lookup_cons, beq_false_of_ne h]
    · rw [put, if_neg hk, List.lookup_cons, List.lookup_cons, ih]

theorem get?_insert (t : Table) (name other : Text) (es : List Entry) :
    (t.insert name es).get? other = if other = name then some es else t.get? other := by
  by_cases h : other = name
  · subst h
    rw [if_pos rfl]
    exact lookup_put_self other es t.enums
  · rw [if_neg h]
    exact lookup_put_of_ne h es t.enums

end Table

end EnumForms
