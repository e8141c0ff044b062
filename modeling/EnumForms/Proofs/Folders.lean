import EnumForms.Attempt
import EnumForms.Folder
import Mathlib.Data.List.Basic

/-!
Reading from a folder what was written to it. The file just written is no folder, so it stands in
the way of no path and the path leads to it as before.
-/
namespace EnumForms.Folder

def content? (f : Folder) (p : Steps) : Option (List UInt8) :=
  match f.locate p with
  | .ok q => f.files.lookup q
  | .error _ => none

def withFile (f : Folder) (q : Steps) (bytes : List UInt8) : Folder :=
  { f with files := put q bytes f.files }

variable {f f' : Folder} {p q r : Steps} {bytes : List UInt8}

theorem lookup_put_self (q : Steps) (bytes : List UInt8) (files : List (Steps × List UInt8)) :
    (put q bytes files).lookup q = some bytes := by
  induction files with
  | nil => simp [put]
  | cons e files ih =>
    obtain ⟨k, b⟩ := e
    by_cases h : k = q
    · simp [put, h]
    · rw [put, if_neg h, List.lookup_cons, beq_false_of_ne (Ne.symm h)]
      exact ih

theorem mem_keys_put (q : Steps) (bytes : List UInt8) {files : List (Steps × List UInt8)}
    (h : p ∈ (put q bytes files).map (·.1)) : p = q ∨ p ∈ files.map (·.1) := by
  induction files with
  | nil => exact .inl (by simpa [put] using h)
  | cons e files ih =>
    obtain ⟨k, b⟩ := e
    by_cases hk : k = q
    · rw [put, if_pos hk] at h
      exact .inr h
    · rw [put, if_neg hk, List.map_cons, List.mem_cons] at h
      rw [List.map_cons, List.mem_cons, or_left_comm]
      exact h.imp id ih

theorem hasFile_withFile (hp : p ≠ q) (hf : ¬ f.hasFile p = true) :
    ¬ (f.withFile q bytes).hasFile p = true := by
  have mem {files : List (Steps × List UInt8)} :
      files.any (·.1 = p) = true ↔ p ∈ files.map (·.1) := by
    simp [List.any_eq_true]
  rw [hasFile, mem] at hf ⊢
  exact fun h => (mem_keys_put q bytes h).elim hp hf

theorem walk_withFile (hq : f.hasFolder q = false) {steps : Steps} (h : f.walk p steps = .ok r) :
    (f.withFile q bytes).walk p steps = .ok r := by
  induction steps generalizing p with
  | nil => exact h
  | cons step steps ih =>
    have hsame (p : Steps) : (f.withFile q bytes).hasFolder p = f.hasFolder p := rfl
    rw [walk] at h ⊢
    split at h
    · cases h
    · next hf =>
      split at h
      · next hd =>
        have hne : next p step ≠ q := by
          rintro rfl
          rw [hq] at hd
          cases hd
        rw [if_neg (hasFile_withFile hne hf), hsame, if_pos hd]
        exact ih h
      · cases h

theorem locate_withFile (hq : f.hasFolder q = false) (h : f.locate p = .ok r) :
    (f.withFile q bytes).locate p = .ok r := by
  unfold locate at h ⊢
  split at h
  · exact h
  · obtain ⟨way, hw, hr⟩ := Attempt.map_eq_ok.1 h
    exact Attempt.map_eq_ok.2 ⟨way, walk_withFile hq hw, hr⟩

/-- What is written to a path is what is read from it. -/
theorem content?_of_write (h : f.write p bytes = .ok f') : f'.content? p = some bytes := by
  obtain ⟨q, hl, h⟩ := Attempt.bind_eq_ok.1 h
  split at h
  · cases h
  · next hd =>
    obtain rfl : f.withFile q bytes = f' := Except.ok.inj h
    rw [content?, locate_withFile (by simpa using hd) hl]
    exact lookup_put_self q bytes f.files

end EnumForms.Folder
