import EnumForms.Proofs.Assembly

/-!
The lines of the functions made for a table, counted from the first one. A dispatcher takes a line
for each enum and two more, the functions of the enums a line each and one more, and `keys/1` and
`values/1` one line each; the end mark of the new unit leaves one line out.
-/
namespace EnumForms

open Accessors Transformation

/-- The numbering of the lines. The functions for a table of `n` enums are, from a line on:
`to_int/2`, whose last clause leaves a line out after the clauses of the enums; a function of each
enum; `to_atom/2` and its functions in the same way; and `keys/1` and `values/1`. The `4 n + 6` lines
are followed by one that is left out and by the end mark of the new unit. -/
theorem synthesize_numbered :
    (∀ (s : PositionStyle) (t : Table) (line : Int), ∃ f ofInt g ofAtom k v,
      synthesize s t line = (f :: ofInt ++ g :: ofAtom ++ [k, v], line + 4 * t.size + 6) ∧
      f.Stands s toInt 2 line ((List.range t.size).map fun i : Nat => line + i)
        (line + t.size + 1) ∧
      StandEach ofInt s t toIntOf (line + t.size + 1) ∧
      g.Stands s toAtom 2 (line + 2 * t.size + 2)
        ((List.range t.size).map fun i : Nat => line + 2 * t.size + 2 + i)
        (line + 3 * t.size + 3) ∧
      StandEach ofAtom s t toAtomOf (line + 3 * t.size + 3) ∧
      k.Stands s keys 1 (line + 4 * t.size + 4) (List.replicate t.size (line + 4 * t.size + 4))
        (line + 4 * t.size + 4) ∧
      v.Stands s values 1 (line + 4 * t.size + 5) (List.replicate t.size (line + 4 * t.size + 5))
        (line + 4 * t.size + 5) ∧
      ∀ h ∈ (synthesize s t line).1, ∀ q ∈ h.positions, ∃ l, q = s.encode l) ∧
    (∀ fs tr, transform fs = .ok tr → tr.table.size ≠ 0 → ∃ pos name value endPos new,
      fs[1]? = some (.attribute pos name value) ∧
      fs.getLast? = some (.eof endPos) ∧
      tr.generated = (synthesize pos.style tr.table endPos.lineNumber).1 ∧
      tr.forms = some new ∧
      new.getLast? =
        some (.eof (pos.style.encode (endPos.lineNumber + 4 * tr.table.size + 7)))) := by
  refine ⟨fun s t line => ?_, fun fs tr h hs => ?_⟩
  · have hto : (dispatcher s t (line + 2 * t.size + 2) toAtom toAtomOf).1.Stands s toAtom 2
        (line + 2 * t.size + 2) ((List.range t.size).map fun i : Nat => line + 2 * t.size + 2 + i)
        (line + 2 * t.size + 2 + t.size + 1) := stands_dispatcher toAtom toAtomOf
    have hlast : line + 2 * t.size + 2 + t.size + 1 = line + 3 * t.size + 3 := by omega
    rw [hlast] at hto
    refine ⟨_, _, _, _, _, _, synthesize_eq s t line, stands_dispatcher toInt toIntOf,
      standEach_toIntOf s t _, hto, standEach_toAtomOf s t _, stands_listing keys ?_,
      stands_listing values ?_, fun f hf q hq => ?_⟩
    · simp [Expr.positions]
    · simp [Expr.positions]
    · obtain ⟨l, -, hl⟩ := exists_line_of_mem_synthesize hf hq
      exact ⟨l, hl⟩
  · obtain ⟨u, hu, rfl⟩ := Attempt.map_eq_ok.1 h
    obtain ⟨hforms, -, ⟨name, value, hmod⟩, hlast⟩ := UnitParts.splits_of_ofForms hu
    rw [table_ofUnit] at hs ⊢
    have hnext : u.made.2 + 1 = u.endPos.lineNumber + 4 * u.table.size + 7 := by
      rw [UnitParts.made, next_synthesize]
      omega
    refine ⟨u.modulePos, name, value, u.endPos, _, ?_, ?_, generated_ofUnit hs fs,
      forms_ofUnit hs fs, ?_⟩
    · rw [hforms, hmod]
      rfl
    · rw [hforms, List.getLast?_cons_cons, List.getLast?_cons, hlast]
      rfl
    · rw [assemble, hnext]
      exact List.getLast?_concat

theorem synthesize_numbered_marked : ∃ tr pos name value endPos new,
    transform marked = .ok tr ∧
    marked[1]? = some (.attribute pos name value) ∧
    marked.getLast? = some (.eof endPos) ∧
    tr.generated = (synthesize pos.style tr.table endPos.lineNumber).1 ∧
    tr.forms = some new ∧
    new.getLast? = some (.eof (.lineColumn 7 1)) ∧
    ∃ k ∈ tr.generated, k.Stands .lineColumn keys 1 4 [4, 4] 4 ∧
      ∀ q ∈ k.positions, ∃ l, q = .lineColumn l 1 := by
  obtain ⟨tr, hok, hs⟩ := exists_transform_marked
  obtain ⟨pos, name, value, endPos, new, hmod, hend, hgen, hforms, hlast⟩ :=
    synthesize_numbered.2 marked tr hok (by omega)
  refine ⟨tr, pos, name, value, endPos, new, hok, hmod, hend, hgen, hforms, ?_, ?_⟩
  · cases hmod
    cases hend
    rw [hlast, hs]
    rfl
  · cases hmod
    cases hend
    obtain ⟨f, ofInt, g, ofAtom, k, v, hmade, -, -, -, -, hk, -, hall⟩ :=
      synthesize_numbered.1 .lineColumn tr.table (-8)
    have hmem : k ∈ (synthesize .lineColumn tr.table (-8)).1 := by simp [hmade]
    rw [hs] at hk
    exact ⟨k, hgen ▸ hmem, hk, hall k hmem⟩

end EnumForms
