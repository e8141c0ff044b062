import EnumForms.Proofs.Positions
import EnumForms.Proofs.Units

/-!
How a transformed unit is put together: nothing of the old unit is lost or moved but its first end
mark, and everything new stands at positions of the style of the unit, before the new end mark.
-/
namespace EnumForms

structure Position.Within (s : PositionStyle) (last : Int) (p : Position) : Prop where
  style : p.style = s
  line : p.lineNumber ≤ last

theorem Position.within_encode (s : PositionStyle) {line last : Int} (h : line ≤ last) :
    (s.encode line).Within s last := by
  refine ⟨Position.style_encode s line, ?_⟩
  rw [Position.lineNumber_encode]
  exact h

namespace Accessors

variable {s : PositionStyle} {t : Table} {q : Position}

theorem next_synthesize (s : PositionStyle) (t : Table) (seed : Int) :
    (synthesize s t seed).2 = seed + 4 * t.size + 6 := by
  rw [synthesize_eq]

theorem within_synthesize {seed : Int} {f : FunctionDef} (hf : f ∈ (synthesize s t seed).1)
    (h : q ∈ f.positions) : q.Within s (synthesize s t seed).2 := by
  obtain ⟨l, hl, rfl⟩ := exists_line_of_mem_synthesize hf h
  refine Position.within_encode s ?_
  rw [next_synthesize]
  omega

end Accessors

namespace UnitParts

/-- A unit is its two first attributes and its body, which ends in an end mark. -/
structure Splits (u : UnitParts) (fs : List Form) : Prop where
  forms : fs = u.fileForm :: u.moduleForm :: u.body
  fileForm : ∃ pos name value, u.fileForm = .attribute pos name value
  moduleForm : ∃ name value, u.moduleForm = .attribute u.modulePos name value
  last : u.body.getLast? = some (.eof u.endPos)

theorem eq_attribute_of_fileOf? {f : Form} {file : Text} (h : fileOf? f = some file) :
    ∃ pos name value, f = .attribute pos name value := by
  unfold fileOf? at h
  split at h
  · exact ⟨_, _, _, rfl⟩
  · cases h

theorem eq_attribute_of_attributePos? {f : Form} {pos : Position} (h : attributePos? f = some pos) :
    ∃ name value, f = .attribute pos name value := by
  unfold attributePos? at h
  split at h
  · cases h
    exact ⟨_, _, rfl⟩
  · cases h

theorem eq_eof_of_eofPos? {f : Form} {pos : Position} (h : eofPos? f = some pos) : f = .eof pos := by
  unfold eofPos? at h
  split at h
  · cases h
    rfl
  · cases h

theorem splits_of_ofForms {fs : List Form} {u : UnitParts} (h : ofForms fs = .ok u) :
    u.Splits fs := by
  unfold ofForms at h
  split at h
  · split at h
    · cases h
    · cases h
    · cases h
    · next hf hm he =>
      cases h
      refine ⟨rfl, eq_attribute_of_fileOf? hf, eq_attribute_of_attributePos? hm, ?_⟩
      rw [List.getLast?_eq_some_getLast (by simp), eq_eof_of_eofPos? he]
  · cases h

end UnitParts

namespace Transformation

theorem eq_eof_of_isEof {f : Form} (h : isEof f = true) : ∃ pos, f = .eof pos := by
  unfold isEof at h
  split at h
  · exact ⟨_, rfl⟩
  · cases h

theorem countP_isEof_function (functions : List FunctionDef) :
    (functions.map Form.function).countP isEof = 0 := by
  rw [List.countP_eq_zero]
  intro f hf
  obtain ⟨g, -, rfl⟩ := List.mem_map.1 hf
  exact Bool.false_ne_true

theorem forms_ofUnit_of_size_eq_zero {u : UnitParts} (h : u.table.size = 0) (fs : List Form) :
    (ofUnit fs u).forms = some fs := by
  rw [ofUnit_of_size_eq_zero h]
  rfl

theorem generated_ofUnit {u : UnitParts} (h : u.table.size ≠ 0) (fs : List Form) :
    (ofUnit fs u).generated = u.made.1 := by
  rw [ofUnit_of_size_ne_zero h]
  rfl

end Transformation

open Transformation

/-- The forms of a unit that is transformed. Without enums they are those of the old unit. With some
they are, in their order, the old forms without the first end mark, an export attribute after the
module attribute, and at the end the functions for the table and one end mark. What is new has the
style of the module attribute, and the new end mark stands past all of it and past the old ones'
last. -/
theorem transform_forms (fs : List Form) (tr : Transformation) (h : transform fs = .ok tr) :
    (tr.table.size = 0 → tr.forms = some fs) ∧
    (tr.table.size ≠ 0 →
      ∃ fileForm pos name value before eofPos after endPos next new,
        fs = fileForm :: .attribute pos name value :: (before ++ .eof eofPos :: after) ∧
        (∀ f ∈ before, isEof f = false) ∧
        fs.getLast? = some (.eof endPos) ∧
        Accessors.synthesize pos.style tr.table endPos.lineNumber = (tr.generated, next) ∧
        tr.forms = some new ∧
        new = fileForm :: .attribute pos name value ::
          exportForm (pos.style.encode pos.lineNumber) ::
          (before ++ after ++ tr.generated.map .function ++ [.eof (pos.style.encode (next + 1))]) ∧
        new.countP isEof = fs.countP isEof ∧
        endPos.lineNumber < next + 1 ∧
        ∀ f ∈ tr.generated, ∀ p ∈ f.positions, p.style = pos.style ∧ p.lineNumber < next + 1) := by
  obtain ⟨u, hu, rfl⟩ := Attempt.map_eq_ok.1 h
  obtain ⟨hforms, ⟨filePos, fileName, fileValue, hfile⟩, ⟨name, value, hmod⟩, hlast⟩ :=
    UnitParts.splits_of_ofForms hu
  rw [table_ofUnit]
  refine ⟨fun hs => forms_ofUnit_of_size_eq_zero hs fs, fun hs => ?_⟩
  -- the body ends in an end mark, so there is a first one to leave out
  have hmem : .eof u.endPos ∈ u.body := List.mem_of_getLast? hlast
  obtain ⟨f, before, after, hbefore, heof, hbody, herase⟩ :=
    List.exists_of_eraseP hmem (p := isEof) rfl
  obtain ⟨eofPos, rfl⟩ := eq_eof_of_isEof heof
  rw [generated_ofUnit hs, forms_ofUnit hs]
  have hnext := Accessors.next_synthesize u.modulePos.style u.table u.endPos.lineNumber
  refine ⟨u.fileForm, u.modulePos, name, value, before, eofPos, after, u.endPos, u.made.2, _, ?_,
    fun f hf => ?_, ?_, rfl, rfl, ?_, ?_, ?_, fun f hf p hp => ?_⟩
  · rw [hforms, hmod, hbody]
  · simpa using hbefore f hf
  · simp [hforms, List.getLast?_cons, hlast]
  · rw [assemble, hmod, herase]
    simp
  · have hattr (p : Position) (n : Text) (v : Term) : isEof (.attribute p n v) = false := rfl
    have hmark (p : Position) : isEof (.eof p) = true := rfl
    rw [hforms, hfile, hmod, assemble, hfile, hmod, herase, hbody]
    simp only [exportForm, List.cons_append, List.countP_cons, List.countP_append,
      List.countP_nil, countP_isEof_function, hattr, hmark, Bool.false_eq_true, if_false, if_true]
    omega
  · rw [UnitParts.made, hnext]
    omega
  · have hw := Accessors.within_synthesize hf hp
    exact ⟨hw.style, Int.lt_add_one_of_le hw.line⟩

/-- A unit with columns, whose two enums stand after end marks, among forms of other kinds. -/
def marked : List Form :=
  [.attribute (.line 1) (lit "file") (.tuple [.str (lit "f"), .int 1]),
    .attribute (.lineColumn 2 3) (lit "module") (.atom (lit "m")),
    .raw (.int 7),
    .eof (.line 90),
    .attribute (.line 4) (lit "enum") (.tuple [.atom (lit "e"), .list [.atom (lit "a")]]),
    .eof (.lineColumn 5 1),
    .function ⟨.line 6, lit "keys", 1, []⟩,
    .attribute (.line 7) (lit "enum") (.tuple [.atom (lit "g"), .str []]),
    .eof (.lineColumn (-8) 1)]

theorem exists_transform_marked : ∃ tr, transform marked = .ok tr ∧ tr.table.size = 2 := by
  have hsize : ((transform marked).toOption.map fun tr => tr.table.size) = some 2 := by decide +kernel
  obtain ⟨tr, ht, hs⟩ := Option.map_eq_some_iff.1 hsize
  exact ⟨tr, Attempt.toOption_eq_some.1 ht, hs⟩

theorem transform_forms_marked : ∃ tr, transform marked = .ok tr ∧ tr.table.size ≠ 0 ∧
    ∃ fileForm pos name value before eofPos after endPos next new,
      marked = fileForm :: .attribute pos name value :: (before ++ .eof eofPos :: after) ∧
      (∀ f ∈ before, isEof f = false) ∧
      marked.getLast? = some (.eof endPos) ∧
      Accessors.synthesize pos.style tr.table endPos.lineNumber = (tr.generated, next) ∧
      tr.forms = some new ∧
      new = fileForm :: .attribute pos name value ::
        exportForm (pos.style.encode pos.lineNumber) ::
        (before ++ after ++ tr.generated.map .function ++ [.eof (pos.style.encode (next + 1))]) ∧
      new.countP isEof = marked.countP isEof ∧
      endPos.lineNumber < next + 1 ∧
      ∀ f ∈ tr.generated, ∀ p ∈ f.positions, p.style = pos.style ∧ p.lineNumber < next + 1 := by
  obtain ⟨tr, hok, hs⟩ := exists_transform_marked
  have hne : tr.table.size ≠ 0 := by omega
  exact ⟨tr, hok, hne, (transform_forms marked tr hok).2 hne⟩

end EnumForms
