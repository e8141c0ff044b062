import EnumForms.Proofs.Assembly
import EnumForms.Proofs.Findings
import EnumForms.Proofs.Twice

/-!
What a list of forms needs to be a unit, and what a unit that is taken says about its declarations.
The second form has to be an attribute, but the attribute may have any name; only the forms after it
are searched for declarations.
-/
namespace EnumForms

open Transformation Declaration

/-- An attribute that names a file, an attribute with a name of some sort, more forms, and an end
mark. -/
def Framed (sort : Text → Prop) (fs : List Form) : Prop :=
  ∃ filePos file line pos name value body endPos, sort name ∧
    fs = .attribute filePos (lit "file") (.tuple [.str file, line]) ::
      .attribute pos name value :: (body ++ [.eof endPos])

namespace UnitParts

variable {u : UnitParts} {fs : List Form}

theorem fileOf?_eq_some_iff {f : Form} {file : Text} :
    fileOf? f = some file ↔ ∃ pos line, f = .attribute pos (lit "file") (.tuple [.str file, line]) := by
  constructor
  · intro h
    unfold fileOf? at h
    split at h
    · next hn =>
      split at h
      · next hname =>
        cases h
        subst hname
        exact ⟨_, _, rfl⟩
      · cases h
    · cases h
  · rintro ⟨pos, line, rfl⟩
    simp [fileOf?]

theorem framed_iff_of_ofForms (h : ofForms fs = .ok u) {pos : Position} {name : Text} {value : Term}
    (hm : u.moduleForm = .attribute pos name value) (sort : Text → Prop) :
    Framed sort fs ↔ sort name := by
  have hs := splits_of_ofForms h
  constructor
  · rintro ⟨_, _, _, _, _, _, _, _, hn, hfs⟩
    rw [hs.forms, hm, List.cons.injEq, List.cons.injEq, Form.attribute.injEq] at hfs
    rw [hfs.2.1.2.1]
    exact hn
  · intro hn
    obtain ⟨filePos, line, hf⟩ := fileOf?_eq_some_iff.1 (fileOf?_of_ofForms h)
    obtain ⟨body, hb⟩ := List.getLast?_eq_some_iff.1 hs.last
    refine ⟨filePos, u.file, line, pos, name, value, body, u.endPos, hn, ?_⟩
    rw [hs.forms, hf, hm, hb]

theorem exists_ofForms_iff : (∃ u, ofForms fs = .ok u) ↔ Framed (fun _ => True) fs := by
  constructor
  · rintro ⟨u, h⟩
    obtain ⟨name, value, hm⟩ := (splits_of_ofForms h).moduleForm
    exact (framed_iff_of_ofForms h hm _).2 trivial
  · rintro ⟨filePos, file, line, pos, name, value, body, endPos, -, rfl⟩
    cases body with
    | nil => exact ⟨_, rfl⟩
    | cons f body =>
      have hl : (f :: (body ++ [Form.eof endPos])).getLast (by simp) = .eof endPos := by simp
      simp [ofForms, fileOf?, attributePos?, hl, eofPos?]

end UnitParts

/-! ## Declarations -/

theorem Declaration.find_append (fs gs : List Form) : find (fs ++ gs) = find fs ++ find gs :=
  List.filterMap_append

theorem Declaration.find_cons_attribute (pos : Position) (name : Text) (value : Term)
    (fs : List Form) :
    find (.attribute pos name value :: fs) =
      if name = lit "enum" then ⟨value, pos.lineNumber⟩ :: find fs else find fs := by
  by_cases hn : name = lit "enum" <;> simp [find, hn]

theorem Registry.verdict_mem (earlier later : List Declaration) (d : Declaration) :
    let r := empty.addAll (earlier ++ d :: later)
    (∃ e ∈ r.table.enums, verdict earlier d = .ok e) ∨
      ∃ w ∈ r.findings.warnings, verdict earlier d = .error w ∧ w.pos = .line d.line := by
  obtain ⟨ht, hw, -⟩ := addAll_append earlier (d :: later)
  rw [verdicts] at ht hw
  cases hv : verdict earlier d with
  | ok e =>
    have he : (Except.ok e : Except Diagnostic _).toOption = some e := rfl
    rw [hv, List.filterMap_cons_some he] at ht
    exact .inl ⟨e, by simp [ht], rfl⟩
  | error w =>
    have he : warning? (.error w) = some w := rfl
    rw [hv, List.filterMap_cons_some he] at hw
    exact .inr ⟨w, by simp [hw], rfl, pos_of_verdict hv⟩

theorem transform_eq_ok_iff {fs : List Form} {tr : Transformation} :
    transform fs = .ok tr ↔ ∃ u, UnitParts.ofForms fs = .ok u ∧ ofUnit fs u = tr :=
  Attempt.map_eq_ok

theorem exists_transform_error_iff {fs : List Form} :
    (∃ m, transform fs = .error m) ↔ ¬ Framed (fun _ => True) fs := by
  rw [← UnitParts.exists_ofForms_iff, transform]
  cases UnitParts.ofForms fs <;> simp [Except.map]

/-- Forms are refused exactly when they do not start with an attribute that names a file and another
attribute or do not end in an end mark. In a unit that is taken, every enum attribute but one in
second place is judged by those before it: it is in the table, or a warning with its line says why
not. These are all the enum attributes there are exactly when the second form is none, as in a unit
whose second form names the module. -/
theorem transform_framed (fs : List Form) :
    ((∃ m, transform fs = .error m) ↔ ¬ Framed (fun _ => True) fs) ∧
    ∀ tr, transform fs = .ok tr →
      (∀ before pos value after, fs = before ++ .attribute pos (lit "enum") value :: after →
        before.length ≠ 1 →
        let v := verdict (find (before.drop 2)) ⟨value, pos.lineNumber⟩
        (∃ e ∈ tr.table.enums, v = .ok e) ∨
          ∃ w ∈ tr.warnings.all, v = .error w ∧ w.pos = .line pos.lineNumber) ∧
      (tr.table.size + tr.warnings.all.length = (find fs).length ↔
        Framed (· ≠ lit "enum") fs) := by
  refine ⟨exists_transform_error_iff, fun tr h => ?_⟩
  obtain ⟨u, hu, rfl⟩ := transform_eq_ok_iff.1 h
  have hs := UnitParts.splits_of_ofForms hu
  obtain ⟨filePos, line, hfile⟩ := UnitParts.fileOf?_eq_some_iff.1 (UnitParts.fileOf?_of_ofForms hu)
  obtain ⟨name, value, hm⟩ := hs.moduleForm
  have hne : lit "file" ≠ lit "enum" := by decide
  have hforms := hs.forms
  rw [hfile] at hforms
  rw [table_ofUnit, warnings_ofUnit, UnitParts.table, UnitParts.registry]
  refine ⟨fun before pos value after hfs hb => ?_, ?_⟩
  · cases before with
    | nil =>
      rw [hforms] at hfs
      cases hfs
    | cons f before =>
      cases before with
      | nil => exact absurd rfl hb
      | cons g before =>
        rw [hforms] at hfs
        obtain ⟨-, -, hbody⟩ := by simpa using hfs
        rw [hbody, find_append, find_cons_attribute, if_pos rfl]
        exact Registry.verdict_mem _ _ _
  · rw [UnitParts.framed_iff_of_ofForms hu hm, Registry.size_add_length_warnings, hforms, hm, find_cons_attribute,
      find_cons_attribute, if_neg hne]
    split
    · next hn => simp [hn]
    · next hn => simp [hn]

def veiled : List Form :=
  [.attribute (.line 1) (lit "file") (.tuple [.str (lit "f"), .int 1]),
    .attribute (.line 2) (lit "enum") (.tuple [.atom (lit "e"), .list [.atom (lit "a")]]),
    .attribute (.line 3) (lit "enum") (.tuple [.atom (lit "g"), .list [.atom (lit "b")]]),
    .attribute (.line 4) (lit "enum") (.int 7),
    .eof (.line 5)]

theorem transform_framed_veiled : ∃ tr, transform veiled = .ok tr ∧
    (∃ e ∈ tr.table.enums, e = (lit "g", [⟨lit "b", 0⟩])) ∧
    (∃ w ∈ tr.warnings.all, w.pos = .line 4) ∧
    ¬ tr.table.size + tr.warnings.all.length = (find veiled).length := by
  have hs : (transform veiled).toOption.isSome = true := by decide +kernel
  obtain ⟨tr, ht⟩ := Option.isSome_iff_exists.1 hs
  have hok := Attempt.toOption_eq_some.1 ht
  obtain ⟨hjudged, hcount⟩ := (transform_framed veiled).2 tr hok
  refine ⟨tr, hok, ?_, ?_, fun h => ?_⟩
  · obtain ⟨e, he, hv⟩ | ⟨w, -, hv, -⟩ := hjudged (veiled.take 2) (.line 3) _ _ rfl (by decide)
    · cases hv
      exact ⟨_, he, rfl⟩
    · cases hv
  · obtain ⟨e, -, hv⟩ | ⟨w, hw, -, hp⟩ := hjudged (veiled.take 3) (.line 4) _ _ rfl (by decide)
    · cases hv
    · exact ⟨w, hw, hp⟩
  · obtain ⟨_, _, _, _, _, _, _, _, hn, hfs⟩ := hcount.1 h
    have hsecond := congrArg (fun fs : List Form => fs[1]?) hfs
    cases hsecond
    exact hn rfl

/-- The unit is taken though no attribute names the module, and its first enum is neither in the
table nor warned of. -/
theorem not_framed_module_veiled :
    ¬ ((∃ m, transform veiled = .error m) ↔ ¬ Framed (· = lit "module") veiled) ∧
    ¬ ∀ tr, transform veiled = .ok tr → ∀ pos value, .attribute pos (lit "enum") value ∈ veiled →
      (∃ name ∈ tr.table.names, ∃ entries, value = .tuple [.atom name, entries]) ∨
        ∃ w ∈ tr.warnings.all, w.pos = .line pos.lineNumber := by
  have hs : ((transform veiled).toOption.map fun tr =>
      (tr.table.names, tr.warnings.all.map (·.pos))) = some ([lit "g"], [.line 4]) := by
    decide +kernel
  obtain ⟨tr, ht, hfound⟩ := Option.map_eq_some_iff.1 hs
  have hok := Attempt.toOption_eq_some.1 ht
  obtain ⟨hnames, hwarnings⟩ := Prod.mk.inj hfound
  refine ⟨fun h => ?_, fun h => ?_⟩
  · have hn : ¬ Framed (· = lit "module") veiled := by
      rintro ⟨_, _, _, _, _, _, _, _, hn, hfs⟩
      have hsecond := congrArg (fun fs : List Form => fs[1]?) hfs
      cases hsecond
      cases hn
    obtain ⟨m, hm⟩ := h.2 hn
    cases hok.symm.trans hm
  · obtain ⟨name, hn, _, he⟩ | ⟨w, hw, hp⟩ := h tr hok (.line 2) _ (.tail _ (.head _))
    · cases he
      rw [hnames] at hn
      exact absurd (List.mem_singleton.1 hn) (by decide)
    · have hp' := List.mem_map_of_mem (f := Diagnostic.pos) hw
      rw [hwarnings, hp] at hp'
      exact absurd (List.mem_singleton.1 hp') (by decide)

end EnumForms
