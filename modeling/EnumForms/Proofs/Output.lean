import EnumForms.Proofs.Inherited
import EnumForms.Proofs.LineEnds
import EnumForms.Proofs.Utf8
import EnumForms.Proofs.Written

/-!
What is read from a file that a transformation was written to. The forms come back with the line ends
in the names of their atoms made line feeds, so they come back as they were exactly if no name holds
a carriage return and no float is infinite.
-/
namespace EnumForms

open Term

namespace Form

def unifyNames (f : Form) : Form := ofTerm f.toTerm.unifyNames

theorem toTerm_unifyNames (f : Form) : f.unifyNames.toTerm = f.toTerm.unifyNames :=
  toTerm_ofTerm f.toTerm.unifyNames

variable {fs gs : List Form}

theorem stable_unifyNames (hs : ∀ f ∈ fs, f.Stable) : ∀ f ∈ fs.map unifyNames, f.Stable :=
  List.forall_mem_map.2 fun f hf => stable_ofTerm (hs f hf).readable.unifyNames

theorem map_unifyNames_eq_self_iff (hs : ∀ f ∈ fs, f.Stable) :
    fs.map unifyNames = fs ↔ ∀ f ∈ fs, f.toTerm.hasReturn = false := by
  constructor
  · intro h f hf
    rw [← h] at hf
    obtain ⟨g, -, rfl⟩ := List.mem_map.1 hf
    rw [toTerm_unifyNames, hasReturn_unifyNames]
  · intro h
    have hid : fs.map unifyNames = fs.map id := List.map_congr_left fun f hf => by
      rw [unifyNames, unifyNames_of_hasReturn_eq_false (h f hf), (hs f hf).ofTerm_toTerm, id]
    rw [hid, List.map_id]

theorem hasReturn_of_equalAll (h : equalAll (fs.map unifyNames) fs = true) :
    ∀ f ∈ fs, f.toTerm.hasReturn = false := by
  induction fs with
  | nil => simp
  | cons f fs ih =>
    rw [List.map_cons, equalAll, Bool.and_eq_true, equal, Bool.and_eq_true, toTerm_unifyNames] at h
    exact List.forall_mem_cons.2 ⟨hasReturn_of_equal h.1.2, ih h.2⟩

theorem unifyNewlines_lines (hs : ∀ f ∈ fs, f.Stable) :
    Text.unifyNewlines (lines (fs.map toTerm)) = lines ((fs.map unifyNames).map toTerm) := by
  have hm : (fs.map unifyNames).map toTerm = (fs.map toTerm).map Term.unifyNames := by
    simp [toTerm_unifyNames]
  rw [hm]
  exact Term.unifyNewlines_lines (List.forall_mem_map.2 fun f hf => (hs f hf).readable)

theorem hasOverlong_map_unifyNames (ho : ∀ f ∈ fs, f.toTerm.hasOverlong = false) :
    ∀ f ∈ fs.map unifyNames, f.toTerm.hasOverlong = false :=
  List.forall_mem_map.2 fun f hf => by rw [toTerm_unifyNames, hasOverlong_unifyNames, ho f hf]

/-- As many forms are read back as were written only if no float is infinite, and then they are the
forms with unified names. -/
theorem readForms_unifyNewlines_iff (hs : ∀ f ∈ fs, f.Stable)
    (ho : ∀ f ∈ fs, f.toTerm.hasOverlong = false) (hl : gs.length = fs.length) :
    readForms (Text.unifyNewlines (lines (fs.map toTerm))) = .ok gs ↔
      (∀ f ∈ fs, f.toTerm.hasInfinite = false) ∧ gs = fs.map unifyNames := by
  have hmap : (∀ f ∈ fs.map unifyNames, f.toTerm.hasInfinite = false) ↔
      ∀ f ∈ fs, f.toTerm.hasInfinite = false := by
    simp only [List.forall_mem_map, toTerm_unifyNames, hasInfinite_unifyNames]
  have hst := stable_unifyNames hs
  have hov := hasOverlong_map_unifyNames ho
  rw [unifyNewlines_lines hs]
  constructor
  · intro h
    have hi := hasInfinite_eq_false_of_readForms_lines hst hov h (by simpa using hl)
    exact ⟨hmap.1 hi, Except.ok.inj (h.symm.trans (readForms_lines hst hov hi))⟩
  · rintro ⟨hi, rfl⟩
    exact readForms_lines hst hov (hmap.2 hi)

end Form

theorem File.text?_of_encode? {s : Text} {bytes : List UInt8} (h : Utf8.encode? s = some bytes) :
    File.text? bytes = some s.unifyNewlines := by
  rw [text?, Utf8.decode?_encode? h, Option.map_some]

theorem File.readForms_eq_ok_iff {s : Text} {bytes : List UInt8} (h : File.text? bytes = some s)
    {fs : List Form} : File.readForms bytes = .ok fs ↔ EnumForms.readForms s = .ok fs := by
  simp only [File.readForms, File.text, h, Attempt.ok_bind, Attempt.mapError_eq_ok]

/-! ## What the old unit decides -/

theorem Term.Readable.steady_ne_iff {t : Term} (h : t.Readable) :
    t.Steady (· ≠ .carriageReturn) ↔ t.hasInfinite = false ∧ t.hasReturn = false := by
  induction h with
  | atom name =>
    rw [steady_atom_iff, List.forall_mem_ne']
    simp [hasInfinite, hasReturn]
  | int i => exact iff_of_true (.int i) ⟨rfl, rfl⟩
  | float _ => simp [steady_float_iff, hasReturn]
  | str s => exact iff_of_true (.str s) ⟨rfl, rfl⟩
  | tuple _ ih =>
    rw [steady_tuple_iff, hasInfinite, hasReturn, anyInfinite_eq_false_iff, anyReturn_eq_false_iff,
      ← forall₂_and]
    exact forall₂_congr ih
  | list _ ih =>
    rw [steady_list_iff, hasInfinite, hasReturn, anyInfinite_eq_false_iff, anyReturn_eq_false_iff,
      ← forall₂_and]
    exact forall₂_congr ih

namespace Transformation

variable {forms fs : List Form} {u : UnitParts}

theorem hasInfinite_ofUnit_iff (hu : u.Splits forms) (h : (ofUnit forms u).forms = some fs)
    (hforms : ∀ f ∈ forms, f.Stable) (hfs : ∀ f ∈ fs, f.Stable) :
    (∀ f ∈ fs, f.toTerm.hasInfinite = false) ↔ ∀ f ∈ forms, f.toTerm.hasInfinite = false := by
  have hs := steady_ofUnit_iff (P := fun _ => True) (fun _ _ => trivial) hu h
  rwa [forall₂_congr fun f hf => (hfs f hf).readable.steady_true_iff,
    forall₂_congr fun f hf => (hforms f hf).readable.steady_true_iff] at hs

theorem hasReturn_ofUnit_iff (hu : u.Splits forms) (h : (ofUnit forms u).forms = some fs)
    (hforms : ∀ f ∈ forms, f.Stable) (hfs : ∀ f ∈ fs, f.Stable) :
    (∀ f ∈ fs, f.toTerm.hasInfinite = false ∧ f.toTerm.hasReturn = false) ↔
      ∀ f ∈ forms, f.toTerm.hasInfinite = false ∧ f.toTerm.hasReturn = false := by
  have hP : ∀ c, Atom.isNamePart c = true → c ≠ .carriageReturn := by
    rintro c hc rfl
    cases hc
  have hs := steady_ofUnit_iff hP hu h
  rwa [forall₂_congr fun f hf => (hfs f hf).readable.steady_ne_iff,
    forall₂_congr fun f hf => (hforms f hf).readable.steady_ne_iff] at hs

end Transformation

/-- If a unit is transformed into a file and the command ends well, the file holds the forms of the
transformation. If the unit has no infinite float, they are read back with the line ends in the
names of their atoms made line feeds. They are read back as they were if and only if no name in the
unit holds a carriage return either; otherwise what is read is not even equal to them. -/
theorem readForms_transform_output (verbose strict stats : Bool) (path out : Text)
    (unit : List UInt8) (f : Folder) (seen : Observed)
    (hrun : Invocation.run ⟨verbose, .transform path { output := some out, strict, stats }⟩ unit f =
      seen) (h : seen.ending = .exit 0) :
    ∃ forms tr fs written, File.readForms unit = .ok forms ∧ File.transform unit = .ok tr ∧
      tr.forms = some fs ∧ seen.folder.content? (Path.steps out) = some written ∧
      ((∀ g ∈ forms, g.toTerm.hasInfinite = false) →
        File.readForms written = .ok (fs.map Form.unifyNames)) ∧
      (File.readForms written = .ok fs ↔
        ∀ g ∈ forms, g.toTerm.hasInfinite = false ∧ g.toTerm.hasReturn = false) ∧
      ∀ gs, File.readForms written = .ok gs → Form.equalAll gs fs = true → gs = fs := by
  obtain ⟨tr, s, written, htr, hs, hb, hc⟩ := Invocation.content?_run hrun h
  obtain ⟨source, hsource, hts⟩ := File.transform_eq_ok_iff.1 htr
  obtain ⟨fs, hfs, hst⟩ := Transformation.forms_transformText hts
  obtain ⟨forms, u, hread, hu, rfl⟩ := transformText_eq_ok_iff.1 hts
  rw [hfs, Option.getD_some] at hs
  obtain ⟨ho, rfl⟩ := (Form.text?_eq_some_iff hst).1 hs
  have hold := Form.stable_of_readForms hread
  have hsplits := UnitParts.splits_of_ofForms hu
  have hinf := Transformation.hasInfinite_ofUnit_iff hsplits hfs hold hst
  have hret := Transformation.hasReturn_ofUnit_iff hsplits hfs hold hst
  have hback {gs : List Form} (hl : gs.length = fs.length) : File.readForms written = .ok gs ↔
      (∀ f ∈ fs, f.toTerm.hasInfinite = false) ∧ gs = fs.map Form.unifyNames := by
    rw [File.readForms_eq_ok_iff (File.text?_of_encode? hb),
      Form.readForms_unifyNewlines_iff hst ho hl]
  refine ⟨forms, _, fs, written, (File.readForms_eq_ok_iff hsource).2 hread, htr, hfs, hc, ?_, ?_, ?_⟩
  · intro hi
    exact (hback (List.length_map _)).2 ⟨hinf.2 hi, rfl⟩
  · rw [hback rfl, ← hret, forall₂_and, ← Form.map_unifyNames_eq_self_iff hst, eq_comm (a := fs)]
  · intro gs hg he
    obtain ⟨-, rfl⟩ := (hback (Form.length_of_equalAll he)).1 hg
    exact (Form.map_unifyNames_eq_self_iff hst).2 (Form.hasReturn_of_equalAll he)

def Observed.ofUnit (s : Text) : Observed :=
  Invocation.run ⟨false, .transform (lit "unit") { output := some (lit "out") }⟩ (File.ofText s)
    .empty

def broken : Text :=
  lit "\x7battribute,1,file,\x7b\"f\",1\x7d\x7d." ++ lit "\x7battribute,2,module,m\x7d." ++
    lit "\x7battribute,3,enum,\x7b'é\\n',[a,\x7bb,7\x7d]\x7d\x7d." ++
    lit "\x7battribute,4,x,[\"\\r\\n\",\"\\r\",$\\r]\x7d." ++ lit "\x7beof,5\x7d."

theorem readForms_transform_output_broken : (Observed.ofUnit broken).ending = .exit 0 ∧
    ∃ tr fs written, File.transform (File.ofText broken) = .ok tr ∧ tr.forms = some fs ∧
      (Observed.ofUnit broken).folder.content? [lit "out"] = some written ∧
      File.readForms written = .ok fs := by
  have he : (Observed.ofUnit broken).ending = .exit 0 :=
    Ending.code?_eq_some.1 (by decide +kernel)
  have hforms : ((File.readForms (File.ofText broken)).toOption.map fun forms =>
      forms.all fun g => !g.toTerm.hasInfinite && !g.toTerm.hasReturn) = some true := by
    decide +kernel
  obtain ⟨forms', hr, hall⟩ := Option.map_eq_some_iff.1 hforms
  obtain ⟨forms, tr, fs, written, hforms, htr, hfs, hc, -, hiff, -⟩ :=
    readForms_transform_output false false false (lit "unit") (lit "out") (File.ofText broken)
      .empty _ rfl he
  cases hforms.symm.trans (Attempt.toOption_eq_some.1 hr)
  rw [List.all_eq_true] at hall
  exact ⟨he, tr, fs, written, htr, hfs, hc, hiff.2 fun g hg => by simpa using hall g hg⟩

namespace Term

mutual

def hasFloat : Term → Bool
  | .float _ => true
  | .tuple items => anyFloat items
  | .list items => anyFloat items
  | _ => false

def anyFloat : List Term → Bool
  | [] => false
  | t :: ts => t.hasFloat || anyFloat ts

end

end Term

def returned : Text :=
  lit "\x7battribute,1,file,\x7b\"f\",1\x7d\x7d." ++ lit "\x7battribute,2,module,m\x7d." ++
    lit "\x7battribute,3,x,'a\\rb'\x7d." ++ lit "\x7beof,4\x7d."

/-- Without floats, surrogates and integers with too many digits, forms need not be read back. -/
theorem not_readForms_transform_returned :
    ¬ ∀ (path out : Text) (unit : List UInt8) (f : Folder) (seen : Observed),
      Invocation.run ⟨false, .transform path { output := some out }⟩ unit f = seen →
      seen.ending = .exit 0 →
      ∀ forms tr fs, File.readForms unit = .ok forms →
        (∀ g ∈ forms, g.toTerm.hasFloat = false ∧ g.toTerm.hasOverlong = false ∧
          ∀ c ∈ g.toTerm.text, c.isSurrogate = false) →
        File.transform unit = .ok tr → tr.forms = some fs →
        ∃ written gs, seen.folder.content? (Path.steps out) = some written ∧
          File.readForms written = .ok gs ∧ Form.equalAll gs fs = true := by
  intro h
  have he : (Observed.ofUnit returned).ending = .exit 0 :=
    Ending.code?_eq_some.1 (by decide +kernel)
  have hforms : ((File.readForms (File.ofText returned)).toOption.map fun forms =>
      forms.all fun g => !g.toTerm.hasFloat && !g.toTerm.hasOverlong &&
        g.toTerm.text.all (!·.isSurrogate)) = some true := by
    decide +kernel
  have hread : ((File.transform (File.ofText returned)).toOption.bind fun tr => tr.forms.map fun fs =>
      ((Observed.ofUnit returned).folder.content? [lit "out"]).all fun written =>
        (File.readForms written).toOption.all fun gs => !Form.equalAll gs fs) = some true := by
    decide +kernel
  obtain ⟨forms, hr, hall⟩ := Option.map_eq_some_iff.1 hforms
  obtain ⟨tr, ht, hread⟩ := Option.bind_eq_some_iff.1 hread
  obtain ⟨fs, hfs, hread⟩ := Option.map_eq_some_iff.1 hread
  rw [List.all_eq_true] at hall
  obtain ⟨written, gs, hc, hg, heq⟩ := h (lit "unit") (lit "out") (File.ofText returned) .empty _ rfl he
    forms tr fs (Attempt.toOption_eq_some.1 hr)
    (fun g hg => by simpa [and_assoc] using hall g hg) (Attempt.toOption_eq_some.1 ht) hfs
  have hc' : (Observed.ofUnit returned).folder.content? [lit "out"] = some written := hc
  rw [hc', Option.all_some, hg, Except.toOption, Option.all_some, heq] at hread
  cases hread

end EnumForms
