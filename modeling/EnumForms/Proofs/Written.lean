import EnumForms.Command.Run
import EnumForms.Proofs.Folders
import EnumForms.Proofs.Units

/-!
What a command that transforms a unit into a file leaves there. Before it writes, it only says things
on the error channel; so if it ends well, the file holds the forms of the transformation.
-/
namespace EnumForms

theorem File.transform_eq_ok_iff {bytes : List UInt8} {tr : Transformation} :
    File.transform bytes = .ok tr ↔
      ∃ source, File.text? bytes = some source ∧ transformText source = .ok tr := by
  unfold File.transform File.text
  cases File.text? bytes with
  | none => simp
  | some source => simp [Attempt.mapError_eq_ok]

/-! ## The course of a command -/

def Effect.IsComplaint (e : Effect) : Prop := ∃ t, e = .complain t

namespace Command

/-- The course says some things and goes on as another one, or it breaks off. -/
def Reaches (c rest : Course) : Prop :=
  (∃ es : List Effect, (∀ e ∈ es, e.IsComplaint) ∧ c = after es rest) ∨ ∃ b, c.2 = .breakdown b

variable {c rest : Course}

theorem after_append (es es' : List Effect) (c : Course) :
    after es (after es' c) = after (es ++ es') c := by
  simp [after]

theorem Reaches.refl (c : Course) : Reaches c c := .inl ⟨[], by simp, rfl⟩

theorem Reaches.after {es : List Effect} (h : Reaches c rest) (he : ∀ e ∈ es, e.IsComplaint) :
    Reaches (after es c) rest := by
  obtain ⟨es', he', rfl⟩ | hb := h
  · exact .inl ⟨es ++ es', List.forall_mem_append.2 ⟨he, he'⟩, after_append es es' rest⟩
  · exact .inr hb

theorem reaches_reporting (label file : Text) (ds : List Diagnostic) (h : Reaches c rest) :
    Reaches (reporting label file ds c) rest := by
  induction ds with
  | nil => exact h
  | cons d ds ih =>
    rw [reporting]
    split
    · exact ih.after (List.forall_mem_singleton.2 ⟨_, rfl⟩)
    · exact .inr ⟨_, rfl⟩
    · exact .inr ⟨_, rfl⟩

theorem isComplaint_statsLines (s : Stats) : ∀ e ∈ statsLines s, e.IsComplaint := by
  simp only [statsLines, List.map_cons, List.map_nil, List.forall_mem_cons]
  exact ⟨⟨_, rfl⟩, ⟨_, rfl⟩, ⟨_, rfl⟩, ⟨_, rfl⟩, ⟨_, rfl⟩, ⟨_, rfl⟩, List.forall_mem_nil _⟩

theorem reaches_findings (tr : Transformation) (stats : Bool) (h : Reaches c rest) :
    Reaches (reporting (lit "[ERROR] ") tr.file tr.errors.all <|
      reporting (lit "[WARNING] ") tr.file tr.warnings.all <|
        Command.after (if stats then statsLines tr.stats else []) c) rest := by
  refine reaches_reporting _ _ _ (reaches_reporting _ _ _ (h.after ?_))
  split
  · exact isComplaint_statsLines _
  · exact List.forall_mem_nil _

theorem withUnit_exit {verbose : Bool} {path : Text} {unit : List UInt8}
    {go : Transformation → Course} (h : (withUnit verbose path unit go).2 = .exit 0) :
    ∃ tr es, File.transform unit = .ok tr ∧ (∀ e ∈ es, e.IsComplaint) ∧
      withUnit verbose path unit go = after es (go tr) := by
  unfold withUnit at h ⊢
  cases hs : File.text? unit with
  | none => simp [hs, breakOff] at h
  | some source =>
    simp only [hs] at h ⊢
    cases ht : transformText source with
    | error e =>
      simp only [ht] at h
      cases e with
      | unreadable e =>
        simp only [unreadable] at h
        split at h <;> cases h
      | malformed m => cases h
    | ok tr =>
      refine ⟨tr, _, File.transform_eq_ok_iff.2 ⟨source, hs, ht⟩, ?_, rfl⟩
      split
      · exact List.forall_mem_map.2 fun e _ => ⟨_, rfl⟩
      · exact List.forall_mem_nil _

end Command

theorem Transformation.success_ofUnit (fs : List Form) (u : UnitParts) :
    (ofUnit fs u).success = true := by
  rw [ofUnit_eq]
  split <;> rfl

namespace Command

variable {verbose strict stats : Bool} {path out : Text} {unit : List UInt8}

theorem putOut_exit {tr : Transformation} {c : Course} (ht : tr.success = true)
    (h : (putOut { output := some out, strict, stats } tr c).2 = .exit 0) :
    ∃ s bytes, Form.text? (tr.forms.getD []) = some s ∧ Utf8.encode? s = some bytes ∧
      putOut { output := some out, strict, stats } tr c = after [.write out bytes] c := by
  rw [putOut, if_pos ht] at h ⊢
  simp only [resultText, Bool.false_eq_true, if_false] at h ⊢
  cases hs : Form.text? (tr.forms.getD []) with
  | none => simp [hs, breakOff] at h
  | some s =>
    simp only [hs, writing] at h ⊢
    cases hb : Utf8.encode? s with
    | none => simp [hb, breakOff, after] at h
    | some bytes => exact ⟨s, bytes, rfl, hb, rfl⟩

theorem course_transform_exit
    (h : (course verbose unit (.transform path { output := some out, strict, stats })).2 = .exit 0) :
    ∃ tr s bytes es, File.transform unit = .ok tr ∧ Form.text? (tr.forms.getD []) = some s ∧
      Utf8.encode? s = some bytes ∧ (∀ e ∈ es, e.IsComplaint) ∧
      (course verbose unit (.transform path { output := some out, strict, stats })).1 =
        es ++ [.write out bytes] := by
  obtain ⟨tr, notes, htr, hn, hc⟩ := withUnit_exit h
  obtain ⟨source, -, hts⟩ := File.transform_eq_ok_iff.1 htr
  obtain ⟨fs, u, -, -, rfl⟩ := transformText_eq_ok_iff.1 hts
  rw [course, hc] at h ⊢
  obtain ⟨es, he, hes⟩ | ⟨b, hb⟩ := (reaches_findings (.ofUnit fs u) stats (.refl _)).after hn
  · rw [hes] at h ⊢
    obtain ⟨s, bytes, hs, hb, hp⟩ := putOut_exit (Transformation.success_ofUnit fs u) h
    exact ⟨_, s, bytes, es, htr, hs, hb, he, by rw [hp]; simp [after, finish]⟩
  · rw [hb] at h
    cases h

end Command

/-! ## Carrying it out -/

def Ending.code? : Ending → Option Nat
  | .exit code => some code
  | .breakdown _ => none

theorem Ending.code?_eq_some {e : Ending} {n : Nat} : e.code? = some n ↔ e = .exit n := by
  cases e <;> simp [code?]

def File.ofText (s : Text) : List UInt8 := (Utf8.encode? s).getD []

namespace Effect

variable {s : Observed} {es : List Effect}

theorem ending_performAll (s : Observed) (es : List Effect) : (performAll s es).ending = s.ending ∨
    ∃ w, (performAll s es).ending = .breakdown (.write w) := by
  induction es generalizing s with
  | nil => exact .inl rfl
  | cons e es ih =>
    rw [performAll]
    split
    · next s' hs =>
      have hs' : s'.ending = s.ending := by
        cases e with
        | print t | complain t =>
          cases hs
          rfl
        | makeWay path | write path bytes =>
          obtain ⟨f, -, rfl⟩ := Attempt.map_eq_ok.1 hs
          rfl
      rw [← hs']
      exact ih s'
    · exact .inr ⟨_, rfl⟩

theorem ending_of_performAll {n : Nat} (h : (performAll s es).ending = .exit n) :
    s.ending = .exit n := by
  obtain he | ⟨w, hw⟩ := ending_performAll s es
  · rw [← he, h]
  · rw [h] at hw
    cases hw

theorem performAll_append (h : ∀ e ∈ es, e.IsComplaint) (s : Observed) (rest : List Effect) :
    ∃ t, performAll s (es ++ rest) = performAll { s with complained := t } rest := by
  induction es generalizing s with
  | nil => exact ⟨s.complained, rfl⟩
  | cons e es ih =>
    rw [List.forall_mem_cons] at h
    obtain ⟨⟨t, rfl⟩, hes⟩ := h
    exact ih hes { s with complained := s.complained ++ t }

end Effect

/-- After a transformation that ends well, the file it was told to write holds its forms. -/
theorem Invocation.content?_run {verbose strict stats : Bool} {path out : Text}
    {unit : List UInt8} {f : Folder} {seen : Observed}
    (hrun : run ⟨verbose, .transform path { output := some out, strict, stats }⟩ unit f = seen)
    (h : seen.ending = .exit 0) :
    ∃ tr s bytes, File.transform unit = .ok tr ∧ Form.text? (tr.forms.getD []) = some s ∧
      Utf8.encode? s = some bytes ∧ seen.folder.content? (Path.steps out) = some bytes := by
  subst hrun
  obtain ⟨tr, s, bytes, es, htr, hs, hb, he, hc⟩ :=
    Command.course_transform_exit (Effect.ending_of_performAll h)
  refine ⟨tr, s, bytes, htr, hs, hb, ?_⟩
  rw [run, Invocation.course, hc] at h ⊢
  obtain ⟨t, ht⟩ := Effect.performAll_append he _ [.write out bytes]
  rw [ht, Effect.performAll] at h ⊢
  cases hw : f.write (Path.steps out) bytes with
  | error w => simp [Effect.perform, hw, Except.map] at h
  | ok f' =>
    have hp := Folder.content?_of_write hw
    simpa [Effect.perform, hw, Except.map, Effect.performAll] using hp

end EnumForms
