import EnumForms.Proofs.Exported
import EnumForms.Proofs.Reported

/-!
How a command ends. It comes to an end of its own, with code 0 or 1, unless the unit has a numeral that
is too long to be read, or something that the command shows of the unit has a surrogate or an integer
with too many digits. A text that is no unit is refused with one message.
-/
namespace EnumForms

open Text (encodable_lit)

namespace Command

variable {path label file : Text} {ds : List Diagnostic} {c : Course} {n : Nat}

/-! ## The steps of a course -/

theorem printing_exit_iff {t : Text} : (printing t c).2 = .exit n ↔ t.Encodable ∧ c.2 = .exit n := by
  rw [← Text.encodable_withoutControls, printing]
  split
  · next h =>
    obtain ⟨d, hd, hs⟩ := List.any_eq_true.1 h
    refine iff_of_false (fun he => by cases he) fun he => ?_
    rw [he.1 d hd] at hs
    cases hs
  · next h =>
    have he : Text.Encodable t.withoutControls := by simpa [Text.Encodable] using h
    rw [and_iff_right he]
    rfl

theorem reporting_exit_iff (h : ∀ d ∈ ds, d.IsWorded) : (reporting label file ds c).2 = .exit n ↔
    (∀ d ∈ ds, d.pos.hasOverlong = false) ∧ c.2 = .exit n := by
  induction ds with
  | nil => simp [reporting]
  | cons d ds ih =>
    rw [List.forall_mem_cons] at h ⊢
    rw [reporting, Diagnostic.line_eq h.1, and_assoc, ← ih h.2]
    cases d.pos.hasOverlong with
    | true => exact iff_of_false (fun he => by cases he) fun he => by cases he.1
    | false => exact (and_iff_right rfl).symm

end Command

/-! ## What a command shows -/

/-- What the commands show of a transformation can be shown: the lines of the warnings, and then the
forms of the new unit or the functions of the enums, and the report if it is asked for. -/
def Command.Showable (tr : Transformation) : Command → Prop
  | .check _ => True
  | .transform _ o => (∀ w ∈ tr.warnings.all, w.pos.hasOverlong = false) ∧
    (if o.source then tr.table.Showable else ∀ f ∈ tr.forms.getD [], f.toTerm.Showable) ∧
    (o.json.isSome → tr.Exportable)
  | .render _ => (∀ w ∈ tr.warnings.all, w.pos.hasOverlong = false) ∧ tr.table.Showable

/-- The code with which a command ends. -/
def Command.code (tr : Transformation) : Command → Nat
  | .check _ | .render _ => 0
  | .transform _ o => exitCode o tr

/-- The message with which a command refuses a text. -/
def Command.refusal? (source : Text) (c : Command) : Option Text :=
  match readForms source with
  | .error e => (e.report? source (Path.normalize c.path)).map (·.message)
  | .ok fs => match c, EnumForms.transform fs with
    | .transform path _, .error m | .render path, .error m => some (Message.other path m.message)
    | _, _ => none

namespace Command

section

variable {fs : List Form} {u : UnitParts} {c : Course} {n : Nat}

theorem exists_sourceOf_iff :
    (∃ s, sourceOf (.ofUnit fs u) = .ok s ∧ s.Encodable) ↔
      (Transformation.ofUnit fs u).table.Showable := by
  simp only [sourceOf, Attempt.mapError_eq_ok, Form.exists_sourceText_iff, Transformation.table_ofUnit]
  by_cases hs : u.table.size = 0
  · have henums : u.table.enums = [] := List.length_eq_zero_iff.1 hs
    simp [Transformation.ofUnit_of_size_eq_zero hs, Transformation.unchanged, Table.Showable, henums]
  · rw [Transformation.generated_ofUnit hs]
    exact Accessors.showable_synthesize_iff

theorem exists_resultText_iff {o : TransformOptions} :
    (∃ s, resultText o (.ofUnit fs u) = .ok s ∧ s.Encodable) ↔
      if o.source then (Transformation.ofUnit fs u).table.Showable
      else ∀ f ∈ (Transformation.ofUnit fs u).forms.getD [], f.toTerm.Showable := by
  unfold resultText
  split
  · exact exists_sourceOf_iff
  · rw [← Form.exists_text?_iff]
    cases Form.text? ((Transformation.ofUnit fs u).forms.getD []) <;> simp

theorem putOut_exit_iff {o : TransformOptions} : (putOut o (.ofUnit fs u) c).2 = .exit n ↔
    ((∃ s, resultText o (.ofUnit fs u) = .ok s ∧ s.Encodable) ∧
      (o.json.isSome → (Transformation.ofUnit fs u).Exportable)) ∧ c.2 = .exit n := by
  have hworded : ∀ d ∈ (Transformation.ofUnit fs u).warnings.all, d.IsWorded :=
    Transformation.isWorded_of_mem_ofUnit
  rw [putOut, if_pos (Transformation.success_ofUnit fs u)]
  cases resultText o (.ofUnit fs u) with
  | error b => exact iff_of_false (fun he => by cases he) fun he => by simp at he
  | ok s =>
    -- the two choices, of a report and of a file for the result, do not meddle with each other
    cases o.json <;> cases o.output <;>
      simp [writing_exit_iff, printing_exit_iff, exporting_exit_iff hworded,
        Transformation.showable_document_ofUnit_iff, and_assoc]

variable {verbose : Bool} {path : Text} {unit : List UInt8} {source : Text} {forms : List Form}

theorem finish_exit_iff {code : Nat} : (finish code).2 = .exit n ↔ n = code := by
  simp [finish, eq_comm]

theorem withUnit_eq {go : Transformation → Course} (hs : File.text? unit = some source)
    (hf : readForms source = .ok forms) (hu : UnitParts.ofForms forms = .ok u) :
    (withUnit verbose path unit go).2 = (go (.ofUnit forms u)).2 := by
  have ht : transformText source = .ok (.ofUnit forms u) :=
    transformText_eq_ok_iff.2 ⟨forms, u, hf, hu, rfl⟩
  simp only [withUnit, hs, ht]
  rfl

theorem course_check_exit_iff (hs : File.text? unit = some source)
    (hf : readForms source = .ok forms) :
    (course verbose unit (.check path)).2 = .exit n ↔ n = 0 := by
  have hok : (lit "OK (" ++ Decimal.ofNat forms.length ++ lit " forms)\n").Encodable := by simp
  simp only [course, hs, hf, printing_exit_iff, and_iff_right hok, finish_exit_iff]

/-- A command comes to its end exactly if it can show what it shows of the transformation. -/
theorem course_exit_iff (i : Command) (hs : File.text? unit = some source)
    (hf : readForms source = .ok forms) (hu : UnitParts.ofForms forms = .ok u) :
    (i.course verbose unit).2 = .exit n ↔
      i.Showable (.ofUnit forms u) ∧ n = i.code (.ofUnit forms u) := by
  have hworded : ∀ d ∈ (Transformation.ofUnit forms u).warnings.all, d.IsWorded :=
    Transformation.isWorded_of_mem_ofUnit
  have herrors : (Transformation.ofUnit forms u).errors = [] :=
    (Transformation.findings_ofUnit forms u).2.2
  cases i with
  | check path => rw [course_check_exit_iff hs hf, Showable, code, true_and]
  | transform path o =>
    have hnone : Findings.all [] = [] := rfl
    have hafter (es : List Effect) (c : Course) : (after es c).2 = c.2 := rfl
    rw [course, withUnit_eq hs hf hu, herrors, hnone, reporting, reporting_exit_iff hworded, hafter,
      putOut_exit_iff, exists_resultText_iff, finish_exit_iff, ← and_assoc]
    rfl
  | render path =>
    rw [course, withUnit_eq hs hf hu, reporting_exit_iff hworded, Showable, ← exists_sourceOf_iff,
      and_assoc]
    refine and_congr_right' ?_
    cases sourceOf (.ofUnit forms u) with
    | error b => exact iff_of_false (fun he => by cases he) fun he => by simp at he
    | ok s =>
      simp only [Except.ok.injEq, exists_eq_left']
      rw [printing_exit_iff, finish_exit_iff]
      rfl

theorem code_eq_zero_or (i : Command) (fs : List Form) (u : UnitParts) :
    i.code (.ofUnit fs u) = 0 ∨ i.code (.ofUnit fs u) = 1 ∧ ∃ path o, i = .transform path o ∧
      o.strict = true ∧ (Transformation.ofUnit fs u).warnings.isAny = true := by
  cases i with
  | check path | render path => exact .inl rfl
  | transform path o =>
    have herrors : (Transformation.ofUnit fs u).errors.isAny = false := by
      rw [(Transformation.findings_ofUnit fs u).2.2]
      rfl
    rw [code, exitCode, herrors, Bool.false_or]
    split
    · next h => exact .inr ⟨rfl, path, o, rfl, Bool.and_eq_true_iff.1 h⟩
    · exact .inl rfl

theorem withUnit_of_unreadable {go : Transformation → Course} {e : ReadError}
    (hs : File.text? unit = some source) (hf : readForms source = .error e) :
    withUnit verbose path unit go = unreadable path source e := by
  have ht : transformText source = .error (.unreadable e) := by rw [transformText, hf]; rfl
  simp only [withUnit, hs, ht]

theorem withUnit_of_malformed {go : Transformation → Course} {m : Malformed}
    (hs : File.text? unit = some source) (hf : readForms source = .ok forms)
    (hm : EnumForms.transform forms = .error m) :
    withUnit verbose path unit go = ([complaintLine (Message.other path m.message)], .exit 1) := by
  have ht : transformText source = .error (.malformed m) := by rw [transformText, hf]; simp [hm]
  simp only [withUnit, hs, ht]
  rfl

theorem course_of_unreadable (i : Command) {e : ReadError} (hs : File.text? unit = some source)
    (hf : readForms source = .error e) : i.course verbose unit = unreadable i.path source e := by
  cases i with
  | check path => simp only [course, hs, hf, Command.path]
  | transform path o | render path => exact withUnit_of_unreadable hs hf

theorem course_of_refusal (i : Command) {m : Text} (hs : File.text? unit = some source)
    (hm : i.refusal? source = some m) : i.course verbose unit = ([complaintLine m], .exit 1) := by
  unfold refusal? at hm
  split at hm
  · next e hf =>
    obtain ⟨r, hr, rfl⟩ := Option.map_eq_some_iff.1 hm
    rw [course_of_unreadable i hs hf, unreadable, hr]
    rfl
  · next fs hf =>
    split at hm
    · next path o m ht =>
      cases hm
      exact withUnit_of_malformed hs hf ht
    · next path m ht =>
      cases hm
      exact withUnit_of_malformed hs hf ht
    · cases hm

end

end Command

theorem readForms_ne_notOneCharacter (source : Text) :
    readForms source ≠ .error .notOneCharacter := by
  intro h
  rw [readForms, Attempt.map_eq_error] at h
  exact readTerms_ne_notOneCharacter source h

/-! ## The run of a command -/

/-- When and with which code a way to end is an end of its own. -/
structure Command.Ends (i : Command) (source : Text) (e : Ending) : Prop where
  exit_iff : (∃ n, e = .exit n) ↔ (∀ l, readForms source ≠ .error (.overlong l)) ∧
    ∀ tr, transformText source = .ok tr → i.Showable tr
  code : ∀ n, e = .exit n → n = 0 ∨ n = 1 ∧ ((i.refusal? source).isSome ∨
    ∃ path o tr, i = .transform path o ∧ o.strict = true ∧ transformText source = .ok tr ∧
      tr.warnings.isAny = true)

namespace Command

variable {verbose : Bool} {unit : List UInt8} {source : Text}

theorem ends_of_exit {i : Command} {e : Ending} {n : Nat} (he : e = .exit n)
    (hn : n = 0 ∨ n = 1 ∧ (i.refusal? source).isSome)
    (hl : ∀ l, readForms source ≠ .error (.overlong l))
    (ht : ∀ tr, transformText source ≠ .ok tr) : i.Ends source e := by
  refine ⟨iff_of_true ⟨n, he⟩ ⟨hl, fun tr h => absurd h (ht tr)⟩, fun k hk => ?_⟩
  rw [he, Ending.exit.injEq] at hk
  rw [← hk]
  exact hn.imp id fun h => ⟨h.1, .inl h.2⟩

theorem ends_of_refusal (i : Command) {m : Text} (hs : File.text? unit = some source)
    (hm : i.refusal? source = some m) (hl : ∀ l, readForms source ≠ .error (.overlong l))
    (ht : ∀ tr, transformText source ≠ .ok tr) : i.Ends source (i.course verbose unit).2 := by
  rw [course_of_refusal i hs hm]
  exact ends_of_exit rfl (.inr ⟨rfl, by rw [hm]; rfl⟩) hl ht

theorem ends_course (i : Command) (hs : File.text? unit = some source) :
    i.Ends source (i.course verbose unit).2 := by
  cases hf : readForms source with
  | error e =>
    have ht (tr : Transformation) : transformText source ≠ .ok tr := by
      rw [transformText, hf]
      intro h
      cases h
    cases hr : e.report? source (Path.normalize i.path) with
    | none =>
      obtain ⟨l, rfl⟩ : ∃ l, e = .overlong l := by
        cases e with
        | overlong l => exact ⟨l, rfl⟩
        | notOneCharacter => exact absurd hf (readForms_ne_notOneCharacter source)
        | _ => cases hr
      rw [course_of_unreadable i hs hf, unreadable, hr]
      refine ⟨iff_of_false (fun h => ?_) fun h => h.1 l hf, fun n hn => by cases hn⟩
      obtain ⟨n, hn⟩ := h
      cases hn
    | some r =>
      have hm : i.refusal? source = some r.message := by rw [refusal?, hf]; simp [hr]
      refine ends_of_refusal i hs hm (fun l hl => ?_) ht
      cases hf.symm.trans hl
      cases hr
  | ok fs =>
    have hl (l : Literal) : readForms source ≠ .error (.overlong l) := by
      rw [hf]
      intro h
      cases h
    cases hu : UnitParts.ofForms fs with
    | error m =>
      have hm : EnumForms.transform fs = .error m := by rw [EnumForms.transform, hu]; rfl
      have ht (tr : Transformation) : transformText source ≠ .ok tr := by
        rw [transformText, hf]
        simp [hm]
      cases i with
      | check path => exact ends_of_exit ((course_check_exit_iff hs hf).2 rfl) (.inl rfl) hl ht
      | transform path o | render path =>
        exact ends_of_refusal _ hs (by simp only [refusal?, hf, hm]; rfl) hl ht
    | ok u =>
      have htr : transformText source = .ok (.ofUnit fs u) :=
        transformText_eq_ok_iff.2 ⟨fs, u, hf, hu, rfl⟩
      have hexit (n : Nat) : (i.course verbose unit).2 = .exit n ↔
          i.Showable (.ofUnit fs u) ∧ n = i.code (.ofUnit fs u) := course_exit_iff i hs hf hu
      refine ⟨?_, fun n hn => ?_⟩
      · rw [and_iff_right hl, htr]
        simp only [Except.ok.injEq, forall_eq', hexit, exists_and_left, exists_eq, and_true]
      · obtain ⟨-, rfl⟩ := (hexit n).1 hn
        obtain h0 | ⟨h1, path, o, hi, hstrict, hwarn⟩ := code_eq_zero_or i fs u
        · exact .inl h0
        · exact .inr ⟨h1, .inr ⟨path, o, _, hi, hstrict, htr, hwarn⟩⟩

end Command

/-- A run in which nothing is in the way of a file comes to an end of its own exactly if no numeral of
the unit is too long to be read and the command can show what it shows of the transformation. It ends
with code 0 or 1, and with 1 only for a text that it refuses, about which it says one thing and does no
other, or for warnings where they count as errors. -/
theorem Invocation.ending_run (i : Invocation) (unit : List UInt8) (source : Text) (f : Folder)
    (hs : File.text? unit = some source)
    (hw : ∀ w, (i.run unit f).ending ≠ .breakdown (.write w)) :
    i.command.Ends source (i.run unit f).ending ∧
    ∀ m, i.command.refusal? source = some m →
      i.run unit f = ⟨[], (m ++ lit "\n").withoutControls.withSurrogatesSpelled, f, .exit 1⟩ := by
  have hrun : (i.run unit f).ending = (i.command.course i.verbose unit).2 :=
    Command.ending_carryOut hw
  refine ⟨?_, fun m hm => ?_⟩
  · rw [hrun]
    exact i.command.ends_course hs
  · rw [run, Invocation.course, Command.course_of_refusal i.command hs hm]
    rfl

def lone : Text := lit "\x7beof,1\x7d."

theorem Invocation.ending_run_adorned :
    let i : Invocation :=
      ⟨true, .transform (lit "unit") { source := true, strict := true, stats := true }⟩
    (i.run (File.ofText adorned) .empty).ending = .exit 1 ∧ i.command.Ends adorned (.exit 1) ∧
    ∃ m, (Command.render (lit "unit")).refusal? lone = some m ∧
      run ⟨false, .render (lit "unit")⟩ (File.ofText lone) .empty =
        ⟨[], (m ++ lit "\n").withoutControls.withSurrogatesSpelled, .empty, .exit 1⟩ := by
  intro i
  have hstrict : (i.run (File.ofText adorned) .empty).ending = .exit 1 :=
    Ending.code?_eq_some.1 (by decide +kernel)
  have hrender : (run ⟨false, .render (lit "unit")⟩ (File.ofText lone) .empty).ending = .exit 1 :=
    Ending.code?_eq_some.1 (by decide +kernel)
  obtain ⟨m, hm⟩ : ∃ m, (Command.render (lit "unit")).refusal? lone = some m :=
    Option.isSome_iff_exists.1 (by decide +kernel)
  refine ⟨hstrict, ?_, m, hm, ?_⟩
  · rw [← hstrict]
    refine (ending_run i (File.ofText adorned) adorned .empty (by decide +kernel) fun w => ?_).1
    rw [hstrict]
    exact Ending.noConfusion
  · refine (ending_run _ (File.ofText lone) lone .empty (by decide +kernel) fun w => ?_).2 m hm
    rw [hrender]
    exact Ending.noConfusion

def Ending.breaks : Ending → Bool
  | .exit _ | .breakdown (.write _) => false
  | .breakdown _ => true

/-- A text that is read may break the command off: the new unit is not printed. -/
theorem Invocation.not_ending_clouded :
    ¬ ∀ (i : Invocation) (unit : List UInt8) (source : Text) (f : Folder),
      File.text? unit = some source →
      (∀ w, (i.run unit f).ending ≠ .breakdown (.write w)) →
      ∃ n, (i.run unit f).ending = .exit n ∧ (n = 0 ∨ n = 1) := by
  intro h
  have hb : (run ⟨false, .transform (lit "unit") {}⟩ (File.ofText clouded) .empty).ending.breaks =
      true := by decide +kernel
  obtain ⟨n, hn, -⟩ := h ⟨false, .transform (lit "unit") {}⟩ (File.ofText clouded) clouded .empty
    (by decide +kernel) fun w hw => by rw [hw] at hb; cases hb
  rw [hn] at hb
  cases hb

end EnumForms
