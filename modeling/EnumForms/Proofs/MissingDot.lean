import EnumForms.Proofs.Completion

/-!
The report of a missing dot. It is given where a tuple starts or the text ends, right after a
complete term. The term may stand in brackets that are still open; only if it does not, a dot is
what is missing.
-/
namespace EnumForms

/-! ## The message -/

theorem Kind.name_injective : Function.Injective Kind.name := by
  have h : ∀ j ∈ all, ∀ k ∈ all, j.name = k.name → j = k := by decide
  exact fun j k => h j (mem_all j) k (mem_all k)

theorem Text.trimRight_prefix (t : Text) : t.trimRight <+: t := by
  rw [trimRight, ← List.reverse_suffix, List.reverse_reverse]
  exact List.dropWhile_suffix _

namespace Message

variable {source file : Text} {line column : Int}

theorem headline_append (what rest : Text) :
    headline file line column what ++ rest = headline file line column (what ++ rest) := by
  simp only [headline, List.append_assoc]

theorem opens_of_eq_missingDot {what : Text}
    (h : Text.trimRight (headline file line column what) = missingDot source file line column) :
    lit "Cada" <+: what := by
  have hprefix : missingDot source file line column <+: headline file line column what :=
    h ▸ Text.trimRight_prefix _
  simp only [missingDot, headline_append] at hprefix
  have hwhat := (List.prefix_append_right_inj _).1 hprefix
  exact List.IsPrefix.trans ⟨_, rfl⟩ hwhat

theorem character_ne_missingDot (c : CodePoint) :
    character source file c line column ≠ missingDot source file line column := by
  intro h
  simp only [character, headline_append] at h
  have htake := List.prefix_iff_eq_take.1 (opens_of_eq_missingDot h)
  exact absurd (show lit "Cada" = lit "Cara" from htake) (by decide)

theorem token_eq_missingDot_iff {kind text : Text} {expected : List Text} :
    token source file kind text line column expected = missingDot source file line column ↔
      isMissingDot kind expected = true := by
  refine ⟨fun h => ?_, fun h => if_pos h⟩
  by_contra hn
  rw [token, if_neg hn] at h
  simp only [headline_append] at h
  have htake := List.prefix_iff_eq_take.1 (opens_of_eq_missingDot h)
  exact absurd (show lit "Cada" = lit "Toke" from htake) (by decide)

theorem isMissingDot_iff {k : Kind} {expected : List Kind} :
    isMissingDot k.name (expected.map Kind.name) = true ↔
      .dot ∈ expected ∧ (k = .openTuple ∨ k = .finish) := by
  simp only [isMissingDot, Bool.and_eq_true, List.contains_iff_mem, Bool.or_eq_true, beq_iff_eq,
    Kind.name_injective.eq_iff, List.mem_map_of_injective Kind.name_injective]

end Message

namespace Reading

/-! ## Where the reader stands after open brackets -/

theorem Listed.takes {v : List Token} {ns : List Node} (h : Listed v ns) (forms : List Node)
    {b : Bracket} (hb : b ≠ .tail) (place : Place) (fs : List Frame) :
    ∃ p, (p = .opening ∨ p = .item) ∧ steps ⟨forms, ⟨b, place, []⟩ :: fs, .opening⟩ v =
      .ok ⟨forms, ⟨b, place, ns.reverse⟩ :: fs, p⟩ := by
  induction h with
  | nil => exact ⟨.opening, .inl rfl, rfl⟩
  | @snoc u v ns n c _ hn hc ih =>
    obtain ⟨p, hp, hu⟩ := ih
    have hv := takes_of_derives hn forms (⟨b, place, ns.reverse⟩ :: fs) p n rfl hp
    refine ⟨.item, .inr rfl, ?_⟩
    rw [List.append_assoc, steps_append hu, steps_append hv,
      steps_cons (step_follows hc (by decide) (.comma hb)), List.reverse_concat]
    rfl

theorem Opened.takes {v : List Token} {fs : List Frame} (h : Opened v fs) (forms : List Node) :
    ∃ p, (p = .opening ∨ p = .item) ∧ steps ⟨forms, [], .opening⟩ v = .ok ⟨forms, fs, p⟩ := by
  induction h with
  | nil => exact ⟨.opening, .inl rfl, rfl⟩
  | @tuple u v o fs items _ ho hv ih =>
    obtain ⟨p, hp, hu⟩ := ih
    obtain ⟨p', hp', hv⟩ := hv.takes forms (b := .tuple) (by decide) o.place fs
    rw [List.reverse_reverse] at hv
    exact ⟨p', hp', by rw [steps_append hu, steps_cons (step_begins hp (.openTuple ho)), hv]⟩
  | @list u v o fs items _ ho hv ih =>
    obtain ⟨p, hp, hu⟩ := ih
    obtain ⟨p', hp', hv⟩ := hv.takes forms (b := .list) (by decide) o.place fs
    rw [List.reverse_reverse] at hv
    exact ⟨p', hp', by rw [steps_append hu, steps_cons (step_begins hp (.openList ho)), hv]⟩
  | @tail u v o b fs items _ ho hv hb ih =>
    obtain ⟨p, hp, hu⟩ := ih
    obtain ⟨init, last, hi, hs⟩ := takes_of_derives hv forms .list o.place [] fs .opening
      (by decide) (.inl rfl)
    have hitems : items = last :: init.reverse := by
      rw [← List.reverse_reverse items, hi, List.reverse_concat]
    refine ⟨.item, .inr rfl, ?_⟩
    rw [List.append_assoc, steps_append hu, List.cons_append,
      steps_cons (step_begins hp (.openList ho)), steps_append hs,
      steps_cons (step_follows hb (by decide) .bar), List.append_nil, hitems]
    rfl

theorem step_after {forms : List Node} {fs : List Frame} {n : Node} {t : Token}
    (ht : t.kind ≠ .string) :
    step ⟨forms, fs, after n⟩ t = follow ⟨forms, fs, after n⟩ n t.kind := by
  cases n with
  | strings place texts => simp [step, after, ht]
  | _ => rfl

/-- Complete forms, then brackets that are open, then a complete term. -/
def Unended (ts : List Token) (fs : List Frame) : Prop :=
  ∃ a v w trees n, ts = a ++ v ++ w ∧ Derives .start a trees ∧ Opened v fs ∧ Derives .term w [n]

def Undotted (ts : List Token) : Prop :=
  ∃ a w trees n, ts = a ++ w ∧ Derives .start a trees ∧ Derives .term w [n]

theorem Unended.steps {ts : List Token} {fs : List Frame} (h : Unended ts fs) :
    ∃ forms n, start.steps ts = .ok ⟨forms, fs, after n⟩ := by
  obtain ⟨a, v, w, trees, n, rfl, ha, hv, hw⟩ := h
  obtain ⟨p, hp, hv⟩ := hv.takes (trees.reverse ++ [])
  have hw := takes_of_derives hw (trees.reverse ++ []) fs p n rfl hp
  refine ⟨trees.reverse ++ [], n, ?_⟩
  rw [start, List.append_assoc, steps_append (takes_of_derives ha []), steps_append hv, hw]

theorem Undotted.unended {ts : List Token} (h : Undotted ts) : Unended ts [] := by
  obtain ⟨a, w, trees, n, rfl, ha, hw⟩ := h
  exact ⟨a, [], w, trees, n, by simp, ha, .nil, hw⟩

theorem Unended.frames_eq {ts : List Token} {fs gs : List Frame} (h : Unended ts fs)
    (h' : Unended ts gs) : fs = gs := by
  obtain ⟨forms, n, hr⟩ := h.steps
  obtain ⟨forms', n', hr'⟩ := h'.steps
  exact congrArg frames (Except.ok.inj (hr.symm.trans hr'))

theorem Unended.undotted_iff {ts : List Token} {fs : List Frame} (h : Unended ts fs) :
    Undotted ts ↔ fs = [] := by
  refine ⟨fun hu => h.frames_eq hu.unended, ?_⟩
  rintro rfl
  obtain ⟨a, v, w, trees, n, rfl, ha, hv, hw⟩ := h
  cases hv
  exact ⟨a, w, trees, n, by simp, ha, hw⟩

theorem Unended.dot_iff {ts : List Token} {fs : List Frame} (h : Unended ts fs) {d : Token}
    (hd : d.kind = .dot) : (∃ trees, Derives .start (ts ++ [d]) trees) ↔ fs = [] := by
  constructor
  · rintro ⟨trees, ht⟩
    obtain ⟨r, hr, hf⟩ := steps_iff_derives.2 ht
    obtain ⟨forms, n, hs⟩ := h.steps
    obtain ⟨r', h', hr⟩ := steps_append_eq_ok hr
    cases hs.symm.trans h'
    obtain ⟨r'', hstep, -⟩ := Attempt.bind_eq_ok.1 hr
    rw [step_after (by simp [hd]), hd] at hstep
    cases follow_eq_ok_iff.1 hstep
    rfl
  · rintro rfl
    obtain ⟨a, w, trees, n, rfl, ha, hw⟩ := h.undotted_iff.2 rfl
    exact ⟨_, List.append_assoc a w [d] ▸ ha.start_append (.form hw hd)⟩

/-! ## Where the reader looks for a dot -/

theorem unended_of_dot_mem_accepts {ts : List Token} {r : Reading} (h : Reads ts r)
    (hd : .dot ∈ r.accepts) : Unended ts r.frames := by
  obtain ⟨u, v, w, rfl, hs, hv, hw⟩ := h
  obtain ⟨forms, frames, point⟩ := r
  cases hw with
  | opening =>
    exfalso
    cases frames <;> simp only [accepts, mem_sorted] at hd
    · exact absurd hd (by decide)
    · split at hd <;> exact absurd hd (by decide)
  | item => exact absurd (show Kind.dot ∈ starts from hd) (by decide)
  | done hn => exact ⟨u, v, w, _, _, rfl, hs, hv, hn⟩
  | strings hk => exact ⟨u, v, _, _, _, rfl, hs, hv, .strings hk⟩

theorem accepts_after (forms : List Node) (fs : List Frame) (n : Node) :
    accepts ⟨forms, fs, after n⟩ = followers ∨
      accepts ⟨forms, fs, after n⟩ = sorted (.string :: followers) := by
  cases n with
  | strings place texts => exact .inr rfl
  | _ => exact .inl rfl

theorem dot_mem_accepts_after (forms : List Node) (fs : List Frame) (n : Node) :
    .dot ∈ accepts ⟨forms, fs, after n⟩ := by
  rcases accepts_after forms fs n with h | h <;> rw [h] <;> decide

theorem openTuple_notMem_accepts_after (forms : List Node) (fs : List Frame) (n : Node) :
    .openTuple ∉ accepts ⟨forms, fs, after n⟩ := by
  rcases accepts_after forms fs n with h | h <;> rw [h] <;> decide

theorem finish_after (forms : List Node) (fs : List Frame) (n : Node) :
    finish ⟨forms, fs, after n⟩ = .error (accepts ⟨forms, fs, after n⟩) := by
  cases n <;> rfl

theorem exists_step_openTuple {r : Reading} (h : .openTuple ∈ r.accepts) (text : Text)
    (place : Place) : ∃ r', r.step ⟨.openTuple, text, place⟩ = .ok r' := by
  obtain ⟨forms, frames, point⟩ := r
  cases point with
  | opening => exact ⟨_, step_begins (.inl rfl) (.openTuple rfl)⟩
  | item => exact ⟨_, step_begins (.inr rfl) (.openTuple rfl)⟩
  | done n => exact absurd (show Kind.openTuple ∈ followers from h) (by decide)
  | strings place texts =>
    exact absurd (show Kind.openTuple ∈ sorted (.string :: followers) from h) (by decide)

theorem run_front {r r' : Reading} {last here : Place} {u x : Text} {ts : List Token}
    (h : Front x here u ts) (hs : r.steps ts = .ok r') :
    r.run last here (u ++ x) = r'.run (lastPlace last ts) (here.advance u) x := by
  induction h generalizing r last with
  | nil =>
    cases hs
    rfl
  | layout hl _ ih => rw [List.append_assoc, run_layout hl, ih hs, Place.advance_append]
  | token hk _ ih =>
    obtain ⟨r₁, h₁, hs⟩ := Attempt.bind_eq_ok.1 hs
    rw [List.append_assoc, run_token hk h₁, ih hs, Place.advance_append]
    rfl

/-! ## The report -/

/-- The token `t` comes after the front `u` of a text with its tokens: it is the end of the text, or
a tuple starts there. -/
inductive Breaks (u : Text) (ts : List Token) : Text → Token → Prop where
  | finish : Breaks u ts [] ⟨.finish, [], lastPlace .start ts⟩
  | openTuple (rest : Text) : Breaks u ts (lit "\x7b" ++ rest)
      ⟨.openTuple, lit "\x7b", Place.start.advance u⟩

theorem openTuple_leads (rest : Text) :
    Kind.openTuple.Leads (lit "\x7b" ++ rest) (lit "\x7b") rest :=
  Kind.leads_of_lexeme? (by decide) rfl

theorem breaks_of_openTuple {u x t rest : Text} {ts : List Token}
    (h : Kind.openTuple.lexeme? x = some (t, rest)) :
    Breaks u ts x ⟨.openTuple, t, Place.start.advance u⟩ := by
  cases x with
  | nil => cases h
  | cons c x =>
    obtain rfl := Lexeme.single_cons h
    cases h
    exact .openTuple _

theorem parse_of_breaks {u x : Text} {ts : List Token} {fs : List Frame} {t : Token}
    (hf : Front x .start u ts) (hu : Unended ts fs) (hb : Breaks u ts x t) :
    ∃ expected, parse (u ++ x) = .error (.unexpectedToken t expected) ∧ .dot ∈ expected := by
  obtain ⟨forms, n, hs⟩ := hu.steps
  have hdot := dot_mem_accepts_after forms fs n
  rw [parse, run_front hf hs]
  cases hb with
  | finish => exact ⟨_, run_of_stuck (.ended (finish_after forms fs n)), hdot⟩
  | openTuple rest =>
    have hl := openTuple_leads rest
    have hn : scan (accepts ⟨forms, fs, after n⟩) (lit "\x7b" ++ rest) = none := by
      refine Option.eq_none_iff_forall_ne_some.2 fun found hk => ?_
      obtain ⟨k, t, q⟩ := found
      obtain ⟨rfl, -⟩ := (scan_leads (uniform_accepts _) hk).unique hl
      exact openTuple_notMem_accepts_after forms fs n (scan_eq_some hk).1
    have hall : scan Kind.all (lit "\x7b" ++ rest) = some (.openTuple, lit "\x7b", rest) :=
      (scan_eq_some_iff fun _ _ k' _ => Kind.mem_all k').2 ⟨by decide, hl⟩
    exact ⟨_, run_of_stuck (.unsought hl.layout_eq_none hn hall),
      List.mem_filter.2 ⟨hdot, by decide⟩⟩

theorem breaks_of_parse {s : Text} {t : Token} {expected : List Kind}
    (hp : parse s = .error (.unexpectedToken t expected)) (hd : .dot ∈ expected)
    (hk : t.kind = .openTuple ∨ t.kind = .finish) :
    ∃ u x ts fs, s = u ++ x ∧ Front x .start u ts ∧ Breaks u ts x t ∧ Unended ts fs := by
  obtain ⟨u, x, ts, r, rfl, hf, hs, hstuck⟩ := run_eq_error hp
  have hr := reads_steps reads_start hs
  rw [List.nil_append] at hr
  -- a token that the reader looked for and refused would be a tuple, but a tuple is taken
  cases hstuck with
  | ended he =>
    have haccepts : expected = r.accepts := by
      unfold finish at he
      split at he <;> cases he
      rfl
    exact ⟨u, [], ts, _, rfl, hf, .finish, unended_of_dot_mem_accepts hr (haccepts ▸ hd)⟩
  | refused hscan hstep =>
    obtain rfl := hk.resolve_right (scan_finds hscan).2
    obtain ⟨r', hr'⟩ := exists_step_openTuple (scan_eq_some hscan).1 _ _
    cases hstep.symm.trans hr'
  | unsought hl hn hall =>
    obtain rfl := hk.resolve_right (scan_finds hall).2
    have hdot := unended_of_dot_mem_accepts hr (List.mem_filter.1 hd).1
    exact ⟨u, _, ts, _, rfl, hf, breaks_of_openTuple (scan_eq_some hall).2, hdot⟩

/-- The tokens before the token `t` of a text are complete forms, brackets that are open and a
complete term. They are complete forms and a term, and a dot completes them, if and only if no
bracket is open. -/
structure MissesDot (s : Text) (t : Token) (ts : List Token) (fs : List Frame) : Prop where
  breaks : ∃ u x, s = u ++ x ∧ Front x .start u ts ∧ Breaks u ts x t
  unended : Unended ts fs
  undotted_iff : Undotted ts ↔ fs = []
  dot_iff : ∀ d : Token, d.kind = .dot →
    ((∃ trees, Derives .start (ts ++ [d]) trees) ↔ fs = [])

end Reading

open Reading in
/-- A missing dot is reported if and only if a tuple starts or the text ends after complete forms,
brackets that are open, and a complete term. If no bracket is open, the dot is what is missing. -/
theorem missingDot_iff (s file : Text) (e : ReadError) (report : SyntaxReport)
    (hp : parse s = .error e) (hr : e.report? s file = some report) :
    report.message = Message.missingDot s file report.place.line report.place.column ↔
      ∃ t expected ts fs, e = .unexpectedToken t expected ∧ MissesDot s t ts fs := by
  constructor
  · intro hm
    cases e with
    | unexpectedToken t expected =>
      obtain rfl := Option.some.inj hr
      obtain ⟨hd, hk⟩ := Message.isMissingDot_iff.1 (Message.token_eq_missingDot_iff.1 hm)
      obtain ⟨u, x, ts, fs, hs, hf, hb, hu⟩ := breaks_of_parse hp hd hk
      exact ⟨t, expected, ts, fs, rfl, ⟨u, x, hs, hf, hb⟩, hu, hu.undotted_iff, fun d => hu.dot_iff⟩
    | unexpectedCharacter c p =>
      obtain rfl := Option.some.inj hr
      dsimp only at hm
      exact absurd hm (Message.character_ne_missingDot c)
    | defect p d =>
      obtain ⟨_, _, _, _, _, _, _, hstuck⟩ := run_eq_error hp
      cases hstuck
    | overlong | notOneCharacter => cases hr
  · rintro ⟨t, expected, ts, fs, rfl, ⟨u, x, rfl, hf, hb⟩, hu, -, -⟩
    obtain ⟨expected', hp', hd⟩ := parse_of_breaks hf hu hb
    obtain ⟨-, rfl⟩ := ReadError.unexpectedToken.inj (Except.error.inj (hp.symm.trans hp'))
    obtain rfl := Option.some.inj hr
    have hk : t.kind = .openTuple ∨ t.kind = .finish := by
      cases hb with
      | finish => exact .inr rfl
      | openTuple rest => exact .inl rfl
    exact Message.token_eq_missingDot_iff.2 (Message.isMissingDot_iff.2 ⟨hd, hk⟩)

def dotless : Text := lit "\x7ba\x7d.\n\x7bb,[c|[]]\x7d\n\x7bd\x7d."

open Reading in
theorem missingDot_iff_dotless : ∃ e report, parse dotless = .error e ∧
    e.report? dotless SyntaxReport.noFile = some report ∧
    report.message = Message.missingDot dotless SyntaxReport.noFile 3 1 ∧
    ∃ t expected ts fs, e = .unexpectedToken t expected ∧ MissesDot dotless t ts fs := by
  have hp : parse dotless = .error (.unexpectedToken ⟨.openTuple, lit "\x7b", ⟨3, 1⟩⟩ followers) :=
    Attempt.reason?_eq_some.1 (by decide +kernel)
  have hm : Message.token dotless SyntaxReport.noFile Kind.openTuple.name (lit "\x7b") 3 1
      (followers.map Kind.name) = Message.missingDot dotless SyntaxReport.noFile 3 1 :=
    Message.token_eq_missingDot_iff.2 (by decide)
  exact ⟨_, _, hp, rfl, hm,
    (missingDot_iff dotless SyntaxReport.noFile _ _ hp rfl).1 hm⟩

open Reading in
/-- A dot is reported as missing in a tuple that is open. -/
theorem not_undotted_unclosed : ∃ e report ts, parse (lit "\x7ba") = .error e ∧
    e.report? (lit "\x7ba") SyntaxReport.noFile = some report ∧
    report.message = Message.missingDot (lit "\x7ba") SyntaxReport.noFile 1 2 ∧
    Lexed .start (lit "\x7ba") ts ∧ ¬ Undotted ts := by
  have hp : parse (lit "\x7ba") = .error (.unexpectedToken ⟨.finish, [], ⟨1, 2⟩⟩ followers) :=
    Attempt.reason?_eq_some.1 (by decide +kernel)
  have hm : Message.token (lit "\x7ba") SyntaxReport.noFile Kind.finish.name [] 1 2
      (followers.map Kind.name) = Message.missingDot (lit "\x7ba") SyntaxReport.noFile 1 2 :=
    Message.token_eq_missingDot_iff.2 (by decide)
  let ts : List Token := [⟨.openTuple, lit "\x7b", ⟨1, 1⟩⟩, ⟨.literal .atom, lit "a", ⟨1, 2⟩⟩]
  have hs : start.steps ts = .ok ⟨[], [⟨.tuple, ⟨1, 1⟩, []⟩],
      .done (.literal .atom (lit "a") ⟨1, 2⟩)⟩ := rfl
  refine ⟨_, _, ts, hp, rfl, hm, .of_scan rfl <| .of_scan rfl .done, fun hu => ?_⟩
  obtain ⟨forms, n, hu⟩ := hu.unended.steps
  exact nomatch congrArg frames (Except.ok.inj (hs.symm.trans hu))

end EnumForms
