import EnumForms.Proofs.Completion
import EnumForms.Proofs.Places

/-!
Reading one text after another. After a text of complete forms the reader stands as it did at the
start, so a second text on the next line is read as it is alone: its terms come after those of the
first, and its errors stand so many lines further down.
-/
namespace EnumForms

def Place.below (k : Nat) (p : Place) : Place := ⟨p.line + k, p.column⟩

theorem Place.below_next (k : Nat) (p : Place) (c : CodePoint) :
    (p.next c).below k = (p.below k).next c := by
  unfold next
  split
  · simp [below, Nat.add_right_comm]
  · rfl

theorem Place.next_advance_start (a : Text) :
    (start.advance a).next .newline = start.below (a.count .newline + 1) := by
  rw [advance_start]
  simp [next, Text.endPlace, below, start, Nat.add_comm]

def Closed (us : List Token) : Prop := ∀ t ∈ us.getLast?, t.kind = .dot

theorem Closed.of_cons {t : Token} {us : List Token} (h : Closed (t :: us)) : Closed us := by
  intro d hd
  refine h d ?_
  rw [List.getLast?_cons]
  simp_all

theorem Derives.closed : ∀ {us : List Token} {ns : List Node}, Derives .start us ns → Closed us
  | _, _, .noForm => by simp [Closed]
  | _, _, @Derives.forms _ v _ _ (.form (u := u) (d := d) _ hk) hv => by
    intro t ht
    cases v with
    | nil =>
      obtain rfl : d = t := by simpa using ht
      exact hk
    | cons w v => exact hv.closed t (by simpa using ht)

theorem Lexed.eq_nil {p : Place} {ts : List Token} (h : Lexed p [] ts) : ts = [] := by
  cases h with
  | done => rfl
  | layout hl => cases hl
  | @token _ _ _ _ k _ hk =>
    have hl := length_lt_of_cut k.cuts_lexeme? k.finds_lexeme? hk.1
    exact absurd hl (Nat.not_lt_zero _)

namespace Reading

variable {r r' : Reading} {here : Place} {s t q : Text} (last : Place)

/-- White space may go on after a text, so the run of it is not the same; what is read is. -/
theorem run_append_of_layout (ht : ∀ c ∈ t, c.isLayout = true) :
    r.run last here (t ++ s) = r.run last (here.advance t) s := by
  have hdrop (here : Place) (s : Text) : r.run last here s =
      r.run last (here.advance (s.takeWhile CodePoint.isLayout))
        (s.dropWhile CodePoint.isLayout) := by
    by_cases hn : s.takeWhile CodePoint.isLayout = []
    · have hs := List.takeWhile_append_dropWhile (p := CodePoint.isLayout) (l := s)
      rw [hn, List.nil_append] at hs
      rw [hn, hs]
      rfl
    · exact run_layout (by simp [Lexeme.layout, Lexeme.either, Lexeme.run, hn])
  rw [hdrop, hdrop (here.advance t), List.takeWhile_append_of_pos ht,
    List.dropWhile_append_of_pos ht, Place.advance_append]

theorem run_layout_newline (h : Lexeme.layout s = some (t, q)) (b : Text) :
    r.run last here (s ++ .newline :: b) = r.run last (here.advance t) (q ++ .newline :: b) := by
  rw [Lexeme.cuts_layout _ _ _ h, List.append_assoc]
  obtain hw | ⟨-, hc⟩ := Option.or_eq_some_iff.1 h
  · exact run_append_of_layout last fun c => Lexeme.of_mem_run hw
  · obtain ⟨-, -, -, -, hq⟩ := Lexeme.comment_eq_some_iff.1 hc
    refine run_layout (Lexeme.layout_comment hc fun d hd => ?_)
    cases q with
    | nil => exact (Option.some.inj hd).symm
    | cons e q => exact hq d hd

theorem run_append {a b : Text} {us : List Token} (hx : Lexed here a us) (hd : Closed us)
    (hs : r.steps us = .ok r') :
    ∃ last', r.run last here (a ++ .newline :: b) =
      r'.run last' ((here.advance a).next .newline) b := by
  induction hx generalizing r last with
  | @done p =>
    cases hs
    exact ⟨last, run_append_of_layout last (t := [.newline]) (by decide)⟩
  | layout hl hx ih =>
    obtain ⟨last', ih⟩ := ih last hd hs
    rw [run_layout_newline last hl, ih, Lexeme.cuts_layout _ _ _ hl, Place.advance_append]
    exact ⟨last', rfl⟩
  | @token p s t q k us hk hx ih =>
    obtain ⟨r₁, h₁, hs⟩ := Attempt.bind_eq_ok.1 hs
    obtain ⟨last', ih⟩ := ih p hd.of_cons hs
    have hcut := k.cuts_lexeme? _ _ _ hk.1
    have hdot : q = [] → k = .dot := by
      rintro rfl
      obtain rfl := hx.eq_nil
      exact hd ⟨k, t, p⟩ rfl
    rw [hcut, ← List.append_nil q] at hk
    have hk' := hk.before_of_dot (c := .newline) (by decide) (by simpa using hdot) b
    rw [hcut, List.append_assoc, run_token hk' h₁, ih, Place.advance_append]
    exact ⟨last', rfl⟩

theorem run_last (forms : List Node) (last' here : Place) (s : Text) :
    run ⟨forms, [], .opening⟩ last here s = run ⟨forms, [], .opening⟩ last' here s := by
  generalize hr : (⟨forms, [], .opening⟩ : Reading) = r
  fun_induction run r last here s with
  | case1 r last here ns hn => rw [run, hn]
  | case2 r last here expected hn =>
    subst hr
    cases hn
  | case3 r last here c s t rest hl _ ih => rw [run_layout hl, ih hr]
  | case4 r last here c s hl k t rest hk _ r₁ h₁ ih =>
    rw [run_token (scan_leads r.uniform_accepts hk) h₁]
  | case5 r last here c s hl k t rest hk _ expected h₁ => rw [run_of_stuck (.refused hk h₁)]
  | case6 r last here c s hl hn k t rest hk => rw [run_of_stuck (.unsought hl hn hk)]
  | case7 r last here c s hl hn hk => rw [run_of_stuck (.stray hl hk)]

end Reading

theorem parse_append {a : Text} {ns : List Node} (h : parse a = .ok ns) (b : Text) :
    parse (a ++ .newline :: b) =
      ((parse b).map fun ms => ns ++ ms.map (Node.mapPlace (.below (a.count .newline + 1)))).mapError
        (ReadError.mapPlace (.below (a.count .newline + 1))) := by
  obtain ⟨us, hx, hd⟩ := parse_eq_ok_iff.1 h
  have hs : Reading.start.steps us = .ok ⟨ns.reverse, [], .opening⟩ := by
    simpa [Reading.start] using Reading.takes_of_derives hd []
  obtain ⟨last, hrun⟩ := Reading.run_append (b := b) .start hx hd.closed hs
  let down : Place → Place := .below (a.count .newline + 1)
  calc
    parse (a ++ .newline :: b)
        = Reading.run ⟨ns.reverse, [], .opening⟩ last (down .start) b := by
          rw [parse, hrun, Place.next_advance_start]
    _ = (Reading.start.mapPlace down ns.reverse).run (down .start) (down .start) b :=
          Reading.run_last _ _ _ _ _
    _ = _ := by
          rw [Reading.run_mapPlace down ns.reverse (Place.below_next _), List.reverse_reverse]
          rfl

namespace Node

theorem values_append (ns ms : List Node) :
    values (ns ++ ms) = values ns >>= fun ts => (values ms).map (ts ++ ·) := by
  induction ns with
  | nil => rw [List.nil_append]; cases values ms <;> rfl
  | cons n ns ih =>
    rw [List.cons_append, values, values, ih]
    cases value n with
    | error e => rfl
    | ok t =>
      cases values ns with
      | error e => rfl
      | ok ts => cases values ms <;> rfl

end Node

theorem readTerms_append {a : Text} {ts : List Term} (h : readTerms a = .ok ts) (b : Text) :
    readTerms (a ++ .newline :: b) =
      ((readTerms b).map (ts ++ ·)).mapError (ReadError.mapPlace (.below (a.count .newline + 1))) := by
  obtain ⟨ns, hp, hv⟩ := Attempt.bind_eq_ok.1 h
  rw [readTerms, parse_append hp, readTerms]
  cases parse b with
  | error e => rfl
  | ok ms =>
    have hm := Node.values_mapPlace (.below (a.count .newline + 1)) ms
    simp only [Except.map, Attempt.mapError_ok, Attempt.ok_bind, Node.values_append, hv, hm]
    cases Node.values ms <;> rfl

theorem ReadError.report?_mapPlace (f : Place → Place) {source file : Text} {e : ReadError}
    {report : SyntaxReport} (h : e.report? source file = some report) (source' : Text) :
    ∃ report', (e.mapPlace f).report? source' file = some report' ∧
      report'.place = f report.place ∧ report'.file = report.file ∧
      report'.expected = report.expected := by
  cases e with
  | overlong | notOneCharacter => cases h
  | _ =>
    obtain rfl := Option.some.inj h
    exact ⟨_, rfl, rfl, rfl, rfl⟩

/-- Text after a text of terms, on a line of its own, is read as it is alone: the terms of both come
one after the other, and if the second has an error, it is reported as so many lines further down. -/
theorem readTerms_concatenated (a b : Text) (ts : List Term) (h : readTerms a = .ok ts) :
    (∀ vs, readTerms (a ++ .newline :: b) = .ok vs ↔ ∃ us, readTerms b = .ok us ∧ vs = ts ++ us) ∧
    ∀ e file report, readTerms b = .error e → e.report? b file = some report →
      ∃ e' report', readTerms (a ++ .newline :: b) = .error e' ∧
        e'.report? (a ++ .newline :: b) file = some report' ∧
        report'.place = ⟨report.place.line + 1 + a.count .newline, report.place.column⟩ ∧
        report'.expected = report.expected := by
  have hab := readTerms_append h b
  refine ⟨fun vs => ?_, fun e file report he hr => ?_⟩
  · rw [hab, Attempt.mapError_eq_ok, Attempt.map_eq_ok]
    exact exists_congr fun us => and_congr_right fun _ => eq_comm
  · obtain ⟨report', hr', hp, -, hx⟩ :=
      ReadError.report?_mapPlace (.below (a.count .newline + 1)) hr (a ++ .newline :: b)
    refine ⟨_, report', by rw [hab, he]; rfl, hr', ?_, hx⟩
    rw [hp, Place.below, Nat.add_assoc, Nat.add_comm 1]

def trailing : Text := lit "\x7ba,\"x\ny\"\x7d.\n% and so on"

theorem readTerms_concatenated_trailing : ∃ ts us, readTerms trailing = .ok ts ∧
    readTerms (lit "c.") = .ok us ∧
    readTerms (trailing ++ .newline :: lit "c.") = .ok (ts ++ us) ∧
    ∃ e report, readTerms (trailing ++ .newline :: unfinished) = .error e ∧
      e.report? (trailing ++ .newline :: unfinished) SyntaxReport.noFile = some report ∧
      report.place = ⟨6, 2⟩ := by
  have hok : (readTerms trailing).toOption.isSome ∧ (readTerms (lit "c.")).toOption.isSome := by
    decide +kernel
  obtain ⟨ts, hts⟩ := Option.isSome_iff_exists.1 hok.1
  obtain ⟨us, hus⟩ := Option.isSome_iff_exists.1 hok.2
  rw [Attempt.toOption_eq_some] at hts hus
  have hb : readTerms unfinished =
      .error (.unexpectedToken ⟨.finish, [], ⟨3, 2⟩⟩ Reading.followers) := by
    rw [readTerms, parse_unfinished]
    rfl
  obtain ⟨e, report, he, hr, hp, -⟩ :=
    (readTerms_concatenated trailing unfinished ts hts).2 _ SyntaxReport.noFile _ hb rfl
  refine ⟨ts, us, hts, hus, ?_, e, report, he, hr, hp⟩
  exact ((readTerms_concatenated trailing (lit "c.") ts hts).1 _).2 ⟨us, hus, rfl⟩

end EnumForms
