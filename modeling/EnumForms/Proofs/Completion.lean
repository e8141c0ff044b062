import EnumForms.Proofs.Front
import EnumForms.ReadError.Message
import Mathlib.Data.List.Induction

/-!
The place of an error. Wherever the reader stands, the text can go on so that it is read: with a
term if one has to come, then the brackets that are open, and a dot. So what is read before an error
is the start of some text without one.
-/
namespace EnumForms

namespace Reading

def closing (fs : List Frame) : Text :=
  fs.flatMap (fun f => if f.bracket = .tuple then lit "\x7d" else lit "]") ++ lit "."

def completion (r : Reading) : Text :=
  match r.point with
  | .opening | .item => lit "a" ++ closing r.frames
  | _ => closing r.frames

theorem closing_cons (f : Frame) (fs : List Frame) :
    closing (f :: fs) = (if f.bracket = .tuple then lit "\x7d" else lit "]") ++ closing fs := by
  simp [closing]

theorem stops_closing (fs : List Frame) : Stops (closing fs) := by
  cases fs with
  | nil => exact stops_dot
  | cons f fs =>
    rw [closing_cons]
    split
    · exact stops_of_sign (.inr (.inl rfl)) _
    · exact stops_of_sign (.inr (.inr rfl)) _

/-- The text is cut at this place into tokens with which the reader ends the forms. -/
def Completes (r : Reading) (p : Place) (u : Text) : Prop :=
  ∃ ts r' ns, Lexed p u ts ∧ r.steps ts = .ok r' ∧ r'.finish = .ok ns

theorem Completes.step {r r' : Reading} {k : Kind} {u v : Text} {p : Place}
    (hk : k.Leads (u ++ v) u v) (hr : r.step ⟨k, u, p⟩ = .ok r')
    (h : r'.Completes (p.advance u) v) : r.Completes p (u ++ v) := by
  obtain ⟨ts, r₁, ns, hx, hs, hf⟩ := h
  exact ⟨_, r₁, ns, .token hk hx, (steps_cons hr ts).trans hs, hf⟩

theorem completes_closing {forms : List Node} {frames : List Frame} {point : Point} {n : Node}
    (hn : ∀ t, t.kind ≠ .string →
      step ⟨forms, frames, point⟩ t = follow ⟨forms, frames, point⟩ n t.kind) (p : Place) :
    Completes ⟨forms, frames, point⟩ p (closing frames) := by
  induction frames generalizing point n p with
  | nil =>
    have hd : Kind.dot.Leads (lit "." ++ []) (lit ".") [] := Kind.leads_of_lexeme? (by decide) rfl
    have hs := (hn ⟨.dot, lit ".", p⟩ (by simp)).trans (follow_eq_ok_iff.2 .dot)
    have hend : Completes ⟨n :: forms, [], .opening⟩ (p.advance (lit ".")) [] :=
      ⟨[], _, _, .done, rfl, rfl⟩
    rw [← List.append_nil (closing [])]
    exact .step hd hs hend
  | cons f fs ih =>
    have close {k : Kind} {u : Text} {n' : Node} (hk : k.Leads (u ++ closing fs) u (closing fs))
        (hf : Follows ⟨forms, f :: fs, point⟩ n k ⟨forms, fs, .done n'⟩) (hs : k ≠ .string) :
        Completes ⟨forms, f :: fs, point⟩ p (u ++ closing fs) :=
      .step hk ((hn ⟨k, u, p⟩ hs).trans (follow_eq_ok_iff.2 hf)) (ih (fun _ _ => rfl) _)
    have hlist : Kind.closeList.Leads (lit "]" ++ closing fs) (lit "]") (closing fs) :=
      Kind.leads_of_lexeme? (by decide) rfl
    obtain ⟨b, place, items⟩ := f
    rw [closing_cons]
    cases b with
    | tuple => exact close (Kind.leads_of_lexeme? (by decide) rfl) .closeTuple (by decide)
    | list => exact close hlist .closeList (by decide)
    | tail => exact close hlist .closeTail (by decide)

theorem completes_item {forms : List Node} {frames : List Frame} {point : Point}
    (hp : point = .opening ∨ point = .item) (p : Place) :
    Completes ⟨forms, frames, point⟩ p (lit "a" ++ closing frames) := by
  have ha : Atom.isName (lit "a") = true := rfl
  have hk : (Kind.literal .atom).Leads (lit "a" ++ closing frames) (lit "a") (closing frames) :=
    Kind.leads_of_lexeme? (by decide) (Lexeme.atom_append ha (stops_closing frames).name)
  exact .step hk (step_begins hp (.literal rfl)) (completes_closing (fun _ _ => rfl) _)

theorem completes_completion (r : Reading) (p : Place) : r.Completes p r.completion := by
  obtain ⟨forms, frames, point⟩ := r
  cases point with
  | opening => exact completes_item (.inl rfl) p
  | item => exact completes_item (.inr rfl) p
  | done n => exact completes_closing (fun _ _ => rfl) p
  | strings place texts =>
    exact completes_closing (n := .strings place texts.reverse)
      (fun t ht => by simp [step, ht]) p

end Reading

/-- What has been read can be gone on with, if the text does. -/
theorem Front.exists_parse {u x : Text} {ts : List Token} {r : Reading}
    (h : Front x .start u ts) (hx : x ≠ []) (hs : Reading.start.steps ts = .ok r) :
    ∃ w ns, parse (u ++ w) = .ok ns := by
  obtain ⟨more, r', ns, hm, hr, hf⟩ :=
    r.completes_completion ((Place.start.advance u).next .newline)
  have hl := h.lexed_newline hx (Lexed.newline_cons_iff.2 hm)
  exact ⟨.newline :: r.completion, ns,
    Reading.run_of_lexed hl ((Reading.steps_append hs more).trans hr) hf⟩

/-! ## Places -/

def Text.endPlace (u : Text) : Place :=
  ⟨u.count .newline + 1, (u.reverse.takeWhile (· ≠ .newline)).length + 1⟩

theorem Place.advance_start (u : Text) : start.advance u = u.endPlace := by
  induction u using List.reverseRecOn with
  | nil => rfl
  | append_singleton u c ih =>
    rw [advance_append, ih]
    by_cases hc : c = .newline
    · simp [Place.advance, Place.next, Text.endPlace, hc]
    · simp [Place.advance, Place.next, Text.endPlace, hc]

theorem Text.eq_nil_of_endPlace {u d : Text} (h : (u ++ d).endPlace = u.endPlace) : d = [] := by
  simp only [endPlace, Place.mk.injEq, List.count_append, List.reverse_append] at h
  have hd : CodePoint.newline ∉ d := by
    rw [← List.count_eq_zero]
    omega
  have hp : ∀ c ∈ d.reverse, decide (c ≠ .newline) = true := by
    intro c hc
    rw [decide_eq_true_eq]
    rintro rfl
    exact hd (List.mem_reverse.1 hc)
  rw [List.takeWhile_append_of_pos hp, List.length_append, List.length_reverse] at h
  exact List.length_eq_zero_iff.1 (by omega)

theorem Text.eq_of_endPlace {u u' v v' : Text} (hs : u ++ v = u' ++ v')
    (h : u'.endPlace = u.endPlace) : u' = u := by
  obtain ⟨as, rfl, -⟩ | ⟨bs, rfl, -⟩ := List.append_eq_append_iff.1 hs
  · rw [Text.eq_nil_of_endPlace h, List.append_nil]
  · rw [Text.eq_nil_of_endPlace h.symm, List.append_nil]

theorem scan_finds {allowed : List Kind} {s t rest : Text} {k : Kind}
    (h : scan allowed s = some (k, t, rest)) : s ≠ [] ∧ k ≠ .finish := by
  refine ⟨?_, ?_⟩
  · rintro rfl
    exact absurd (scan_length h) (Nat.not_lt_zero _)
  · rintro rfl
    cases (scan_eq_some h).2

/-- The error in a text is reported at the end of a front that the reader takes, with something
after it; if the text ends too early, that is the last token. -/
def ReadError.Located (s file : Text) (e : ReadError) : Prop :=
  ∃ report u x ts r, e.report? s file = some report ∧ s = u ++ x ∧ x ≠ [] ∧
    Front x .start u ts ∧ Reading.start.steps ts = .ok r ∧ report.place = u.endPlace ∧
    ∀ t expected, e = .unexpectedToken t expected → t.kind = .finish →
      ∃ last, Lexed .start s (ts ++ [last]) ∧ report.place = last.place

theorem located_of_parse {s : Text} {e : ReadError} (h : parse s = .error e) (file : Text) :
    e.Located s file := by
  obtain ⟨u, x, ts, r, rfl, hf, hs, hstuck⟩ := Reading.run_eq_error h
  have token {k : Kind} {t rest : Text} {allowed expected : List Kind}
      (hk : scan allowed x = some (k, t, rest)) :
      (ReadError.unexpectedToken ⟨k, t, Place.start.advance u⟩ expected).Located (u ++ x) file := by
    obtain ⟨hx, hn⟩ := scan_finds hk
    refine ⟨_, u, x, ts, r, rfl, rfl, hx, hf, hs, Place.advance_start u, fun _ _ he hfin => ?_⟩
    cases he
    exact absurd hfin hn
  cases hstuck with
  | ended he =>
    -- without any token the reader stands at its start, where a text may end
    obtain rfl | ⟨ts, l, rfl⟩ := List.eq_nil_or_concat' ts
    · cases hs
      cases he
    · obtain ⟨v, w, rfl, hv, hp, hw⟩ := hf.last
      obtain ⟨r₁, h₁, -⟩ := Reading.steps_append_eq_ok hs
      have hl : Reading.lastPlace .start (ts ++ [l]) = l.place := by simp [Reading.lastPlace]
      have hx : w ++ [] ≠ [] := by simpa using hw
      refine ⟨_, v, w ++ [], ts, r₁, rfl, List.append_assoc .., hx, hv, h₁, ?_, fun _ _ _ _ => ?_⟩
      · rw [← Place.advance_start, ← hp]
        exact hl
      · exact ⟨l, by simpa using hf.lexed .done, hl⟩
  | refused hk => exact token hk
  | unsought _ _ hk => exact token hk
  | stray =>
    refine ⟨_, u, _, ts, r, rfl, rfl, by simp, hf, hs, Place.advance_start u, fun _ _ he => ?_⟩
    cases he

/-- The error in a text that is not read is reported at a place of the text, and what stands before
that place is the start of a text that is read. If the text ends too early, the place is that of the
last token. -/
theorem parse_error_place (s file : Text) (e : ReadError) (h : parse s = .error e) :
    ∃ report u c v, e.report? s file = some report ∧ s = u ++ c :: v ∧
      report.place = u.endPlace ∧
      (∀ u' v', s = u' ++ v' → u'.endPlace = report.place → u' = u) ∧
      (∃ w trees, parse (u ++ w) = .ok trees) ∧
      ∀ t expected, e = .unexpectedToken t expected → t.kind = .finish →
        ∃ ts last, Lexed .start s (ts ++ [last]) ∧ report.place = last.place := by
  obtain ⟨report, u, x, ts, r, hr, rfl, hx, hf, hs, hp, hend⟩ :=
    located_of_parse h file
  obtain ⟨c, v, rfl⟩ := List.exists_cons_of_ne_nil hx
  refine ⟨report, u, c, v, hr, rfl, hp, fun u' v' hu he => ?_, hf.exists_parse hx hs,
    fun t expected he hk => ⟨ts, hend t expected he hk⟩⟩
  exact Text.eq_of_endPlace hu (he.trans hp)

def unfinished : Text := lit "% a comment\n\x7ba,\n $\\^"

theorem parse_unfinished :
    parse unfinished = .error (.unexpectedToken ⟨.finish, [], ⟨3, 2⟩⟩ Reading.followers) :=
  Attempt.reason?_eq_some.1 (by decide +kernel)

theorem parse_error_place_unfinished : ∃ e, parse unfinished = .error e ∧
    ∃ report u c v, e.report? unfinished SyntaxReport.noFile = some report ∧
      unfinished = u ++ c :: v ∧
      report.place = u.endPlace ∧
      (∀ u' v', unfinished = u' ++ v' → u'.endPlace = report.place → u' = u) ∧
      (∃ w trees, parse (u ++ w) = .ok trees) ∧
      ∀ t expected, e = .unexpectedToken t expected → t.kind = .finish →
        ∃ ts last, Lexed .start unfinished (ts ++ [last]) ∧ report.place = last.place :=
  ⟨_, parse_unfinished,
    parse_error_place unfinished SyntaxReport.noFile _ parse_unfinished⟩

end EnumForms
