import EnumForms.Proofs.Local

/-!
Where reading stops. Up to there the text is cut into tokens that the reader takes, and the cut
stays as it is if a line feed takes the place of what comes later.
-/
namespace EnumForms

/-- The front of a text with these tokens in it; `x` is what comes after it. -/
inductive Front (x : Text) : Place → Text → List Token → Prop where
  | nil {p : Place} : Front x p [] []
  | layout {p : Place} {t u : Text} {ts : List Token} :
      Lexeme.layout (t ++ (u ++ x)) = some (t, u ++ x) → Front x (p.advance t) u ts →
      Front x p (t ++ u) ts
  | token {p : Place} {k : Kind} {t u : Text} {ts : List Token} :
      k.Leads (t ++ (u ++ x)) t (u ++ x) → Front x (p.advance t) u ts →
      Front x p (t ++ u) (⟨k, t, p⟩ :: ts)

namespace Lexed

variable {p : Place} {s t q x y : Text} {ts : List Token}

theorem append_iff_of_layout {u : Text} (hu : ∀ c ∈ u, c.isLayout = true) :
    Lexed p (u ++ s) ts ↔ Lexed (p.advance u) s ts := by
  rw [← dropWhile_iff, ← dropWhile_iff (p := p.advance u), List.takeWhile_append_of_pos hu,
    List.dropWhile_append_of_pos hu, Place.advance_append]

theorem layout_newline (h : Lexeme.layout (t ++ (q ++ x)) = some (t, q ++ x))
    (hr : Lexed (p.advance t) (q ++ .newline :: y) ts) :
    Lexed p (t ++ (q ++ .newline :: y)) ts := by
  obtain hw | ⟨-, hc⟩ := Option.or_eq_some_iff.1 h
  · exact (append_iff_of_layout fun _ => Lexeme.of_mem_run hw).2 hr
  · obtain ⟨-, -, -, -, hq⟩ := Lexeme.comment_eq_some_iff.1 hc
    refine .layout (Lexeme.layout_comment hc fun d hd => ?_) hr
    cases q with
    | nil => exact (Option.some.inj hd).symm
    | cons e q => exact hq d hd

end Lexed

namespace Front

variable {p : Place} {u x : Text} {ts : List Token}

theorem lexed (h : Front x p u ts) {more : List Token} (hm : Lexed (p.advance u) x more) :
    Lexed p (u ++ x) (ts ++ more) := by
  induction h with
  | nil => exact hm
  | layout hl _ ih =>
    rw [Place.advance_append] at hm
    rw [List.append_assoc]
    exact .layout hl (ih hm)
  | token hk _ ih =>
    rw [Place.advance_append] at hm
    rw [List.append_assoc]
    exact .token hk (ih hm)

theorem lexed_newline (h : Front x p u ts) (hx : x ≠ []) {y : Text} {more : List Token}
    (hm : Lexed (p.advance u) (.newline :: y) more) :
    Lexed p (u ++ .newline :: y) (ts ++ more) := by
  induction h with
  | nil => exact hm
  | layout hl _ ih =>
    rw [Place.advance_append] at hm
    rw [List.append_assoc]
    exact Lexed.layout_newline hl (ih hm)
  | token hk _ ih =>
    rw [Place.advance_append] at hm
    rw [List.append_assoc]
    exact .token (hk.before (by decide) (by simp [hx]) y) (ih hm)

theorem last {l : Token} (h : Front x p u (ts ++ [l])) :
    ∃ v w, u = v ++ w ∧ Front (w ++ x) p v ts ∧ l.place = p.advance v ∧ w ≠ [] := by
  generalize hts : ts ++ [l] = us at h
  induction h generalizing ts with
  | nil => simp at hts
  | @layout p t u us hl _ ih =>
    obtain ⟨v, w, rfl, hf, hp, hw⟩ := ih hts
    refine ⟨t ++ v, w, (List.append_assoc ..).symm, .layout ?_ hf, ?_, hw⟩
    · rwa [← List.append_assoc v]
    · rw [hp, Place.advance_append]
  | @token p k t u us hk hf ih =>
    cases ts with
    | nil =>
      obtain ⟨rfl, rfl⟩ := List.cons_eq_cons.1 hts
      refine ⟨[], t ++ u, rfl, .nil, rfl, fun hn => ?_⟩
      exact k.finds_lexeme? _ _ _ hk.1 (List.append_eq_nil_iff.1 hn).1
    | cons t' ts =>
      obtain ⟨rfl, hus⟩ := List.cons_eq_cons.1 hts
      obtain ⟨v, w, rfl, hf, hp, hw⟩ := ih hus
      refine ⟨t ++ v, w, (List.append_assoc ..).symm, .token ?_ hf, ?_, hw⟩
      · rwa [← List.append_assoc v]
      · rw [hp, Place.advance_append]

end Front

namespace Reading

theorem steps_append_eq_ok {r r' : Reading} {us vs : List Token} (h : r.steps (us ++ vs) = .ok r') :
    ∃ r₁, r.steps us = .ok r₁ ∧ r₁.steps vs = .ok r' := by
  induction us generalizing r with
  | nil => exact ⟨r, rfl, h⟩
  | cons u us ih =>
    obtain ⟨r₁, h₁, h⟩ := Attempt.bind_eq_ok.1 h
    obtain ⟨r₂, h₂, h⟩ := ih h
    exact ⟨r₂, (steps_cons h₁ us).trans h₂, h⟩

/-- How reading ends in an error: with the last token at the one place and the rest of the text at
the other. -/
inductive Stuck (r : Reading) (last here : Place) : Text → ReadError → Prop where
  | ended {expected : List Kind} : r.finish = .error expected →
      Stuck r last here [] (.unexpectedToken ⟨.finish, [], last⟩ expected)
  | refused {k : Kind} {s t rest : Text} {expected : List Kind} :
      scan r.accepts s = some (k, t, rest) → r.step ⟨k, t, here⟩ = .error expected →
      Stuck r last here s (.unexpectedToken ⟨k, t, here⟩ expected)
  | unsought {k : Kind} {s t rest : Text} : Lexeme.layout s = none → scan r.accepts s = none →
      scan Kind.all s = some (k, t, rest) →
      Stuck r last here s (.unexpectedToken ⟨k, t, here⟩ (r.accepts.filter (· ≠ .finish)))
  | stray {c : CodePoint} {s : Text} : Lexeme.layout (c :: s) = none →
      scan Kind.all (c :: s) = none → Stuck r last here (c :: s) (.unexpectedCharacter c here)

theorem run_of_stuck {r : Reading} {last here : Place} {s : Text} {e : ReadError}
    (h : r.Stuck last here s e) : r.run last here s = .error e := by
  cases h with
  | ended hf => rw [run, hf]
  | refused hk hs =>
    cases s with
    | nil => exact absurd (scan_length hk) (Nat.not_lt_zero _)
    | cons c s =>
      rw [run]
      split
      · next hl => cases (scan_leads r.uniform_accepts hk).layout_eq_none.symm.trans hl
      · split
        · next hk' => cases hk.symm.trans hk'; rw [hs]
        · next hn => cases hk.symm.trans hn
  | unsought hl hn hk =>
    cases s with
    | nil => exact absurd (scan_length hk) (Nat.not_lt_zero _)
    | cons c s =>
      rw [run]
      split
      · next hl' => cases hl.symm.trans hl'
      · split
        · next hk' => cases hn.symm.trans hk'
        · rw [hk]
  | @stray c s hl hn =>
    have hsought : scan r.accepts (c :: s) = none := by
      refine Option.eq_none_iff_forall_ne_some.2 fun ⟨k, t, q⟩ hk => ?_
      have hall := (scan_eq_some_iff fun _ _ k' _ => Kind.mem_all k').2
        ⟨Kind.mem_all k, scan_leads r.uniform_accepts hk⟩
      cases hn.symm.trans hall
    rw [run]
    split
    · next hl' => cases hl.symm.trans hl'
    · split
      · next hk' => cases hsought.symm.trans hk'
      · rw [hn]

def lastPlace (p : Place) (ts : List Token) : Place := ts.foldl (fun _ t => t.place) p

/-- Reading that fails takes the tokens of a front of the text and is stuck after it. -/
theorem run_eq_error {r : Reading} {last here : Place} {s : Text} {e : ReadError}
    (h : r.run last here s = .error e) :
    ∃ u x ts r', s = u ++ x ∧ Front x here u ts ∧ r.steps ts = .ok r' ∧
      r'.Stuck (lastPlace last ts) (here.advance u) x e := by
  fun_induction run r last here s with
  | case1 => cases h
  | case2 r last here expected hf =>
    cases h
    exact ⟨[], [], [], r, rfl, .nil, rfl, .ended hf⟩
  | case3 r last here c s t rest hl _ ih =>
    obtain ⟨u, x, ts, r', rfl, hf, hs, hk⟩ := ih h
    have hc := Lexeme.cuts_layout _ _ _ hl
    rw [hc] at hl
    rw [← Place.advance_append] at hk
    exact ⟨t ++ u, x, ts, r', by rw [hc, List.append_assoc], .layout hl hf, hs, hk⟩
  | case4 r last here c s hl k t rest hk _ r₁ h₁ ih =>
    obtain ⟨u, x, ts, r', rfl, hf, hs, hst⟩ := ih h
    have hlead := scan_leads r.uniform_accepts hk
    have hc := k.cuts_lexeme? _ _ _ hlead.1
    rw [hc] at hlead
    rw [← Place.advance_append] at hst
    exact ⟨t ++ u, x, ⟨k, t, here⟩ :: ts, r', by rw [hc, List.append_assoc], .token hlead hf,
      (steps_cons h₁ ts).trans hs, hst⟩
  | case5 r last here c s hl k t rest hk _ expected h₁ =>
    cases h
    exact ⟨[], _, [], r, rfl, .nil, rfl, .refused hk h₁⟩
  | case6 r last here c s hl hn k t rest hk =>
    cases h
    exact ⟨[], _, [], r, rfl, .nil, rfl, .unsought hl hn hk⟩
  | case7 r last here c s hl hn hk =>
    cases h
    exact ⟨[], _, [], r, rfl, .nil, rfl, .stray hl hk⟩

end Reading

end EnumForms
