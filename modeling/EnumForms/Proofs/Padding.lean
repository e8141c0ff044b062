import EnumForms.Proofs.Concatenation

/-!
More layout between the tokens of a text. The tokens stay the same but for their places, and so do
the terms.
-/
namespace EnumForms

/-- White space, and comments each closed by a line feed. -/
inductive Filling : Text → Prop where
  | nil : Filling []
  | space {c : CodePoint} {w : Text} : c.isLayout = true → Filling w → Filling (c :: w)
  | comment {u w : Text} : (∀ c ∈ u, c ≠ .newline) → Filling w →
      Filling (.ofChar '%' :: u ++ .newline :: w)

/-- The second text is the first one with fillings put before and after its tokens. -/
inductive Padded : Text → Text → Prop where
  | done : Padded [] []
  | layout {s t r r' : Text} : Lexeme.layout s = some (t, r) → Padded r r' → Padded s (t ++ r')
  | token {s t r r' v w : Text} {k : Kind} : k.Leads s t r → Filling v → Filling w →
      Padded r r' → Padded s (v ++ (t ++ (w ++ r')))

def SameUpToLayout (s s' : Text) : Prop :=
  s' = s ∨ ∃ q x c y, s = q ++ x ∧ s' = q ++ c :: y ∧ c ∈ CodePoint.layoutStarts

theorem CodePoint.mem_layoutStarts_of_isLayout {c : CodePoint} (h : c.isLayout = true) :
    c ∈ layoutStarts := by
  simp only [isLayout, Bool.or_eq_true, beq_iff_eq] at h
  obtain ⟨n, hn⟩ := c
  rcases h with (((rfl | rfl) | rfl) | rfl) | rfl <;> decide +revert

namespace Filling

variable {w : Text}

theorem head_mem (h : Filling w) : ∀ c ∈ w.head?, c ∈ CodePoint.layoutStarts := by
  cases h with
  | nil => simp
  | space hc => simpa using CodePoint.mem_layoutStarts_of_isLayout hc
  | comment =>
    rintro d ⟨⟩
    decide

theorem lexed (h : Filling w) {p : Place} {s : Text} {ts : List Token}
    (hx : Lexed (p.advance w) s ts) : Lexed p (w ++ s) ts := by
  induction h generalizing p with
  | nil => exact hx
  | @space c w hc _ ih =>
    exact (Lexed.append_iff_of_layout (u := [c]) (by simpa using hc)).2 (ih hx)
  | @comment u w hu _ ih =>
    have hc : Lexeme.comment (.ofChar '%' :: u ++ .newline :: (w ++ s)) =
        some (.ofChar '%' :: u, .newline :: (w ++ s)) :=
      Lexeme.comment_eq_some_iff.2 ⟨u, rfl, rfl, hu, by simp⟩
    rw [Place.advance_append] at hx
    rw [List.append_assoc]
    exact .layout (Lexeme.layout_comment hc (by simp)) (Lexed.newline_cons_iff.2 (ih hx))

end Filling

namespace SameUpToLayout

variable {r r' t w : Text}

theorem append (h : SameUpToLayout r r') (t : Text) : SameUpToLayout (t ++ r) (t ++ r') := by
  obtain rfl | ⟨q, x, c, y, rfl, rfl, hc⟩ := h
  · exact .inl rfl
  · exact .inr ⟨t ++ q, x, c, y, (List.append_assoc ..).symm, (List.append_assoc ..).symm, hc⟩

theorem filling (h : SameUpToLayout r r') (hw : Filling w) : SameUpToLayout r (w ++ r') := by
  cases w with
  | nil => exact h
  | cons c w => exact .inr ⟨[], r, c, w ++ r', rfl, rfl, hw.head_mem c rfl⟩

theorem leads {k : Kind} (h : SameUpToLayout r r') (hk : k.Leads (t ++ r) t r)
    (hd : r = [] → k = .dot) : k.Leads (t ++ r') t r' := by
  obtain rfl | ⟨q, x, c, y, rfl, rfl, hc⟩ := h
  · exact hk
  · exact hk.before_of_dot hc hd y

end SameUpToLayout

namespace Padded

variable {s s' : Text}

theorem sameUpToLayout (h : Padded s s') : SameUpToLayout s s' := by
  induction h with
  | done => exact .inl rfl
  | @layout s t r r' hl _ ih =>
    rw [Lexeme.cuts_layout _ _ _ hl]
    exact ih.append t
  | @token s t r r' v w k hk hv hw _ ih =>
    rw [k.cuts_lexeme? _ _ _ hk.1]
    exact ((ih.filling hw).append t).filling hv

theorem head?_newline (h : Padded s s') (hs : ∀ d ∈ s.head?, d = .newline) :
    ∀ d ∈ s'.head?, d = .newline := by
  cases h with
  | done => simp
  | @layout _ t r r' hl _ =>
    rw [Lexeme.cuts_layout _ _ _ hl] at hs
    cases t with
    | nil => exact absurd rfl (Lexeme.finds_layout _ _ _ hl)
    | cons d t => exact hs
  | @token _ t r r' v w k hk _ _ _ =>
    have hc := k.cuts_lexeme? _ _ _ hk.1
    cases t with
    | nil => exact absurd rfl (k.finds_lexeme? _ _ _ hk.1)
    | cons d t =>
      -- no token starts with a line feed
      rw [hc] at hs hk
      obtain rfl := hs d rfl
      cases (Kind.family_of_lexeme? hk.1)

/-- The tokens of a padded text are the same but for their places. -/
theorem lexed (h : Padded s s') {p : Place} {us : List Token} (hx : Lexed p s us) (hd : Closed us)
    (f : Place → Place) (hf : ∀ p q, f p = f q) (p' : Place) :
    ∃ vs, Lexed p' s' vs ∧ vs.map (Token.mapPlace f) = us.map (Token.mapPlace f) := by
  induction h generalizing p p' us with
  | done =>
    obtain rfl := hx.eq_nil
    exact ⟨[], .done, rfl⟩
  | @layout s t r r' hl hr ih =>
    obtain ⟨vs, hv, he⟩ := ih ((Lexed.iff_of_layout hl).1 hx) hd (p'.advance t)
    refine ⟨vs, ?_, he⟩
    obtain hw | ⟨-, hc⟩ := Option.or_eq_some_iff.1 hl
    · exact (Lexed.append_iff_of_layout fun c => Lexeme.of_mem_run hw).2 hv
    · obtain ⟨-, -, -, -, hq⟩ := Lexeme.comment_eq_some_iff.1 hc
      exact .layout (Lexeme.layout_comment hc (hr.head?_newline hq)) hv
  | @token s t r r' v w k hk hv hw hr ih =>
    obtain ⟨more, rfl, hmore⟩ := (Lexed.iff_of_leads hk).1 hx
    obtain ⟨vs, hvs, he⟩ := ih hmore hd.of_cons (((p'.advance v).advance t).advance w)
    have hdot : r = [] → k = .dot := by
      rintro rfl
      obtain rfl := hmore.eq_nil
      exact hd ⟨k, t, p⟩ rfl
    rw [k.cuts_lexeme? _ _ _ hk.1] at hk
    have hk' := (hr.sameUpToLayout.filling hw).leads hk hdot
    refine ⟨⟨k, t, p'.advance v⟩ :: vs, hv.lexed (.token hk' (hw.lexed hvs)), ?_⟩
    rw [List.map_cons, List.map_cons, he, Token.mapPlace, Token.mapPlace, hf (p'.advance v) p]

end Padded

theorem readTerms_of_lexed {s : Text} {us vs : List Token} {ns : List Node} {ts : List Term}
    {f : Place → Place} (hx : Lexed .start s vs)
    (he : vs.map (Token.mapPlace f) = us.map (Token.mapPlace f)) (hd : Derives .start us ns)
    (hv : Node.values ns = .ok ts) : readTerms s = .ok ts := by
  obtain ⟨r, hr, hf⟩ := Reading.steps_iff_derives.2 hd
  have hs := Reading.steps_mapPlace f [] .start vs
  rw [he, Reading.steps_mapPlace, hr] at hs
  obtain ⟨r', hr', he⟩ := Attempt.map_eq_ok.1 hs.symm
  have hfin := Reading.finish_mapPlace f [] r'
  rw [he, Reading.finish_mapPlace, hf] at hfin
  obtain ⟨ns', hf', hn⟩ := Attempt.map_eq_ok.1 hfin.symm
  have hval := Node.values_mapPlace f ns'
  rw [show ns'.map (Node.mapPlace f) = ns.map (Node.mapPlace f) from hn, Node.values_mapPlace, hv]
    at hval
  have hd' := Reading.steps_iff_derives.1 ⟨r', hr', hf'⟩
  exact Attempt.bind_eq_ok.2 ⟨ns', parse_eq_ok_iff.2 ⟨vs, hx, hd'⟩, Attempt.mapError_eq_ok.1 hval.symm⟩

/-- Layout put before or after any of the tokens of a text, white space or closed comments, changes
none of its terms. -/
theorem readTerms_padded (s s' : Text) (ts : List Term) (h : readTerms s = .ok ts)
    (hp : Padded s s') : readTerms s' = .ok ts := by
  obtain ⟨ns, hparse, hv⟩ := Attempt.bind_eq_ok.1 h
  obtain ⟨us, hx, hd⟩ := parse_eq_ok_iff.1 hparse
  obtain ⟨vs, hvs, he⟩ := hp.lexed hx hd.closed (fun _ => .start) (fun _ _ => rfl) .start
  exact readTerms_of_lexed hvs he hd hv

def tight : Text := lit "\"a\"\"b\".$\\x.1."

def spread : Text := lit "\"a\"%c\n\"b\"\t.$\\x%\n.1 .\n"

theorem padded_tight : Padded tight spread := by
  have token {r r' w : Text} (hr : Padded r r') (k : Kind) (t : Text) (hw : Filling w)
      (h : scan Kind.all (t ++ r) = some (k, t, r)) : Padded (t ++ r) (t ++ (w ++ r')) :=
    .token (scan_leads (fun _ _ k' _ => Kind.mem_all k') h) .nil hw hr
  have comment (u : Text) (hu : ∀ c ∈ u, c ≠ .newline) : Filling (.ofChar '%' :: u ++ [.newline]) :=
    .comment hu .nil
  have blank (c : CodePoint) (hc : c.isLayout = true) : Filling [c] := .space hc .nil
  have end₃ := token .done .dot (lit ".") (blank .newline rfl) (by decide)
  have form₃ := token end₃ (.literal .int) (lit "1") (blank .space rfl) (by decide)
  have end₂ := token form₃ .dot (lit ".") .nil (by decide)
  have form₂ := token end₂ (.literal .char) (lit "$\\x") (comment [] (by decide)) (by decide)
  have end₁ := token form₂ .dot (lit ".") .nil (by decide)
  have more₁ := token end₁ .string (lit "\"b\"") (blank ⟨0x09, by decide⟩ rfl) (by decide)
  have form₁ := token more₁ .string (lit "\"a\"") (comment (lit "c") (by decide)) (by decide)
  exact (congrArg₂ Padded (by decide) (by decide)).mp form₁

theorem readTerms_padded_tight : Padded tight spread ∧
    ∃ ts, readTerms tight = .ok ts ∧ readTerms spread = .ok ts := by
  have hs : (readTerms tight).toOption.isSome = true := by decide +kernel
  obtain ⟨ts, ht⟩ := Option.isSome_iff_exists.1 hs
  have hok := Attempt.toOption_eq_some.1 ht
  exact ⟨padded_tight, ts, hok, readTerms_padded tight spread ts hok padded_tight⟩

end EnumForms
