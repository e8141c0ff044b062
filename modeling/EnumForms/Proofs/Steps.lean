import EnumForms.Attempt
import EnumForms.Proofs.Scan

/-!
Reading as two passes: a text is first cut into tokens, and the reader then takes the tokens one by
one. The kinds it looks for on the way never change the cut.
-/
namespace EnumForms.Reading

theorem mem_sorted {k : Kind} {ks : List Kind} : k ∈ sorted ks ↔ k ∈ ks := by
  simp [sorted, Kind.mem_all]

theorem uniform_accepts (r : Reading) : Uniform r.accepts := by
  unfold accepts
  split
  · decide
  · split <;> decide
  · decide
  · decide
  · decide

inductive Begins : Reading → Token → Reading → Prop where
  | literal {r : Reading} {t : Token} {l : Literal} : t.kind = .literal l →
      Begins r t (r.complete r.frames (.literal l t.text t.place))
  | string {r : Reading} {t : Token} : t.kind = .string →
      Begins r t { r with point := .strings t.place [t.text] }
  | openTuple {r : Reading} {t : Token} : t.kind = .openTuple →
      Begins r t { r with frames := ⟨.tuple, t.place, []⟩ :: r.frames, point := .opening }
  | openList {r : Reading} {t : Token} : t.kind = .openList →
      Begins r t { r with frames := ⟨.list, t.place, []⟩ :: r.frames, point := .opening }
  | closeTuple {t : Token} {forms : List Node} {place : Place} {fs : List Frame} :
      t.kind = .closeTuple →
      Begins ⟨forms, ⟨.tuple, place, []⟩ :: fs, .opening⟩ t ⟨forms, fs, .done (.tuple place [])⟩
  | closeList {t : Token} {forms : List Node} {place : Place} {fs : List Frame} :
      t.kind = .closeList →
      Begins ⟨forms, ⟨.list, place, []⟩ :: fs, .opening⟩ t ⟨forms, fs, .done (.list place [])⟩

inductive Follows : Reading → Node → Kind → Reading → Prop where
  | dot {forms : List Node} {p : Point} {n : Node} :
      Follows ⟨forms, [], p⟩ n .dot ⟨n :: forms, [], .opening⟩
  | comma {forms : List Node} {f : Frame} {fs : List Frame} {p : Point} {n : Node} :
      f.bracket ≠ .tail →
      Follows ⟨forms, f :: fs, p⟩ n .comma ⟨forms, { f with items := n :: f.items } :: fs, .item⟩
  | closeTuple {forms items : List Node} {place : Place} {fs : List Frame} {p : Point} {n : Node} :
      Follows ⟨forms, ⟨.tuple, place, items⟩ :: fs, p⟩ n .closeTuple
        ⟨forms, fs, .done (.tuple place (n :: items).reverse)⟩
  | closeList {forms items : List Node} {place : Place} {fs : List Frame} {p : Point} {n : Node} :
      Follows ⟨forms, ⟨.list, place, items⟩ :: fs, p⟩ n .closeList
        ⟨forms, fs, .done (.list place (n :: items).reverse)⟩
  | bar {forms items : List Node} {place : Place} {fs : List Frame} {p : Point} {n : Node} :
      Follows ⟨forms, ⟨.list, place, items⟩ :: fs, p⟩ n .bar
        ⟨forms, ⟨.tail, place, n :: items⟩ :: fs, .item⟩
  | closeTail {forms items : List Node} {place : Place} {fs : List Frame} {p : Point} {n : Node} :
      Follows ⟨forms, ⟨.tail, place, items⟩ :: fs, p⟩ n .closeList
        ⟨forms, fs, .done (.listWithTail place items.reverse n)⟩

theorem begin_eq_ok_iff {r r' : Reading} {t : Token} : r.begin t = .ok r' ↔ Begins r t r' := by
  constructor
  · intro h
    obtain ⟨forms, frames, point⟩ := r
    unfold begin at h
    split at h
    · cases h; exact .literal ‹_›
    · cases h; exact .string ‹_›
    · cases h; exact .openTuple ‹_›
    · cases h; exact .openList ‹_›
    · next hk hp hf => cases hp; cases hf; cases h; exact .closeTuple hk
    · next hk hp hf => cases hp; cases hf; cases h; exact .closeList hk
    · cases h
  · intro h
    cases h <;> simp_all [begin, complete]

theorem follow_eq_ok_iff {r r' : Reading} {n : Node} {k : Kind} :
    r.follow n k = .ok r' ↔ Follows r n k r' := by
  constructor
  · intro h
    obtain ⟨forms, frames, point⟩ := r
    cases frames with
    | nil =>
      simp only [follow] at h
      split at h
      · next hk => subst hk; cases h; exact .dot
      · cases h
    | cons f fs =>
      obtain ⟨b, place, items⟩ := f
      simp only [follow] at h
      split at h
      · cases h
      · split at h
        · cases h; exact .comma (by simp)
        · cases h; exact .comma (by simp)
        · cases h; exact .closeTuple
        · cases h; exact .closeList
        · cases h; exact .bar
        · cases h; exact .closeTail
        · cases h
  · intro h
    cases h with
    | @comma forms f fs p n hb =>
      obtain ⟨b, place, items⟩ := f
      cases b with
      | tail => exact absurd rfl hb
      | _ => simp [follow, separators]
    | _ => simp [follow, separators, complete]

theorem step_opening {r : Reading} {t : Token} (h : r.point = .opening ∨ r.point = .item) :
    r.step t = r.begin t := by
  rcases h with h | h <;> simp [step, h]

theorem mem_accepts_of_step {r r' : Reading} {t : Token} (h : r.step t = .ok r') :
    t.kind ∈ r.accepts := by
  have following {n : Node} {k : Kind} (hf : r.follow n k = .ok r') : k ∈ followers := by
    cases follow_eq_ok_iff.1 hf <;> simp [followers]
  have beginning {p : Point} (hr : r.point = p) (hp : p = .opening ∨ p = .item)
      (hb : r.begin t = .ok r') : t.kind ∈ r.accepts := by
    have hs (hk : t.kind ∈ starts) : t.kind ∈ r.accepts := by
      rcases hp with rfl | rfl
      · cases hf : r.frames <;> simp [accepts, hr, hf, mem_sorted, hk]
      · simpa [accepts, hr] using hk
    cases begin_eq_ok_iff.1 hb with
    | @literal _ _ l hk => exact hs (by rw [hk]; cases l <;> decide)
    | string hk => exact hs (by rw [hk]; decide)
    | openTuple hk => exact hs (by rw [hk]; decide)
    | openList hk => exact hs (by rw [hk]; decide)
    | closeTuple hk => simp [accepts, hk, mem_sorted]
    | closeList hk => simp [accepts, hk, mem_sorted]
  unfold step at h
  split at h
  · next hp => exact beginning hp (.inl rfl) h
  · next hp => exact beginning hp (.inr rfl) h
  · next hp => simpa [accepts, hp] using following h
  · next hp =>
    split at h
    · next hk => simp [accepts, hp, hk, mem_sorted]
    · simp [accepts, hp, mem_sorted, following h]

def steps (r : Reading) : List Token → Except (List Kind) Reading
  | [] => .ok r
  | t :: ts => do
    let r ← r.step t
    r.steps ts

theorem steps_cons {r r' : Reading} {t : Token} (h : r.step t = .ok r') (ts : List Token) :
    r.steps (t :: ts) = r'.steps ts := by
  simp [steps, h]

theorem steps_append {r r' : Reading} {us : List Token} (h : r.steps us = .ok r')
    (vs : List Token) : r.steps (us ++ vs) = r'.steps vs := by
  induction us generalizing r with
  | nil => cases h; rfl
  | cons u us ih =>
    obtain ⟨r₁, h₁, hs⟩ := Attempt.bind_eq_ok.1 h
    rw [List.cons_append, steps_cons h₁, ih hs]

theorem run_lexed {r : Reading} {last here : Place} {s : Text} {ns : List Node}
    (h : r.run last here s = .ok ns) :
    ∃ ts r', Lexed here s ts ∧ r.steps ts = .ok r' ∧ r'.finish = .ok ns := by
  fun_induction run r last here s with
  | case1 r last here ns' hn => cases h; exact ⟨[], r, .done, rfl, hn⟩
  | case2 => cases h
  | case3 r last here c s t rest hl _ ih =>
    obtain ⟨ts, r', hx, hs, hf⟩ := ih h
    exact ⟨ts, r', .layout hl hx, hs, hf⟩
  | case4 r last here c s hl k t rest hk _ r₁ h₁ ih =>
    obtain ⟨ts, r', hx, hs, hf⟩ := ih h
    refine ⟨⟨k, t, here⟩ :: ts, r', .token (scan_leads r.uniform_accepts hk) hx, ?_, hf⟩
    rw [steps_cons h₁, hs]
  | case5 => cases h
  | case6 => cases h
  | case7 => cases h

/-! ## One turn of the run -/

section Run

variable {r r' : Reading} {last here : Place} {s t q : Text} {k : Kind}

theorem run_layout (h : Lexeme.layout s = some (t, q)) :
    r.run last here s = r.run last (here.advance t) q := by
  cases s with
  | nil => cases h
  | cons c s =>
    rw [run]
    split
    · next h' => cases h.symm.trans h'; rfl
    · next hn => cases h.symm.trans hn

theorem run_token (h : k.Leads s t q) (hs : r.step ⟨k, t, here⟩ = .ok r') :
    r.run last here s = r'.run here (here.advance t) q := by
  have ha : scan r.accepts s = some (k, t, q) :=
    (scan_eq_some_iff r.uniform_accepts).2 ⟨mem_accepts_of_step hs, h⟩
  cases s with
  | nil => exact absurd (scan_length ha) (Nat.not_lt_zero _)
  | cons c s =>
    rw [run]
    split
    · next hl => cases h.layout_eq_none.symm.trans hl
    · split
      · next ha' => cases ha.symm.trans ha'; rw [hs]
      · next hn => cases ha.symm.trans hn

end Run

theorem run_of_lexed {r r' : Reading} {last here : Place} {s : Text} {ts : List Token}
    {ns : List Node} (hx : Lexed here s ts) (hs : r.steps ts = .ok r') (hf : r'.finish = .ok ns) :
    r.run last here s = .ok ns := by
  induction hx generalizing r last with
  | done =>
    cases hs
    rw [run, hf]
  | layout hl hx ih => rw [run_layout hl, ih hs]
  | token hk hx ih =>
    obtain ⟨r₁, h₁, hs⟩ := Attempt.bind_eq_ok.1 hs
    rw [run_token hk h₁, ih hs]

/-- Cutting a text while reading it is cutting it first. -/
theorem run_eq_ok_iff {r : Reading} {last here : Place} {s : Text} {ns : List Node} :
    r.run last here s = .ok ns ↔
      ∃ ts r', Lexed here s ts ∧ r.steps ts = .ok r' ∧ r'.finish = .ok ns :=
  ⟨run_lexed, fun ⟨_, _, hx, hs, hf⟩ => run_of_lexed hx hs hf⟩

end EnumForms.Reading
