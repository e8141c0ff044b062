import EnumForms.Proofs.Steps

/-!
The grammar of forms, and the reader against it: the reader takes a sequence of tokens if the
grammar derives it, and returns the trees of that derivation.
-/
namespace EnumForms

inductive Symbol where
  | start | form | term | tuple | list | tail
  | terms

/-- A symbol derives these tokens, with the trees of the terms in it. There is a constructor for
each alternative of the grammar. -/
inductive Derives : Symbol → List Token → List Node → Prop where
  | noForm : Derives .start [] []
  | forms {u v : List Token} {n : Node} {ns : List Node} :
      Derives .form u [n] → Derives .start v ns → Derives .start (u ++ v) (n :: ns)
  | form {u : List Token} {n : Node} {d : Token} :
      Derives .term u [n] → d.kind = .dot → Derives .form (u ++ [d]) [n]
  | literal {t : Token} {l : Literal} : t.kind = .literal l →
      Derives .term [t] [.literal l t.text t.place]
  | strings {t : Token} {ts : List Token} : (∀ x ∈ t :: ts, x.kind = .string) →
      Derives .term (t :: ts) [.strings t.place ((t :: ts).map (·.text))]
  | ofTuple {u : List Token} {n : Node} : Derives .tuple u [n] → Derives .term u [n]
  | ofList {u : List Token} {n : Node} : Derives .list u [n] → Derives .term u [n]
  | emptyTuple {o c : Token} : o.kind = .openTuple → c.kind = .closeTuple →
      Derives .tuple [o, c] [.tuple o.place []]
  | tuple {o c : Token} {u : List Token} {ns : List Node} :
      o.kind = .openTuple → Derives .terms u ns → c.kind = .closeTuple →
      Derives .tuple (o :: u ++ [c]) [.tuple o.place ns]
  | emptyList {o c : Token} : o.kind = .openList → c.kind = .closeList →
      Derives .list [o, c] [.list o.place []]
  | list {o c : Token} {u : List Token} {ns : List Node} :
      o.kind = .openList → Derives .terms u ns → c.kind = .closeList →
      Derives .list (o :: u ++ [c]) [.list o.place ns]
  | listWithTail {o c : Token} {u v : List Token} {ns : List Node} {n : Node} :
      o.kind = .openList → Derives .terms u ns → Derives .tail v [n] → c.kind = .closeList →
      Derives .list (o :: u ++ v ++ [c]) [.listWithTail o.place ns n]
  | tail {b : Token} {u : List Token} {n : Node} :
      b.kind = .bar → Derives .term u [n] → Derives .tail (b :: u) [n]
  | one {u : List Token} {n : Node} : Derives .term u [n] → Derives .terms u [n]
  | more {u v : List Token} {c : Token} {n : Node} {ns : List Node} :
      Derives .term u [n] → c.kind = .comma → Derives .terms v ns →
      Derives .terms (u ++ c :: v) (n :: ns)

namespace Derives

theorem start_append {u v : List Token} {ns : List Node} {n : Node} (h : Derives .start u ns)
    (hv : Derives .form v [n]) : Derives .start (u ++ v) (ns ++ [n]) := by
  generalize hs : Symbol.start = s at h
  induction h with
  | noForm => simpa using forms hv noForm
  | forms hf _ _ ih => simpa using forms hf (ih rfl)
  | _ => cases hs

end Derives

/-! ## What the reader takes is derived -/

namespace Reading

inductive Listed : List Token → List Node → Prop where
  | nil : Listed [] []
  | snoc {u v : List Token} {ns : List Node} {n : Node} {c : Token} :
      Listed u ns → Derives .term v [n] → c.kind = .comma → Listed (u ++ v ++ [c]) (ns ++ [n])

theorem Listed.terms {u v : List Token} {ns ms : List Node} (h : Listed u ns)
    (hv : Derives .terms v ms) : Derives .terms (u ++ v) (ns ++ ms) := by
  induction h generalizing v ms with
  | nil => exact hv
  | snoc _ hn hc ih => simpa using ih (.more hn hc hv)

theorem Listed.eq_nil {u : List Token} {ns : List Node} (h : Listed u ns) (hn : ns = []) :
    u = [] := by
  cases h with
  | nil => rfl
  | snoc => simp at hn

inductive Opened : List Token → List Frame → Prop where
  | nil : Opened [] []
  | tuple {u v : List Token} {o : Token} {fs : List Frame} {items : List Node} :
      Opened u fs → o.kind = .openTuple → Listed v items.reverse →
      Opened (u ++ o :: v) (⟨.tuple, o.place, items⟩ :: fs)
  | list {u v : List Token} {o : Token} {fs : List Frame} {items : List Node} :
      Opened u fs → o.kind = .openList → Listed v items.reverse →
      Opened (u ++ o :: v) (⟨.list, o.place, items⟩ :: fs)
  | tail {u v : List Token} {o b : Token} {fs : List Frame} {items : List Node} :
      Opened u fs → o.kind = .openList → Derives .terms v items.reverse → b.kind = .bar →
      Opened (u ++ o :: v ++ [b]) (⟨.tail, o.place, items⟩ :: fs)

inductive Pending : List Token → Point → Prop where
  | opening : Pending [] .opening
  | item : Pending [] .item
  | done {w : List Token} {n : Node} : Derives .term w [n] → Pending w (.done n)
  | strings {t : Token} {ts : List Token} : (∀ x ∈ t :: ts, x.kind = .string) →
      Pending (t :: ts) (.strings t.place ((t :: ts).map (·.text)).reverse)

/-- The tokens read so far: complete forms, then the open brackets, then what has been read of the
term the reader is at. -/
def Reads (us : List Token) (r : Reading) : Prop :=
  ∃ u v w, us = u ++ v ++ w ∧
    Derives .start u r.forms.reverse ∧ Opened v r.frames ∧ Pending w r.point

theorem reads_begins {u v : List Token} {r r' : Reading} {t : Token}
    (hs : Derives .start u r.forms.reverse) (hv : Opened v r.frames) (hb : Begins r t r') :
    Reads (u ++ v ++ [t]) r' := by
  cases hb with
  | literal hk => exact ⟨u, v, [t], rfl, hs, hv, .done (.literal hk)⟩
  | string hk => exact ⟨u, v, [t], rfl, hs, hv, .strings (by simpa using hk)⟩
  | openTuple hk => exact ⟨u, v ++ [t], [], by simp, hs, .tuple hv hk .nil, .opening⟩
  | openList hk => exact ⟨u, v ++ [t], [], by simp, hs, .list hv hk .nil, .opening⟩
  | closeTuple hk =>
    cases hv with
    | @tuple v₀ x o _ _ ho ht hx =>
      obtain rfl := hx.eq_nil rfl
      exact ⟨u, v₀, [o, t], by simp, hs, ho, .done (.ofTuple (.emptyTuple ht hk))⟩
  | closeList hk =>
    cases hv with
    | @list v₀ x o _ _ ho ht hx =>
      obtain rfl := hx.eq_nil rfl
      exact ⟨u, v₀, [o, t], by simp, hs, ho, .done (.ofList (.emptyList ht hk))⟩

theorem reads_follows {u v w : List Token} {r r' : Reading} {n : Node} {t : Token}
    (hs : Derives .start u r.forms.reverse) (hv : Opened v r.frames) (hw : Derives .term w [n])
    {k : Kind} (hk : t.kind = k) (hf : Follows r n k r') : Reads (u ++ v ++ w ++ [t]) r' := by
  cases hf with
  | dot =>
    cases hv
    have hd := hs.start_append (.form hw hk)
    exact ⟨u ++ (w ++ [t]), [], [], by simp, by simpa using hd, .nil, .opening⟩
  | comma hb =>
    cases hv with
    | @tuple v₀ x o _ _ ho ht hx =>
      have hx' := hx.snoc hw hk
      exact ⟨u, v₀ ++ o :: (x ++ w ++ [t]), [], by simp, hs, .tuple ho ht (by simpa using hx'),
        .item⟩
    | @list v₀ x o _ _ ho ht hx =>
      have hx' := hx.snoc hw hk
      exact ⟨u, v₀ ++ o :: (x ++ w ++ [t]), [], by simp, hs, .list ho ht (by simpa using hx'),
        .item⟩
    | tail => exact absurd rfl hb
  | closeTuple =>
    cases hv with
    | @tuple v₀ x o _ _ ho ht hx =>
      have hx' := hx.terms (.one hw)
      exact ⟨u, v₀, o :: (x ++ w) ++ [t], by simp, hs, ho,
        .done (.ofTuple (.tuple ht (by simpa using hx') hk))⟩
  | closeList =>
    cases hv with
    | @list v₀ x o _ _ ho ht hx =>
      have hx' := hx.terms (.one hw)
      exact ⟨u, v₀, o :: (x ++ w) ++ [t], by simp, hs, ho,
        .done (.ofList (.list ht (by simpa using hx') hk))⟩
  | bar =>
    cases hv with
    | @list v₀ x o _ _ ho ht hx =>
      have hx' := hx.terms (.one hw)
      exact ⟨u, v₀ ++ o :: (x ++ w) ++ [t], [], by simp, hs,
        .tail ho ht (by simpa using hx') hk, .item⟩
  | closeTail =>
    cases hv with
    | @tail v₀ x o b _ _ ho ht hx hb =>
      exact ⟨u, v₀, o :: x ++ b :: w ++ [t], by simp, hs, ho,
        .done (.ofList (.listWithTail ht hx (.tail hb hw) hk))⟩

theorem reads_step {us : List Token} {r r' : Reading} {t : Token} (h : Reads us r)
    (hr : r.step t = .ok r') : Reads (us ++ [t]) r' := by
  obtain ⟨u, v, w, rfl, hs, hv, hw⟩ := h
  obtain ⟨forms, frames, point⟩ := r
  -- where the reader stands says whether the token begins a term, follows one, or is one more string
  cases hw with
  | opening =>
    rw [List.append_nil]
    exact reads_begins hs hv (begin_eq_ok_iff.1 hr)
  | item =>
    rw [List.append_nil]
    exact reads_begins hs hv (begin_eq_ok_iff.1 hr)
  | done hn => exact reads_follows hs hv hn rfl (follow_eq_ok_iff.1 hr)
  | @strings t₀ ts hk =>
    simp only [step] at hr
    split at hr
    · next ht =>
      cases hr
      refine ⟨u, v, t₀ :: (ts ++ [t]), by simp, hs, hv, ?_⟩
      have hall : ∀ x ∈ t₀ :: (ts ++ [t]), x.kind = .string := by
        intro x hx
        rw [← List.cons_append, List.mem_append, List.mem_singleton] at hx
        rcases hx with hx | rfl
        · exact hk x hx
        · exact ht
      simpa using Pending.strings hall
    · exact reads_follows hs hv (.strings hk) rfl (follow_eq_ok_iff.1 (by simpa using hr))

theorem reads_steps {us ts : List Token} {r r' : Reading} (h : Reads us r)
    (hr : r.steps ts = .ok r') : Reads (us ++ ts) r' := by
  induction ts generalizing us r with
  | nil => cases hr; simpa using h
  | cons t ts ih =>
    obtain ⟨r₁, h₁, hs⟩ := Attempt.bind_eq_ok.1 hr
    simpa using ih (reads_step h h₁) hs

theorem reads_start : Reads [] start := ⟨[], [], [], rfl, .noForm, .nil, .opening⟩

theorem derives_of_steps {ts : List Token} {r : Reading} {ns : List Node}
    (hr : start.steps ts = .ok r) (hf : r.finish = .ok ns) : Derives .start ts ns := by
  obtain ⟨u, v, w, hts, hs, hv, hw⟩ := reads_steps reads_start hr
  obtain ⟨forms, frames, point⟩ := r
  unfold finish at hf
  split at hf
  · next hp hq =>
    cases hp
    cases hq
    cases hf
    cases hv
    cases hw
    simp only [List.nil_append, List.append_nil] at hts
    exact hts ▸ hs
  · cases hf

/-! ## What is derived is taken -/

def after : Node → Point
  | .strings place texts => .strings place texts.reverse
  | n => .done n

theorem step_begins {forms : List Node} {frames : List Frame} {p : Point} {t : Token}
    {r' : Reading} (hp : p = .opening ∨ p = .item) (hb : Begins ⟨forms, frames, p⟩ t r') :
    step ⟨forms, frames, p⟩ t = .ok r' := by
  rw [step_opening hp]
  exact begin_eq_ok_iff.2 hb

theorem step_follows {forms : List Node} {frames : List Frame} {n : Node} {t : Token} {k : Kind}
    {r' : Reading} (hk : t.kind = k) (hs : k ≠ .string)
    (hf : Follows ⟨forms, frames, after n⟩ n k r') :
    step ⟨forms, frames, after n⟩ t = .ok r' := by
  have hr := follow_eq_ok_iff.2 hf
  subst hk
  cases n with
  | strings place texts => simpa [step, after, hs] using hr
  | _ => exact hr

theorem steps_strings {forms : List Node} {frames : List Frame} {place : Place} {texts : List Text}
    {ts : List Token} (h : ∀ x ∈ ts, x.kind = .string) :
    steps ⟨forms, frames, .strings place texts⟩ ts =
      .ok ⟨forms, frames, .strings place ((ts.map (·.text)).reverse ++ texts)⟩ := by
  induction ts generalizing texts with
  | nil => rfl
  | cons t ts ih =>
    have ht := h t (by simp)
    have hi := @ih (t.text :: texts) fun x hx => h x (List.mem_cons_of_mem t hx)
    simp [steps, step, ht, hi]

def Takes : Symbol → List Token → List Node → Prop
  | .start, u, ns => ∀ forms,
    steps ⟨forms, [], .opening⟩ u = .ok ⟨ns.reverse ++ forms, [], .opening⟩
  | .form, u, ns => ∀ forms,
    steps ⟨forms, [], .opening⟩ u = .ok ⟨ns ++ forms, [], .opening⟩
  | .terms, u, ns => ∀ forms b place items fs p, b ≠ .tail → (p = .opening ∨ p = .item) →
    ∃ init last, ns = init ++ [last] ∧ steps ⟨forms, ⟨b, place, items⟩ :: fs, p⟩ u =
      .ok ⟨forms, ⟨b, place, init.reverse ++ items⟩ :: fs, after last⟩
  | .tail, u, ns => ∀ forms place items fs m n, ns = [n] →
    steps ⟨forms, ⟨.list, place, items⟩ :: fs, after m⟩ u =
      .ok ⟨forms, ⟨.tail, place, m :: items⟩ :: fs, after n⟩
  | _, u, ns => ∀ forms frames p n, ns = [n] → (p = .opening ∨ p = .item) →
    steps ⟨forms, frames, p⟩ u = .ok ⟨forms, frames, after n⟩

theorem takes_of_derives {s : Symbol} {u : List Token} {ns : List Node} (h : Derives s u ns) :
    Takes s u ns := by
  -- each constructor hands its tokens to the reader piece by piece; after strings the reader
  -- still waits for more of them, so a term ends where `after` says and not always at `done`
  induction h with
  | noForm => intro forms; rfl
  | @forms u v n ns _ _ ihu ihv =>
    intro forms
    rw [steps_append (ihu forms), ihv]
    simp
  | @form u n d _ hd ih =>
    intro forms
    rw [steps_append (ih forms [] .opening n rfl (.inl rfl)),
      steps_cons (step_follows hd (by decide) .dot)]
    rfl
  | literal hk =>
    intro forms frames p n hn hp
    cases hn
    rw [steps_cons (step_begins hp (.literal hk))]
    rfl
  | @strings t ts hk =>
    intro forms frames p n hn hp
    cases hn
    have hs : ∀ x ∈ ts, x.kind = .string := fun x hx => hk x (List.mem_cons_of_mem t hx)
    rw [steps_cons (step_begins hp (.string (hk t (by simp)))), steps_strings hs]
    simp [after]
  | ofTuple _ ih => exact ih
  | ofList _ ih => exact ih
  | emptyTuple ho hc =>
    intro forms frames p n hn hp
    cases hn
    rw [steps_cons (step_begins hp (.openTuple ho)),
      steps_cons (step_begins (.inl rfl) (.closeTuple hc))]
    rfl
  | @tuple o c u ns ho _ hc ih =>
    intro forms frames p n hn hp
    cases hn
    obtain ⟨init, last, rfl, hu⟩ := ih forms .tuple o.place [] frames .opening (by decide) (.inl rfl)
    rw [List.cons_append, steps_cons (step_begins hp (.openTuple ho)), steps_append hu,
      steps_cons (step_follows hc (by decide) .closeTuple)]
    simp [steps, after]
  | emptyList ho hc =>
    intro forms frames p n hn hp
    cases hn
    rw [steps_cons (step_begins hp (.openList ho)),
      steps_cons (step_begins (.inl rfl) (.closeList hc))]
    rfl
  | @list o c u ns ho _ hc ih =>
    intro forms frames p n hn hp
    cases hn
    obtain ⟨init, last, rfl, hu⟩ := ih forms .list o.place [] frames .opening (by decide) (.inl rfl)
    rw [List.cons_append, steps_cons (step_begins hp (.openList ho)), steps_append hu,
      steps_cons (step_follows hc (by decide) .closeList)]
    simp [steps, after]
  | @listWithTail o c u v ns n ho _ _ hc ihu ihv =>
    intro forms frames p n' hn hp
    cases hn
    obtain ⟨init, last, rfl, hu⟩ := ihu forms .list o.place [] frames .opening (by decide) (.inl rfl)
    rw [List.cons_append, List.cons_append, List.append_assoc,
      steps_cons (step_begins hp (.openList ho)), steps_append hu,
      steps_append (ihv _ _ _ _ _ n rfl), steps_cons (step_follows hc (by decide) .closeTail)]
    simp [steps, after]
  | @tail b u n hb _ ih =>
    intro forms place items fs m n' hn
    cases hn
    rw [steps_cons (step_follows hb (by decide) .bar)]
    exact ih forms _ .item n rfl (.inr rfl)
  | @one u n _ ih =>
    intro forms b place items fs p hb hp
    exact ⟨[], n, rfl, ih forms _ p n rfl hp⟩
  | @more u v c n ns _ hc _ ihu ihv =>
    intro forms b place items fs p hb hp
    obtain ⟨init, last, rfl, hv⟩ := ihv forms b place (n :: items) fs .item hb (.inr rfl)
    refine ⟨n :: init, last, rfl, ?_⟩
    rw [steps_append (ihu forms _ p n rfl hp), steps_cons (step_follows hc (by decide) (.comma hb)),
      hv]
    simp

end Reading

/-- The reader takes the tokens that the grammar derives, and no others, and returns the trees of
the derivation. -/
theorem Reading.steps_iff_derives {ts : List Token} {ns : List Node} :
    (∃ r, Reading.start.steps ts = .ok r ∧ r.finish = .ok ns) ↔ Derives .start ts ns := by
  constructor
  · rintro ⟨r, hr, hf⟩
    exact derives_of_steps hr hf
  · intro h
    refine ⟨_, takes_of_derives h [], ?_⟩
    simp [finish]

theorem parse_eq_ok_iff {s : Text} {ns : List Node} :
    parse s = .ok ns ↔ ∃ ts, Lexed .start s ts ∧ Derives .start ts ns := by
  rw [parse, Reading.run_eq_ok_iff]
  constructor
  · rintro ⟨ts, r, hx, hr, hf⟩
    exact ⟨ts, hx, Reading.steps_iff_derives.1 ⟨r, hr, hf⟩⟩
  · rintro ⟨ts, hx, hd⟩
    obtain ⟨r, hr, hf⟩ := Reading.steps_iff_derives.2 hd
    exact ⟨ts, r, hx, hr, hf⟩

/-- A text is read as these terms if and only if it can be cut into tokens, the tokens are derived
by the grammar, and every term of the derivation has a value; the terms read are the values. -/
theorem readTerms_eq_ok_iff (s : Text) (ts : List Term) :
    readTerms s = .ok ts ↔
      ∃ tokens trees, Lexed .start s tokens ∧ Derives .start tokens trees ∧
        Node.values trees = .ok ts := by
  rw [readTerms, Attempt.bind_eq_ok]
  constructor
  · rintro ⟨trees, hp, hv⟩
    obtain ⟨tokens, hx, hd⟩ := parse_eq_ok_iff.1 hp
    exact ⟨tokens, trees, hx, hd, hv⟩
  · rintro ⟨tokens, trees, hx, hd, hv⟩
    exact ⟨trees, parse_eq_ok_iff.2 ⟨tokens, hx, hd⟩, hv⟩

end EnumForms
