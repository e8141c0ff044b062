import EnumForms.Proofs.Front

/-!
Places never decide what is read. A reading with its places moved, and with forms before its own,
takes the same tokens and comes to the same end, up to the places and the forms before.
-/
namespace EnumForms

variable (f : Place → Place) (old : List Node)

def Token.mapPlace (t : Token) : Token := { t with place := f t.place }

def ReadError.mapPlace : ReadError → ReadError
  | .unexpectedToken t expected => .unexpectedToken (t.mapPlace f) expected
  | .unexpectedCharacter c p => .unexpectedCharacter c (f p)
  | .defect p d => .defect (f p) d
  | .overlong l => .overlong l
  | .notOneCharacter => .notOneCharacter

namespace Node

mutual

def mapPlace : Node → Node
  | .literal l text p => .literal l text (f p)
  | .strings p texts => .strings (f p) texts
  | .tuple p items => .tuple (f p) (mapPlaces items)
  | .list p items => .list (f p) (mapPlaces items)
  | .listWithTail p items tail => .listWithTail (f p) (mapPlaces items) (mapPlace tail)

def mapPlaces : List Node → List Node
  | [] => []
  | n :: ns => mapPlace n :: mapPlaces ns

end

@[simp]
theorem mapPlaces_eq_map (ns : List Node) : mapPlaces f ns = ns.map (mapPlace f) := by
  induction ns with
  | nil => rfl
  | cons n ns ih => rw [mapPlaces, ih, List.map_cons]

end Node

/-! ## Values -/

theorem unquote_mapPlace (p : Place) (t : Text) :
    unquote (f p) t = (unquote p t).mapError (ReadError.mapPlace f) := by
  unfold unquote
  split <;> rfl

theorem Literal.value_mapPlace (p : Place) (t : Text) (l : Literal) :
    l.value (f p) t = (l.value p t).mapError (ReadError.mapPlace f) := by
  cases l with
  | atom | float => rfl
  | quotedAtom => rw [value, value, unquote_mapPlace, Attempt.mapError_map]
  | int =>
    simp only [value]
    split <;> rfl
  | basedInt =>
    rw [value, value, Attempt.mapError_map]
    congr 1
    simp only [BasedInt.read]
    split
    · rfl
    · split
      · split <;> rfl
      · rfl
  | char =>
    rw [value, value, Attempt.mapError_map]
    congr 1
    unfold charCode
    split <;> rfl

theorem joinStrings_mapPlace (p : Place) (ts : List Text) :
    joinStrings (f p) ts = (joinStrings p ts).mapError (ReadError.mapPlace f) := by
  induction ts with
  | nil => rfl
  | cons t ts ih =>
    simp only [joinStrings, unquote_mapPlace, ih, Attempt.mapError_bind]
    rfl

namespace Node

mutual

theorem value_mapPlace : ∀ n : Node,
    (n.mapPlace f).value = n.value.mapError (ReadError.mapPlace f)
  | .literal l text p => Literal.value_mapPlace f p text l
  | .strings p texts => by
    rw [mapPlace, value, value, joinStrings_mapPlace, Attempt.mapError_map]
  | .tuple p items => by
    rw [mapPlace, value, value, mapPlaces_eq_map, values_mapPlace items, Attempt.mapError_bind]
    rfl
  | .list p items => by
    rw [mapPlace, value, value, mapPlaces_eq_map, values_mapPlace items, Attempt.mapError_bind]
    rfl
  | .listWithTail p items tail => by
    rw [mapPlace, value, value, mapPlaces_eq_map, values_mapPlace items, value_mapPlace tail,
      Attempt.mapError_bind]
    simp only [Attempt.mapError_bind]
    congr 1
    funext ts
    congr 1
    funext t
    split <;> rfl

theorem values_mapPlace : ∀ ns : List Node,
    values (ns.map (mapPlace f)) = (values ns).mapError (ReadError.mapPlace f)
  | [] => rfl
  | n :: ns => by
    rw [List.map_cons, values, values, value_mapPlace n, values_mapPlace ns]
    simp only [Attempt.mapError_bind]
    rfl

end

end Node

/-! ## Readings -/

def Frame.mapPlace (fr : Frame) : Frame :=
  { fr with place := f fr.place, items := fr.items.map (Node.mapPlace f) }

def Point.mapPlace : Point → Point
  | .opening => .opening
  | .item => .item
  | .done n => .done (n.mapPlace f)
  | .strings p texts => .strings (f p) texts

namespace Reading

def mapPlace (r : Reading) : Reading :=
  ⟨r.forms.map (Node.mapPlace f) ++ old, r.frames.map (Frame.mapPlace f), r.point.mapPlace f⟩

theorem accepts_mapPlace (r : Reading) : (r.mapPlace f old).accepts = r.accepts := by
  obtain ⟨forms, frames, point⟩ := r
  cases point <;> cases frames <;> rfl

theorem begin_mapPlace (r : Reading) (t : Token) :
    (r.mapPlace f old).begin (t.mapPlace f) = (r.begin t).map (mapPlace f old) := by
  have ha : (.error (r.mapPlace f old).accepts : Except (List Kind) Reading) =
      (Except.error r.accepts).map (mapPlace f old) := congrArg _ (accepts_mapPlace f old r)
  obtain ⟨forms, frames, point⟩ := r
  obtain ⟨k, text, p⟩ := t
  cases k with
  | literal | string | openTuple | openList => rfl
  | closeTuple | closeList =>
    cases point with
    | opening =>
      rcases frames with - | ⟨⟨b, p', items⟩, frames⟩
      · exact ha
      · cases b <;> cases items <;> first | exact ha | rfl
    | _ => exact ha
  | _ => exact ha

theorem follow_mapPlace (r : Reading) (n : Node) (k : Kind) :
    (r.mapPlace f old).follow (n.mapPlace f) k = (r.follow n k).map (mapPlace f old) := by
  obtain ⟨forms, frames, point⟩ := r
  cases frames with
  | nil =>
    simp only [follow, mapPlace, List.map_nil]
    split <;> rfl
  | cons fr frames =>
    obtain ⟨b, p, items⟩ := fr
    simp only [follow, mapPlace, List.map_cons, Frame.mapPlace, List.map_eq_nil_iff, ne_eq]
    split
    · rfl
    · split <;> simp [Except.map, mapPlace, complete, Point.mapPlace, Node.mapPlace, Frame.mapPlace]

theorem step_mapPlace (r : Reading) (t : Token) :
    (r.mapPlace f old).step (t.mapPlace f) = (r.step t).map (mapPlace f old) := by
  obtain ⟨forms, frames, point⟩ := r
  cases point with
  | opening => exact begin_mapPlace f old ⟨forms, frames, .opening⟩ t
  | item => exact begin_mapPlace f old ⟨forms, frames, .item⟩ t
  | done n => exact follow_mapPlace f old ⟨forms, frames, .done n⟩ n t.kind
  | strings p texts =>
    have hf := follow_mapPlace f old ⟨forms, frames, .strings p texts⟩
      (.strings p texts.reverse) t.kind
    by_cases hk : t.kind = .string
    · simp [step, mapPlace, Point.mapPlace, Token.mapPlace, hk, Except.map]
    · simpa [step, mapPlace, Point.mapPlace, Token.mapPlace, Node.mapPlace, hk] using hf

theorem steps_mapPlace (r : Reading) (ts : List Token) :
    (r.mapPlace f old).steps (ts.map (Token.mapPlace f)) = (r.steps ts).map (mapPlace f old) := by
  induction ts generalizing r with
  | nil => rfl
  | cons t ts ih =>
    rw [List.map_cons, steps, steps, step_mapPlace]
    cases r.step t with
    | ok r' => exact ih r'
    | error e => rfl

theorem finish_mapPlace (r : Reading) :
    (r.mapPlace f old).finish =
      r.finish.map fun ns => old.reverse ++ ns.map (Node.mapPlace f) := by
  have ha := accepts_mapPlace f old r
  obtain ⟨forms, frames, point⟩ := r
  cases point <;> cases frames <;> simp_all [finish, mapPlace, Point.mapPlace, Except.map]

theorem Stuck.mapPlace {r : Reading} {last here : Place} {s : Text} {e : ReadError}
    (h : r.Stuck last here s e) :
    (r.mapPlace f old).Stuck (f last) (f here) s (e.mapPlace f) := by
  cases h with
  | ended hf => exact .ended (by rw [finish_mapPlace, hf]; rfl)
  | refused hk hs =>
    refine .refused ((accepts_mapPlace f old r).symm ▸ hk) ?_
    exact (step_mapPlace f old r ⟨_, _, here⟩).trans (by rw [hs]; rfl)
  | unsought hl hn hk =>
    have hu : (r.mapPlace f old).Stuck (f last) (f here) s _ :=
      .unsought hl ((accepts_mapPlace f old r).symm ▸ hn) hk
    rwa [accepts_mapPlace] at hu
  | stray hl hn => exact .stray hl hn

/-- A run from other places, which move on as the places do. -/
theorem run_mapPlace (hf : ∀ p c, f (p.next c) = (f p).next c) (r : Reading) (last here : Place)
    (s : Text) :
    (r.mapPlace f old).run (f last) (f here) s =
      ((r.run last here s).map fun ns => old.reverse ++ ns.map (Node.mapPlace f)).mapError
        (ReadError.mapPlace f) := by
  have hadvance (t : Text) (p : Place) : f (p.advance t) = (f p).advance t := by
    induction t generalizing p with
    | nil => rfl
    | cons c t ih => exact (ih _).trans (congrArg (Place.advance · t) (hf p c))
  fun_induction run r last here s with
  | case1 r last here ns hn =>
    rw [run, finish_mapPlace, hn]
    rfl
  | case2 r last here expected hn => exact run_of_stuck (.mapPlace f old (.ended hn))
  | case3 r last here c s t rest hl _ ih => rw [run_layout hl, ← hadvance, ih]
  | case4 r last here c s hl k t rest hk _ r₁ h₁ ih =>
    have hstep : (r.mapPlace f old).step ⟨k, t, f here⟩ = .ok (r₁.mapPlace f old) :=
      (step_mapPlace f old r ⟨k, t, here⟩).trans (by rw [h₁]; rfl)
    rw [run_token (scan_leads r.uniform_accepts hk) hstep, ← hadvance, ih]
  | case5 r last here c s hl k t rest hk _ expected h₁ =>
    exact run_of_stuck (.mapPlace f old (.refused hk h₁))
  | case6 r last here c s hl hn k t rest hk =>
    exact run_of_stuck (.mapPlace f old (.unsought hl hn hk))
  | case7 r last here c s hl hn hk => exact run_of_stuck (.mapPlace f old (.stray hl hk))

end Reading

end EnumForms
