import EnumForms.Diagnostic.Collector
import Mathlib.Data.List.DropRight

/-!
A collector in use. Whatever is recorded and drained, and in whatever order, what the drains of a channel
give out and what the channel holds in the end are together what was recorded into it, once each and in
order. What a channel holds was recorded after its last drain.
-/
namespace EnumForms.Collector

inductive Step where
  | record (d : Diagnostic) (channel : Option Severity)
  | drain (channel : Severity)

namespace Step

def channel : Step → Severity
  | record d channel => channel.getD d.severity
  | drain channel => channel

def recorded (s : Severity) : Step → List Diagnostic
  | record d channel => if channel.getD d.severity = s then [d] else []
  | drain _ => []

def drains (s : Severity) : Step → Bool
  | record .. => false
  | drain channel => channel = s

end Step

def after (c : Collector) : Step → Collector
  | .record d channel => c.record d channel
  | .drain channel => (c.drain channel).2

def run (c : Collector) (steps : List Step) : Collector := steps.foldl after c

def given (s : Severity) (c : Collector) : Step → List (List Diagnostic)
  | .record .. => []
  | .drain channel => if channel = s then [(c.drain channel).1] else []

/-- What the drains of a channel give out, one after the other. -/
def drained (s : Severity) (c : Collector) : List Step → List (List Diagnostic)
  | [] => []
  | x :: steps => c.given s x ++ drained s (c.after x) steps

/-- What is recorded into a channel after its last drain. -/
def undrained (s : Severity) (steps : List Step) : List Diagnostic :=
  (steps.rtakeWhile fun x => !x.drains s).flatMap (Step.recorded s)

variable {s : Severity} {c : Collector} {x : Step} {steps : List Step}

/-! ## One step -/

theorem held_after (s : Severity) (c : Collector) (x : Step) :
    (c.after x).held s = if x.drains s then [] else c.held s ++ x.recorded s := by
  cases x with
  | record d channel =>
    rw [after, held_record, Step.drains, Step.recorded]
    split <;> simp
  | drain channel =>
    rw [after, held_drain, Step.drains, Step.recorded]
    split <;> simp_all

/-- A step moves diagnostics from the channel to what is given out, and adds what it records. -/
theorem given_append_held (s : Severity) (c : Collector) (x : Step) :
    (c.given s x).flatten ++ (c.after x).held s = c.held s ++ x.recorded s := by
  rw [held_after]
  cases x with
  | record d channel => rfl
  | drain channel =>
    rw [given, drain_fst, Step.drains, Step.recorded]
    by_cases h : channel = s <;> simp [h]

theorem Step.not_drains_of_channel_ne (h : x.channel ≠ s) : x.drains s = false := by
  cases x with
  | record d channel => rfl
  | drain channel => exact decide_eq_false h

theorem Step.recorded_of_channel_ne (h : x.channel ≠ s) : x.recorded s = [] := by
  cases x with
  | record d channel => exact if_neg h
  | drain channel => rfl

theorem held_after_of_channel_ne (h : x.channel ≠ s) : (c.after x).held s = c.held s := by
  rw [held_after, Step.not_drains_of_channel_ne h, Step.recorded_of_channel_ne h]
  simp

theorem given_of_channel_ne (h : x.channel ≠ s) : c.given s x = [] := by
  cases x with
  | record d channel => rfl
  | drain channel => exact if_neg h

/-! ## Many steps -/

theorem drained_append_held (s : Severity) (c : Collector) (steps : List Step) :
    (drained s c steps).flatten ++ (c.run steps).held s =
      c.held s ++ steps.flatMap (Step.recorded s) := by
  induction steps generalizing c with
  | nil => simp [drained, run]
  | cons x steps ih =>
    calc (drained s c (x :: steps)).flatten ++ (c.run (x :: steps)).held s
        = (c.given s x).flatten ++ ((drained s (c.after x) steps).flatten ++
            ((c.after x).run steps).held s) := by simp [drained, run]
      _ = (c.given s x).flatten ++ (c.after x).held s ++ steps.flatMap (Step.recorded s) := by
        rw [ih, List.append_assoc]
      _ = c.held s ++ (x :: steps).flatMap (Step.recorded s) := by
        rw [given_append_held, List.flatMap_cons, List.append_assoc]

theorem held_run_empty (s : Severity) (steps : List Step) :
    (empty.run steps).held s = undrained s steps := by
  induction steps using List.reverseRecOn with
  | nil => cases s <;> rfl
  | append_singleton steps x ih =>
    have hrun : empty.run (steps ++ [x]) = (empty.run steps).after x := by simp [run]
    rw [hrun, held_after, ih, undrained, undrained]
    by_cases h : x.drains s = true
    · rw [if_pos h, List.rtakeWhile_concat_neg _ _ _ (by simp [h])]
      rfl
    · rw [if_neg h, List.rtakeWhile_concat_pos _ _ _ (by simp [h])]
      simp

theorem drained_append (s : Severity) (c : Collector) (steps more : List Step) :
    drained s c (steps ++ more) = drained s c steps ++ drained s (c.run steps) more := by
  induction steps generalizing c with
  | nil => rfl
  | cons x steps ih =>
    rw [List.cons_append, drained, drained, ih, List.append_assoc]
    rfl

theorem drained_append_drain (s : Severity) (steps : List Step) :
    drained s empty (steps ++ [.drain s]) = drained s empty steps ++ [undrained s steps] := by
  rw [drained_append, drained, drained, List.append_nil, given, if_pos rfl, drain_fst,
    held_run_empty]

/-- Nothing that is recorded is lost, doubled or put out of order. After any steps on a collector that
was empty, what a channel gave out and what it holds are what was recorded into it; it holds what was not
drained, and only a step on the channel changes it. -/
theorem run_conserves (steps : List Step) :
    (∀ s, (drained s empty steps).flatten ++ (empty.run steps).held s =
      steps.flatMap (Step.recorded s)) ∧
    (∀ s, (empty.run steps).held s = undrained s steps) ∧
    (∀ s, drained s empty (steps ++ [.drain s]) = drained s empty steps ++ [undrained s steps]) ∧
    (∀ x s, x.channel ≠ s →
      ((empty.run steps).after x).held s = (empty.run steps).held s ∧
        drained s empty (steps ++ [x]) = drained s empty steps) ∧
    (empty.run steps).hasErrors = !(undrained .error steps).isEmpty ∧
    (empty.run steps).hasWarnings = !(undrained .warning steps).isEmpty ∧
    (empty.run steps).isValid = (undrained .error steps).isEmpty := by
  have herrors : (empty.run steps).errors = undrained .error steps := held_run_empty .error steps
  have hwarnings : (empty.run steps).warnings = undrained .warning steps :=
    held_run_empty .warning steps
  refine ⟨fun s => ?_, fun s => held_run_empty s steps, fun s => drained_append_drain s steps,
    fun x s hx => ⟨held_after_of_channel_ne hx, ?_⟩, ?_, ?_, ?_⟩
  · rw [drained_append_held]
    cases s <;> rfl
  · rw [drained_append, drained, drained, List.append_nil, given_of_channel_ne hx, List.append_nil]
  · rw [hasErrors, herrors]
  · rw [hasWarnings, hwarnings]
  · rw [isValid, hasErrors, herrors, Bool.not_not]

/-- Warnings at two lines, the first of them also as an error, with drains in between. -/
def interleaved : List Step :=
  [.record (.malformed (.line 1)) none, .record (.malformed (.line 1)) (some .error),
    .drain .warning, .record (.duplicate (.line 2) (lit "a")) none, .drain .error,
    .record (.malformed (.line 1)) (some .warning)]

theorem run_conserves_interleaved :
    Step.channel (.record (.malformed (.line 1)) none) ≠ .error ∧
    drained .warning empty interleaved = [[.malformed (.line 1)]] ∧
    (drained .warning empty interleaved).flatten ++ (empty.run interleaved).held .warning =
      [.malformed (.line 1), .duplicate (.line 2) (lit "a"), .malformed (.line 1)] ∧
    (empty.run interleaved).held .warning =
      [.duplicate (.line 2) (lit "a"), .malformed (.line 1)] ∧
    ((empty.run interleaved).after (.record (.malformed (.line 1)) none)).held .error = [] ∧
    (empty.run interleaved).isValid = true := by
  obtain ⟨hall, hheld, -, hother, -, -, hvalid⟩ := run_conserves interleaved
  have hne : Step.channel (.record (.malformed (.line 1)) none) ≠ .error := by decide
  refine ⟨hne, rfl, (hall .warning).trans rfl, (hheld .warning).trans rfl,
    ((hother _ _ hne).1.trans (hheld _)).trans rfl, ?_⟩
  rw [hvalid]
  rfl

end EnumForms.Collector
