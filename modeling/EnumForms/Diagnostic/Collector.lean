import EnumForms.Diagnostic

/-!
Diagnostics as they come up, in two channels. A channel gives its diagnostics out in the order in
which they were recorded, and is empty afterwards.
-/
namespace EnumForms

structure Collector where
  errors : List Diagnostic
  warnings : List Diagnostic

namespace Collector

def empty : Collector := ⟨[], []⟩

def held (c : Collector) : Severity → List Diagnostic
  | .error => c.errors
  | .warning => c.warnings

def hasErrors (c : Collector) : Bool := !c.errors.isEmpty
def hasWarnings (c : Collector) : Bool := !c.warnings.isEmpty
def isValid (c : Collector) : Bool := !c.hasErrors

/-- Adds a diagnostic to a channel, to its own if none is given. -/
def record (c : Collector) (d : Diagnostic) (channel : Option Severity) : Collector :=
  match channel.getD d.severity with
  | .error => { c with errors := c.errors ++ [d] }
  | .warning => { c with warnings := c.warnings ++ [d] }

def drain (c : Collector) : Severity → List Diagnostic × Collector
  | .error => (c.errors, { c with errors := [] })
  | .warning => (c.warnings, { c with warnings := [] })

def block (heading : Text) (ds : List Diagnostic) : Except MessageError (List Text) :=
  if ds = [] then .ok []
  else do
    let lines ← ds.mapM (Diagnostic.line [])
    .ok (heading :: lines)

def text (c : Collector) : Except MessageError Text := do
  let errors ← block (lit "=== ERROS ===") c.errors
  let warnings ← block (lit "=== AVISOS ===") c.warnings
  .ok (Text.join (lit "\n") (errors ++ warnings))

theorem held_record (c : Collector) (d : Diagnostic) (channel : Option Severity) (s : Severity) :
    (c.record d channel).held s = if channel.getD d.severity = s then c.held s ++ [d] else c.held s := by
  cases h : channel.getD d.severity <;> cases s <;> simp [record, held, h]

theorem drain_fst (c : Collector) (s : Severity) : (c.drain s).1 = c.held s := by
  cases s <;> rfl

theorem held_drain (c : Collector) (s t : Severity) :
    (c.drain s).2.held t = if s = t then [] else c.held t := by
  cases s <;> cases t <;> rfl

end Collector

end EnumForms
