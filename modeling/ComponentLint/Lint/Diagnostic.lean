import ComponentLint.Text.Position

/-! What rules report. A diagnostic speaks of the linted script; a failure speaks of the document that
the script stands in. -/
namespace ComponentLint

inductive Severity where
  | error
  | warning
deriving DecidableEq, Repr, Inhabited

namespace Severity

def name : Severity → String
  | error => "error"
  | warning => "warning"

end Severity

structure Edit where
  span : Span
  new : Text
deriving DecidableEq, Repr, Inhabited

/-- Edits that are applied together or not at all. -/
structure Fix where
  message : String
  edits : List Edit
deriving DecidableEq, Repr, Inhabited

namespace Fix

def single (message : String) (span : Span) (new : Text) : Fix := ⟨message, [⟨span, new⟩]⟩

/-- From the least start to the greatest stop of the edits. -/
def range (f : Fix) : Span :=
  match f.edits with
  | [] => ⟨0, 0⟩
  | e :: rest =>
    ⟨rest.foldl (fun least e => min least e.span.start) e.span.start,
      rest.foldl (fun greatest e => max greatest e.span.stop) e.span.stop⟩

end Fix

structure Diagnostic where
  rule : String
  severity : Severity
  message : String
  span : Span
  help : Option String := none
  fix : Option Fix := none
deriving DecidableEq, Repr, Inhabited

namespace Diagnostic

def syntaxRule : String := "syntax"

def isSyntax (d : Diagnostic) : Bool := d.rule = syntaxRule

end Diagnostic

/-- A finding placed in the document that it is reported against. -/
structure Failure where
  rule : String
  severity : Severity
  message : String
  help : Option String
  span : Span
  first : Position
  last : Position
  fixable : Bool
deriving DecidableEq, Repr, Inhabited

namespace Failure

def internalRule : String := "internal"

/-- Places a diagnostic of a script that stands at byte `offset` of `document`. -/
def ofDiagnostic (document : Text) (offset : Nat) (d : Diagnostic) : Failure where
  rule := d.rule
  severity := d.severity
  message := d.message
  help := d.help
  span := d.span.shift offset
  first := Position.ofOffset document (d.span.start + offset)
  last := Position.ofOffset document (d.span.stop + offset)
  fixable := d.fix.isSome

def internal (message : String) : Failure where
  rule := internalRule
  severity := .error
  message := message
  help := none
  span := ⟨0, 0⟩
  first := ⟨1, 1⟩
  last := ⟨1, 1⟩
  fixable := false

end Failure

end ComponentLint
