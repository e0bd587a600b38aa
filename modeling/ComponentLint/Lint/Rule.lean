import ComponentLint.Lint.Config
import ComponentLint.Program.Diagnosis
import ComponentLint.TypeScript.Module

/-! What a rule is: what it is called, what it needs, and what it says about a script. -/
namespace ComponentLint

structure Subject where
  /-- The text that is linted: that of the unit, or a fixed version of it. -/
  source : Text
  unit : SourceUnit
  program : Option Program
  /-- The text, read. -/
  script : TypeScript.Module

structure Remark where
  message : String
  span : Span
  help : Option String := none
  fix : Option Fix := none
deriving DecidableEq, Repr, Inhabited

structure Rule where
  name : String
  severity : Severity
  /-- Whether the rule says nothing without a program. -/
  typeAware : Bool := false
  /-- Whether the rule leaves components alone, unless they are asked for. -/
  sparesComponents : Bool := false
  check : Subject → List Remark

namespace Remark

def toDiagnostic (rule : Rule) (severity : Severity) (r : Remark) : Diagnostic :=
  ⟨rule.name, severity, r.message, r.span, r.help, r.fix⟩

end Remark

namespace RuleSetting

/-- The severity that a rule runs with, if it runs. -/
def severity? (s : RuleSetting) (default : Severity) : Option Severity :=
  match s with
  | .default => some default
  | .severity s => some s
  | .off => none

end RuleSetting

end ComponentLint
