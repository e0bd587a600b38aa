import ComponentLint.Lint.BlankLines
import ComponentLint.Lint.Fixing
import ComponentLint.Lint.UnresolvedImports
import ComponentLint.Lint.UnusedImports
import ComponentLint.TypeScript.Items

/-! The linter: rules, how they are set, whether fixes are made, and how scripts are read. -/
namespace ComponentLint

namespace Rule

def recommended : List Rule := [UnusedImports.rule, BlankLines.rule, UnresolvedImports.rule]

end Rule

structure Linter where
  rules : List Rule := Rule.recommended
  settings : List (Text × RuleSetting) := []
  /-- Whether rules that spare components look at them all the same. -/
  compositeBlankLines : Bool := false
  fixes : Bool := true
  parse : TypeScript.Parsing := TypeScript.Module.ofText

namespace Linter

def ofConfig (c : LintConfig) (fixes : Bool) (parse : TypeScript.Parsing := TypeScript.Module.ofText) : Linter :=
  { settings := c.rules, compositeBlankLines := c.compositeBlankLines, fixes := fixes, parse := parse }

def setting (l : Linter) (rule : Rule) : RuleSetting := (l.settings.lookup rule.name.toList).getD .default

/-- The severity that a rule has for a unit, if it runs. -/
def severity? (l : Linter) (rule : Rule) (u : SourceUnit) (typed : Bool) : Option Severity :=
  if rule.typeAware && !typed then none
  else if rule.sparesComponents && u.isComposite && !l.compositeBlankLines then none
  else (l.setting rule).severity? rule.severity

def diagnose (l : Linter) (s : Subject) : List Diagnostic :=
  l.rules.flatMap fun rule =>
    match l.severity? rule s.unit s.program.isSome with
    | none => []
    | some severity => (rule.check s).map (Remark.toDiagnostic rule severity)

def faultDiagnostic (f : TypeScript.Fault) : Diagnostic :=
  { rule := Diagnostic.syntaxRule, severity := .error, message := f.message, span := f.span }

/-- Looks at a version of a unit's text. One that does not parse shows only that. -/
def inspect (l : Linter) (program : Option Program) : Inspection := fun u source =>
  let script := l.parse u.kind source
  if script.faults = [] then
    Sorting.sort (fun a b => Fixes.rangeLe a.span b.span) (l.diagnose ⟨source, u, program, script⟩)
  else script.faults.map faultDiagnostic

/-- The program, for a unit that belongs to it. -/
def programFor (program : Option Program) (u : SourceUnit) : Option Program :=
  program.filter fun p => p.contains u.path

def lintUnit (l : Linter) (program : Option Program) (u : SourceUnit) : Outcome :=
  u.lint (l.inspect (programFor program u)) l.fixes

end Linter

/-- The unit of a path: that of the program, else that of the host. -/
def unitToLint (program : Option Program) (host : SourceHost) (shelf : Component.Shelf) (path : Path) :
    Except HostFault (Option SourceUnit) × Component.Shelf :=
  match program.bind fun p => p.unit? path with
  | some u => (.ok (some u), shelf)
  | none => host.readUnit shelf path

end ComponentLint
