import ComponentLint.Lint.Rule
import ComponentLint.Program.Scan

/-! Imports of modules that are not found, and of names that a module does not export, by what the program
knows of the other units. -/
namespace ComponentLint.UnresolvedImports

def help : String := "Check the path, or the `compilerOptions.paths` aliases in tsconfig.json"

/-- What the program finds in the text: in the unit as it was loaded, or in a version of it. -/
def located (p : Program) (s : Subject) : List Located :=
  if (p.unit? s.unit.path).any fun u => u.text = s.source then p.diagnostics s.unit.path
  else p.diagnose s.unit.path (.ofModule s.script)

def remark? (l : Located) : Option Remark :=
  match l.finding with
  | .unresolved _ => some ⟨l.message, l.span, some help, none⟩
  | .missing _ _ => some ⟨l.message, l.span, none, none⟩
  | .syntaxFault _ => none

def check (s : Subject) : List Remark :=
  match s.program with
  | none => []
  | some p => (located p s).filterMap remark?

def rule : Rule where
  name := "no-unresolved-imports"
  severity := .error
  typeAware := true
  check := check

end ComponentLint.UnresolvedImports
