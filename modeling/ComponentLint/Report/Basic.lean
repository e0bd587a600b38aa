import ComponentLint.Lint.Fixing

/-! The results of a run, with their count. -/
namespace ComponentLint

structure Summary where
  errors : Nat := 0
  warnings : Nat := 0
  fixed : Nat := 0
  files : Nat := 0
deriving DecidableEq, Repr, Inhabited

namespace Summary

def addFailure (s : Summary) (f : Failure) : Summary :=
  match f.severity with
  | .error => { s with errors := s.errors + 1 }
  | .warning => { s with warnings := s.warnings + 1 }

def addResult (s : Summary) (r : FileResult) : Summary :=
  let counted := r.failures.foldl addFailure s
  { counted with fixed := counted.fixed + r.fixesApplied, files := counted.files + 1 }

def hasFailures (s : Summary) : Bool := 0 < s.errors + s.warnings

/-- A number with a noun, which gets an s unless the number is one. -/
def counted (n : Nat) (noun : String) : String := if n = 1 then s!"{n} {noun}" else s!"{n} {noun}s"

def sentence (s : Summary) : String :=
  let errors := if s.errors = 0 then [] else [counted s.errors "error"]
  let warnings := if s.warnings = 0 then [] else [counted s.warnings "warning"]
  let files := counted s.files "file"
  let problems := ", ".intercalate (errors ++ warnings)
  if s.hasFailures then s!"{problems} in {files}" else s!"No problems found in {files}"

end Summary

structure Report where
  results : List FileResult := []
  summary : Summary := {}
deriving DecidableEq, Repr, Inhabited

namespace Report

def push (r : Report) (result : FileResult) : Report := ⟨r.results ++ [result], r.summary.addResult result⟩

def ofResults (results : List FileResult) : Report := results.foldl push {}

def hasFailures (r : Report) : Bool := r.summary.hasFailures

/-- The failures of all results in order, each with its result. -/
def failures (r : Report) : List (FileResult × Failure) :=
  r.results.flatMap fun result => result.failures.map fun f => (result, f)

/-- A path as it is shown: from the base on, if it is below it. -/
def shownPath (base p : Path) : String := ((base.relativeTo? p).getD p).toString

end Report

end ComponentLint
