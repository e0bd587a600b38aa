import ComponentLint.Report.Basic

/-! Reports of one line for each fixed file and each failure. -/
namespace ComponentLint.Report

def fixedLine (base : Path) (r : FileResult) : String :=
  s!"Fixed {r.fixesApplied} error(s) in {shownPath base r.path}\n"

def severityWord : Severity → String
  | .error => "ERROR"
  | .warning => "WARNING"

def failureLine (base : Path) (r : FileResult) (f : Failure) : String :=
  s!"{severityWord f.severity}: {shownPath base r.path}[{f.first.line}, {f.first.column}]: {f.message}\n"

/-- Fixed files first, then the failures, with an empty line between them. -/
def prose (r : Report) (base : Path) : Text :=
  let fixed := (r.results.filter fun result => 0 < result.fixesApplied).map (fixedLine base)
  let failed := r.failures.map fun (result, f) => failureLine base result f
  let gap := if fixed = [] || failed = [] then [] else ["\n"]
  (String.join (fixed ++ gap ++ failed)).toList

end ComponentLint.Report
