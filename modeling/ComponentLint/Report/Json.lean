import ComponentLint.Json.Printer
import ComponentLint.Report.Basic

/-! Reports for other programs: a list of the files that have failures. -/
namespace ComponentLint.Report

open Json

def count (n : Nat) : Value := .number (.natural n)

def textValue (s : String) : Value := .string s.toList

def severityLevel : Severity → Nat
  | .error => 2
  | .warning => 1

def failureValue (f : Failure) : Value :=
  .object [
    ("ruleId".toList, textValue f.rule),
    ("severity".toList, count (severityLevel f.severity)),
    ("message".toList, textValue f.message),
    ("line".toList, count f.first.line),
    ("column".toList, count f.first.column),
    ("endLine".toList, count f.last.line),
    ("endColumn".toList, count f.last.column),
    ("fixable".toList, .bool f.fixable)]

def severityCount (r : FileResult) (s : Severity) : Nat := (r.failures.filter (·.severity = s)).length

def resultValue (base : Path) (r : FileResult) : Value :=
  .object [
    ("filePath".toList, textValue (shownPath base r.path)),
    ("messages".toList, .list (r.failures.map failureValue)),
    ("errorCount".toList, count (severityCount r .error)),
    ("warningCount".toList, count (severityCount r .warning)),
    ("fixCount".toList, count r.fixesApplied)]

def value (r : Report) (base : Path) : Value :=
  .list ((r.results.filter FileResult.hasFailures).map (resultValue base))

def json (r : Report) (base : Path) : Text := (r.value base).pretty 0

end ComponentLint.Report
