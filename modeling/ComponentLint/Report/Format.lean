import ComponentLint.Report.Json
import ComponentLint.Report.Prose
import ComponentLint.Report.Text

/-! The forms of a report, and what a run prints. -/
namespace ComponentLint

inductive ReportFormat where
  | text
  | json
  | prose
deriving DecidableEq, Repr, Inhabited

namespace ReportFormat

def ofName? (name : String) : Option ReportFormat :=
  match name with
  | "text" => some text
  | "stylish" => some text
  | "json" => some json
  | "prose" => some prose
  | _ => none

/-- What is said of a name that no format has. -/
def unknown (name : String) : String := s!"unknown format '{name}' (expected text, json or prose)"

end ReportFormat

namespace Report

def render (r : Report) (base : Path) : ReportFormat → Text
  | .text => r.text base
  | .json => r.json base
  | .prose => r.prose base

/-- What a run prints: the report, or the fixed files where it is silent about them, or a word of success. -/
def output (r : Report) (base : Path) (format : ReportFormat) : Text :=
  let rendered := r.render base format
  if !rendered.isAllBlank then rendered
  else if 0 < r.summary.fixed then r.prose base
  else if !r.hasFailures then "No lint errors found.\n".toList
  else rendered

end Report

end ComponentLint
