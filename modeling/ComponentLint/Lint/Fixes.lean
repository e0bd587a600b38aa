import ComponentLint.Sorting
import ComponentLint.Lint.Diagnostic

/-! Applying fixes. Fixes are taken in source order; one that starts before the end of the last taken
waits for the next round, and one with an edit off the character boundaries of the text is dropped. -/
namespace ComponentLint

namespace Edit

def fits (text : Text) (e : Edit) : Bool :=
  e.span.start ≤ e.span.stop && text.isBoundary e.span.start && text.isBoundary e.span.stop

def applied? (text : Text) (e : Edit) : Option Text := text.splice? e.span e.new

end Edit

namespace Fixes

def rangeLe (a b : Span) : Bool := a.start < b.start || (a.start = b.start && a.stop ≤ b.stop)

/-- The fixes that the diagnostics carry, those without edits left out, in source order. -/
def candidates (ds : List Diagnostic) : List Fix :=
  Sorting.sort (fun f g => rangeLe f.range g.range)
    ((ds.filterMap (·.fix)).filter fun f => !f.edits.isEmpty)

/-- The fixes taken, where `last` is the end of the last one taken before. -/
def select (text : Text) (last : Option Nat) : List Fix → List Fix
  | [] => []
  | f :: rest =>
    if last.any (f.range.start < ·) then select text last rest
    else if f.edits.all (·.fits text) then f :: select text (some f.range.stop) rest
    else select text last rest

/-- The edits of the taken fixes in the order in which they are made, from the end of the text. -/
def schedule (taken : List Fix) : List Edit :=
  Sorting.sort (fun a b => b.span.start ≤ a.span.start) (taken.flatMap (·.edits))

/-- Makes one edit after the other, each in the text that the edits before it left. -/
def run (text : Text) (edits : List Edit) : Text :=
  edits.foldl (fun t e => (e.applied? t).getD t) text

/-- The fixed text and the number of fixes applied. -/
def apply (text : Text) (ds : List Diagnostic) : Text × Nat :=
  let taken := select text none (candidates ds)
  (run text (schedule taken), taken.length)

end Fixes

end ComponentLint
