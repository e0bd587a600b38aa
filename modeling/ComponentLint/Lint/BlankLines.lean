import ComponentLint.Lint.Rule
import ComponentLint.Text.Blank

/-! Blank lines in a row. The first stays, and the lines inside a template do not count. -/
namespace ComponentLint.BlankLines

/-- Whether an offset is inside a template, its ends left out. -/
def isInside (templates : List Span) (offset : Nat) : Bool :=
  templates.any fun span => span.start < offset && offset < span.stop

/-- The offsets of the lines of a text, with the lines. -/
def placed (offset : Nat) : List Text → List (Nat × Text)
  | [] => []
  | line :: rest => (offset, line) :: placed (offset + line.byteSize) rest

def isBlankLine (templates : List Span) (offset : Nat) (line : Text) : Bool :=
  line.isAllBlank && !isInside templates offset

/-- What is said about a run of blank lines that stops at an offset, its lines given last first. -/
def remark (run : List Nat) (stop : Nat) : List Remark :=
  match run.reverse with
  | _ :: second :: _ =>
    [⟨"Consecutive blank lines are forbidden", ⟨second, stop⟩, none,
      some (.single "Remove extra blank lines" ⟨second, stop⟩ [])⟩]
  | _ => []

/-- Goes through the lines with the blank ones just passed, last first. -/
def remarks (templates : List Span) (run : List Nat) (offset : Nat) : List Text → List Remark
  | [] => remark run offset
  | line :: rest =>
    let next := offset + line.byteSize
    if isBlankLine templates offset line then remarks templates (offset :: run) next rest
    else remark run offset ++ remarks templates [] next rest

def check (s : Subject) : List Remark := remarks s.script.outline.templates [] 0 s.source.lines

def rule : Rule where
  name := "no-consecutive-blank-lines"
  severity := .warning
  sparesComponents := true
  check := check

end ComponentLint.BlankLines
