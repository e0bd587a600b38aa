import ComponentLint.Report.Basic
import ComponentLint.Report.Snippet
import ComponentLint.Text.Blank

/-! Reports for a terminal: each failure with the lines that it is found in. -/
namespace ComponentLint.Report

inductive Style where
  | error
  | warning
  | link
  | highlight
  | help
  | number
deriving DecidableEq, Repr, Inhabited

namespace Style

def code : Style → String
  | error => "38;2;225;80;80;1"
  | warning => "38;2;244;191;117;1"
  | link => "38;2;92;157;255;1"
  | highlight => "38;2;246;87;248"
  | help => "38;2;106;159;181"
  | number => "2"

def ofSeverity : Severity → Style
  | .error => error
  | .warning => warning

def paint (s : Style) (t : Text) : Text :=
  ('\x1b' :: '[' :: s.code.toList) ++ 'm' :: t ++ '\x1b' :: "[0m".toList

end Style

def blanks (n : Nat) : Text := List.replicate n ' '

def withoutTrailingBlanks (t : Text) : Text := (t.reverse.dropWhile (· = ' ')).reverse

/-- The lines of a text behind one another, the first with one beginning and the others with another. An
empty line has none. -/
def hanging (first rest : Text) (t : Text) : Text :=
  let line (start body : Text) : Text := if body = [] then [] else start ++ withoutTrailingBlanks body
  match Text.splitOn '\n' t with
  | [] => []
  | body :: bodies => Text.join ['\n'] (line first body :: bodies.map (line rest))

def icon : Severity → Char
  | .error => '×'
  | .warning => '⚠'

/-- What is wrong, and by which rule. -/
def title (f : Failure) : Text :=
  let style := Style.ofSeverity f.severity
  let start (mark : Char) : Text := "  ".toList ++ style.paint [mark] ++ [' ']
  hanging (start (icon f.severity)) (start '│') (style.paint s!"{f.message} ({f.rule})".toList)

def numberText (n : Nat) : Text := (toString n).toList

def padded (width : Nat) (t : Text) : Text := blanks (width - t.length) ++ t

/-- What stands between the number and the text of a line, if the span goes over several lines. -/
def gutter (isNeeded : Bool) (l : ShownLine) (span : Span) : Text :=
  let arrow (corner : Char) : Text := [corner, '─', '▶'].flatMap (fun c => Style.highlight.paint [c]) ++ [' ']
  if !isNeeded then []
  else if !l.isCrossed span then blanks 4
  else if l.offset ≤ span.start then arrow '╭'
  else if l.offset ≤ span.stop && span.stop ≤ l.stop then arrow '╰'
  else if l.stop < span.stop then Style.highlight.paint ['│'] ++ blanks 3
  else blanks 4

/-- The mark under the part of a line that is meant. -/
def underline (l : ShownLine) (span : Span) : Text :=
  let start := l.column span.start true
  let mark : Text :=
    if span.stop = span.start then ['▲']
    else List.replicate (max (l.column span.stop false) (start + 1) - start) '─'
  Style.highlight.paint (blanks start ++ mark)

def lineText (width : Nat) (needsGutter : Bool) (span : Span) (l : ShownLine) : Text :=
  let shown := ' ' :: Style.number.paint (padded width (numberText l.number)) ++ " │ ".toList ++
    gutter needsGutter l span ++ l.untabbed ++ ['\n']
  if l.meets span && l.holds span then
    shown ++ blanks (width + 2) ++ "· ".toList ++ underline l span ++ ['\n']
  else shown

/-- The lines around a span in a frame. There is none for a span that the document does not reach. -/
def snippet? (name : String) (document : Text) (span : Span) : Option Text := do
  let window ← Window.of? document span
  let lines := window.lines document
  let width := (numberText (lines.getLast?.elim 0 (·.number))).length
  let needsGutter := lines.any fun l => !l.holds span && l.isCrossed span
  let (line, column) := startPlace span.start 1 1 0 document
  let place := s!":{line}:{column}]\n".toList
  return blanks (width + 2) ++ "╭─[".toList ++ Style.link.paint name.toList ++ place ++
    lines.flatMap (lineText width needsGutter span) ++ blanks (width + 2) ++ "╰────\n".toList

def helpText (f : Failure) : Text :=
  match f.help with
  | none => []
  | some help => hanging (Style.help.paint "  help: ".toList) (blanks 8) help.toList ++ ['\n']

/-- A failure with its lines; nothing where it lies outside of its document. -/
def failureText (base : Path) (r : FileResult) (f : Failure) : Text :=
  match snippet? (shownPath base r.path) r.document f.span with
  | none => []
  | some snippet => '\n' :: title f ++ '\n' :: snippet ++ helpText f ++ ['\n']

/-- All failures and the summary; nothing if there are none. -/
def text (r : Report) (base : Path) : Text :=
  if r.hasFailures then
    (r.failures.flatMap fun (result, f) => failureText base result f) ++ r.summary.sentence.toList ++ ['\n']
  else []

end ComponentLint.Report
