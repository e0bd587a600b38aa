import ComponentLint.Text.Width
import ComponentLint.Text.Basic

/-! The lines of a document around a span, with one line of context before and after. -/
namespace ComponentLint

/-- A line of a document, without its break. -/
structure ShownLine where
  /-- Counted from one. -/
  number : Nat
  offset : Nat
  /-- In bytes, the break included. -/
  size : Nat
  text : Text
deriving DecidableEq, Repr, Inhabited

/-- A piece of a document around a span. -/
structure Window where
  start : Nat
  stop : Nat
  /-- The number of lines in front of it. -/
  above : Nat
deriving DecidableEq, Repr, Inhabited

namespace Window

/-- The search for the window of a span, going through the document. -/
structure Search where
  offset : Nat := 0
  lineStart : Nat := 0
  /-- The line breaks in front of the span. -/
  breaks : Nat := 0
  /-- Where the line before the span's first starts. -/
  before : Option Nat := none
  /-- Whether the end of the span was passed. -/
  isPast : Bool := false
  /-- Whether a line break was passed behind the span. -/
  gotBreak : Bool := false
deriving DecidableEq, Repr, Inhabited

/-- The last byte of a span, or the one in front of an empty span. -/
def lastByte (span : Span) : Nat := span.stop - 1

/-- Where line breaks begin to count as behind the span. -/
def lateByte (span : Span) : Nat := span.start + (span.stop - span.start - 1)

/-- Passes bytes that are no break. -/
def Search.pass (s : Search) (span : Span) (size : Nat) : Search :=
  { s with offset := s.offset + size, isPast := s.isPast || lastByte span ≤ s.offset + size - 1 }

/-- Passes a line break. The second one behind the span ends the search. -/
def Search.passBreak (s : Search) (span : Span) (size : Nat) : Search × Bool :=
  let last := s.offset + size - 1
  let noted :=
    if last < span.start then { s with before := some s.lineStart, breaks := s.breaks + 1 } else s
  let isLate := span.start ≤ last && lateByte span ≤ last && s.isPast
  if isLate && s.gotBreak then ({ s with offset := last + 1 }, true)
  else (({ noted with lineStart := last + 1, gotBreak := s.gotBreak || isLate } : Search).pass span size, false)

def find (span : Span) (s : Search) : Text → Search
  | [] => s
  | '\r' :: '\n' :: rest =>
    let (s, isDone) := s.passBreak span 2
    if isDone then s else find span s rest
  | c :: rest =>
    if c = '\n' || c = '\r' then
      let (s, isDone) := s.passBreak span 1
      if isDone then s else find span s rest
    else find span (s.pass span c.utf8Size) rest

/-- The window of a span, unless the document ends before the span. -/
def of? (document : Text) (span : Span) : Option Window :=
  let s := find span {} document
  if lastByte span ≤ s.offset then some ⟨s.before.getD 0, s.offset, s.breaks - 1⟩ else none

/-- The lines of a text. A lone carriage return stays in its line. -/
def linesFrom (number offset start : Nat) (read : Text) : Text → List ShownLine
  | [] => []
  | '\r' :: '\n' :: rest =>
    ⟨number + 1, start, offset + 2 - start, read.reverse⟩ :: linesFrom (number + 1) (offset + 2) (offset + 2) [] rest
  | '\n' :: rest =>
    ⟨number + 1, start, offset + 1 - start, read.reverse⟩ :: linesFrom (number + 1) (offset + 1) (offset + 1) [] rest
  | [c] =>
    let stop := offset + c.utf8Size
    [⟨if c = '\r' then number else number + 1, start, stop - start, (c :: read).reverse⟩]
  | c :: rest => linesFrom number (offset + c.utf8Size) start (c :: read) rest

def lines (w : Window) (document : Text) : List ShownLine :=
  linesFrom w.above w.start w.start [] (document.slice ⟨w.start, w.stop⟩)

end Window

/-- The line and the column that a span starts at, both counted from one, the column in bytes. A carriage
return counts as a line break here. -/
def startPlace (start line column offset : Nat) : Text → Nat × Nat
  | [] => (line, column)
  | '\r' :: '\n' :: rest =>
    if offset + 1 < start then startPlace start (line + 1) 1 (offset + 2) rest else (line, column)
  | c :: rest =>
    if start ≤ offset then (line, column)
    else if c = '\n' || c = '\r' then startPlace start (line + 1) 1 (offset + 1) rest
    else startPlace start line (column + min c.utf8Size (start - offset)) (offset + c.utf8Size) rest

namespace ShownLine

def stop (l : ShownLine) : Nat := l.offset + l.size

/-- Where a span counts as ended; an empty one takes a byte. -/
def spanStop (span : Span) : Nat := if span.stop = span.start then span.start + 1 else span.stop

def holds (l : ShownLine) (span : Span) : Bool := l.offset ≤ span.start && span.stop ≤ l.stop

def hasStart (l : ShownLine) (span : Span) : Bool := l.offset ≤ span.start && span.start < l.stop

def hasStop (l : ShownLine) (span : Span) : Bool := l.offset < spanStop span && spanStop span ≤ l.stop

def isWithin (l : ShownLine) (span : Span) : Bool := span.start < l.offset && l.stop < spanStop span

/-- Whether a span shows on the line. -/
def meets (l : ShownLine) (span : Span) : Bool := l.hasStart span || l.isWithin span || l.hasStop span

/-- Whether a span shows beside the line, being no part of it alone. -/
def isCrossed (l : ShownLine) (span : Span) : Bool := l.meets span && !(l.hasStart span && l.hasStop span)

def tabWidth : Nat := 4

/-- The text with the columns of its characters; a tab goes up to the next multiple of its width. -/
def columnsFrom (column : Nat) : Text → List (Char × Nat)
  | [] => []
  | c :: rest =>
    let width := if c = '\t' then tabWidth - column % tabWidth else Text.width c
    (c, width) :: columnsFrom (column + width) rest

/-- The text with blanks for its tabs. -/
def untabbed (l : ShownLine) : Text :=
  (columnsFrom 0 l.text).flatMap fun (c, width) => if c = '\t' then List.replicate width ' ' else [c]

/-- The column of an offset in the line, to the left or to the right of the character that it is inside of. What
follows the text, its break included, is one column. -/
def column (l : ShownLine) (offset : Nat) (left : Bool) : Nat :=
  let inside := offset - l.offset
  let widths := (columnsFrom 0 l.text).map (·.2)
  let starts := Text.within inside l.text
  let cut := Text.byteSize starts = inside || l.text.byteSize ≤ inside
  let count := if left || cut then starts.length else starts.length + 1
  let total := (widths.take count).foldl (· + ·) 0
  if l.text.byteSize < inside then total + 1 else total

end ShownLine

end ComponentLint
