import ComponentLint.Component.WriteBack
import ComponentLint.Lint.Fixes
import ComponentLint.Source.Host

/-! Linting a unit and fixing it. What is found in a text is a parameter. The text is fixed in rounds, and
what is reported last is what is found in the text that is then on the disk. -/
namespace ComponentLint

/-- The findings of a file, in the document that they are placed in. -/
structure FileResult where
  path : Path
  document : Text
  failures : List Failure
  fixesApplied : Nat
deriving DecidableEq, Repr, Inhabited

namespace FileResult

/-- A result that tells only of a failure of the pass itself. -/
def internal (path : Path) (message : String) : FileResult := ⟨path, [], [.internal message], 0⟩

def hasFailures (r : FileResult) : Bool := !r.failures.isEmpty

end FileResult

/-- What finds something in a version of a unit's text. -/
abbrev Inspection := SourceUnit → Text → List Diagnostic

structure Draft where
  text : Text
  diagnostics : List Diagnostic
  applied : Nat
deriving DecidableEq, Repr, Inhabited

namespace Draft

def mostRounds : Nat := 10

/-- Applies fixes and looks again, until nothing changes. A text that does not parse is left alone. -/
def rounds (inspect : Text → List Diagnostic) : Nat → Draft → Draft
  | 0, d => d
  | n + 1, d =>
    if d.diagnostics.any Diagnostic.isSyntax then d
    else
      let (fixed, applied) := Fixes.apply d.text d.diagnostics
      if applied = 0 || fixed = d.text then d
      else rounds inspect n ⟨fixed, inspect fixed, d.applied + applied⟩

end Draft

/-- What linting a unit comes to: a text to write, if fixes were applied, and the result if that succeeds. -/
structure Outcome where
  written : Option Text
  result : FileResult
deriving DecidableEq, Repr, Inhabited

inductive FileFault where
  | unreadable (fault : HostFault)
  | unwritable (path : Path) (fault : IoFault)
deriving DecidableEq, Repr, Inhabited

namespace FileFault

def message : FileFault → String
  | unreadable f => f.message
  | unwritable p f => s!"failed to write {p.toString}: {f.message}"

end FileFault

namespace Outcome

/-- Hands the text to a writer, if there is one to write, and reports the result if the writer succeeds. -/
def deliver {σ : Type} (o : Outcome) (path : Path) (write : FileWriter σ) (files : σ) :
    Except FileFault FileResult × σ :=
  match o.written with
  | none => (.ok o.result, files)
  | some text =>
    match write path text files with
    | (.error f, files) => (.error (.unwritable path f), files)
    | (.ok (), files) => (.ok o.result, files)

end Outcome

namespace SourceUnit

/-- The unit of a component after a fixed script was put back between the two sides of its document. -/
def rewrapped (u : SourceUnit) (o : Origin) (fixed : Text) : SourceUnit :=
  let stop := o.offset + u.text.byteSize
  let frame : Component.Frame :=
    ⟨u.path, Text.slice o.document ⟨0, o.offset⟩, Text.slice o.document ⟨stop, o.document.byteSize⟩⟩
  { u with text := fixed.trim, origin := some ⟨frame.wrap fixed, frame.scriptStart⟩ }

/-- The unit as it is on the disk after a fixed text was written. -/
def afterWrite (u : SourceUnit) (fixed : Text) : SourceUnit :=
  match u.origin with
  | none => { u with text := fixed }
  | some o => u.rewrapped o fixed

/-- Places what was found in the text of a unit in its document. -/
def place (u : SourceUnit) (ds : List Diagnostic) : List Failure :=
  ds.map (Failure.ofDiagnostic u.document u.originOffset)

/-- The text of a unit after all rounds of fixes. -/
def draft (u : SourceUnit) (inspect : Inspection) (fixes : Bool) : Draft :=
  let start : Draft := ⟨u.text, inspect u u.text, 0⟩
  if fixes then start.rounds (inspect u) Draft.mostRounds else start

def lint (u : SourceUnit) (inspect : Inspection) (fixes : Bool) : Outcome :=
  let draft := u.draft inspect fixes
  if draft.applied = 0 then ⟨none, ⟨u.path, u.document, u.place draft.diagnostics, 0⟩⟩
  else
    let after := u.afterWrite draft.text
    let found := if u.isComposite then inspect after after.text else draft.diagnostics
    ⟨some draft.text, ⟨u.path, after.document, after.place found, draft.applied⟩⟩

def lintThrough {σ : Type} (u : SourceUnit) (inspect : Inspection) (fixes : Bool) (write : FileWriter σ) (files : σ) :
    Except FileFault FileResult × σ :=
  (u.lint inspect fixes).deliver u.path write files

end SourceUnit

end ComponentLint
