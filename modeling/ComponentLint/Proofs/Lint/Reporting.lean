import ComponentLint.Lint.Fixing
import ComponentLint.Proofs.Text.Slice
import Mathlib.Tactic.SplitIfs

/-! What is reported of a unit is what was written. The rounds keep a text and what is found in it together;
from that the result speaks of the script that stands in the document on the disk, at its place there. The
inspection is any function, and so is the writer. -/
namespace ComponentLint

/-! ## Rounds -/

namespace Draft

/-- What one round preserves holds of the draft after all of them. -/
theorem rounds_invariant {inspect : Text → List Diagnostic} {motive : Draft → Prop}
    (step : ∀ d fixed applied, motive d → ¬ d.diagnostics.any Diagnostic.isSyntax →
      Fixes.apply d.text d.diagnostics = (fixed, applied) → 0 < applied →
      motive ⟨fixed, inspect fixed, d.applied + applied⟩) (n : Nat) {d : Draft} (h : motive d) :
    motive (d.rounds inspect n) := by
  induction n generalizing d with
  | zero => exact h
  | succ n ih =>
    rw [rounds]
    split_ifs with faulty
    · exact h
    · cases fix : Fixes.apply d.text d.diagnostics with
      | mk fixed applied =>
        dsimp only
        split_ifs with same
        · exact h
        · have some_ : 0 < applied := by
            simp only [Bool.or_eq_true, decide_eq_true_eq, not_or] at same
            omega
          exact ih (step d fixed applied h faulty fix some_)

theorem rounds_diagnostics {inspect : Text → List Diagnostic} (n : Nat) {d : Draft}
    (h : d.diagnostics = inspect d.text) : (d.rounds inspect n).diagnostics = inspect (d.rounds inspect n).text := by
  refine rounds_invariant (motive := fun r => r.diagnostics = inspect r.text) ?_ n h
  intro r fixed applied _ _ _ _
  rfl

/-- A draft changes only by fixes that are counted. -/
theorem rounds_unchanged {inspect : Text → List Diagnostic} (n : Nat) {d : Draft} :
    d.rounds inspect n = d ∨ d.applied < (d.rounds inspect n).applied := by
  refine rounds_invariant (motive := fun r => r = d ∨ d.applied < r.applied) ?_ n (.inl rfl)
  rintro r fixed applied (rfl | more) - - some_
  · right; dsimp only; omega
  · right; dsimp only; omega

end Draft

namespace SourceUnit

variable (u : SourceUnit) (inspect : Inspection) (fixes : Bool)

theorem draft_diagnostics : (u.draft inspect fixes).diagnostics = inspect u (u.draft inspect fixes).text := by
  cases fixes with
  | false => rfl
  | true => exact Draft.rounds_diagnostics Draft.mostRounds rfl

theorem draft_unchanged (none_ : (u.draft inspect fixes).applied = 0) : (u.draft inspect fixes).text = u.text := by
  cases fixes with
  | false => rfl
  | true =>
    have start : u.draft inspect true = ⟨u.text, inspect u u.text, 0⟩ ∨ 0 < (u.draft inspect true).applied :=
      Draft.rounds_unchanged Draft.mostRounds
    rcases start with same | more
    · rw [same]
    · omega

theorem draft_applied_of_not_fixes : (u.draft inspect false).applied = 0 := rfl

end SourceUnit

/-! ## Results -/

/-- A result that reports what was found in a script where the script stands in the document. -/
structure FileResult.Reports (r : FileResult) (found : List Diagnostic) (script : Text) (offset : Nat) : Prop where
  stands : r.document.slice? ⟨offset, offset + script.byteSize⟩ = some script
  failures : r.failures = found.map (Failure.ofDiagnostic r.document offset)
  /-- A finding within the script points to the same piece of text in the document. -/
  pieces : ∀ d ∈ found, d.span.stop ≤ script.byteSize →
    r.document.slice? (Failure.ofDiagnostic r.document offset d).span = script.slice? d.span

theorem FileResult.reports_of_pieces {r : FileResult} {found : List Diagnostic} {a script b : Text}
    (whole : r.document = a ++ (script ++ b))
    (failures : r.failures = found.map (Failure.ofDiagnostic r.document a.byteSize)) :
    r.Reports found script a.byteSize where
  stands := by
    rw [whole, Text.slice?_eq_some_iff]
    exact ⟨a, b, rfl, rfl, Text.byteSize_append ..⟩
  failures := failures
  pieces d _ inside := by
    rw [whole]
    exact Text.slice?_within inside

namespace SourceUnit

theorem document_plain {u : SourceUnit} (h : u.origin = none) : u.document = u.text := by rw [document, h]

theorem originOffset_plain {u : SourceUnit} (h : u.origin = none) : u.originOffset = 0 := by rw [originOffset, h]

theorem document_composite {u : SourceUnit} {o : Origin} (h : u.origin = some o) : u.document = o.document := by
  rw [document, h]

theorem originOffset_composite {u : SourceUnit} {o : Origin} (h : u.origin = some o) :
    u.originOffset = o.offset := by
  rw [originOffset, h]

/-- A unit that stands in its document, if it was taken from one. -/
def Rooted (u : SourceUnit) : Prop :=
  ∀ o, u.origin = some o → o.document.slice? ⟨o.offset, o.offset + u.text.byteSize⟩ = some u.text

/-- The document of a component around a fixed script is the one that the frame gives. -/
theorem rewrapped_eq {u : SourceUnit} {o : Origin} {before after : Text}
    (whole : o.document = before ++ (u.text ++ after)) (start : before.byteSize = o.offset) (fixed : Text) :
    u.rewrapped o fixed = { u with
      text := fixed.trim
      origin := some ⟨(⟨u.path, before, after⟩ : Component.Frame).wrap fixed, before.byteSize + 1⟩ } := by
  obtain ⟨left, right⟩ : Text.slice (before ++ (u.text ++ after)) ⟨0, before.byteSize⟩ = before ∧ _ := Text.slice_sides
  rw [rewrapped, whole, ← start, left, right]
  rfl

theorem Rooted.split {u : SourceUnit} (h : u.Rooted) {o : Origin} (origin : u.origin = some o) :
    ∃ before after, o.document = before ++ (u.text ++ after) ∧ before.byteSize = o.offset := by
  obtain ⟨before, after, whole, start, -⟩ := Text.slice?_eq_some_iff.1 (h o origin)
  exact ⟨before, after, whole, start⟩

theorem lint_unwritten {u : SourceUnit} {inspect : Inspection} {fixes : Bool} (rooted : u.Rooted)
    (none_ : (u.draft inspect fixes).applied = 0) :
    ∃ r, u.lint inspect fixes = ⟨none, r⟩ ∧ r.path = u.path ∧ r.fixesApplied = 0 ∧ r.document = u.document ∧
      r.Reports (inspect u u.text) u.text u.originOffset := by
  refine ⟨_, by rw [lint, if_pos none_], rfl, rfl, rfl, ?_⟩
  rw [draft_diagnostics, draft_unchanged u inspect fixes none_]
  cases origin : u.origin with
  | none =>
    have offset : u.originOffset = Text.byteSize [] := originOffset_plain origin
    have document : u.document = [] ++ (u.text ++ []) := by rw [document_plain origin]; simp
    rw [offset]
    exact FileResult.reports_of_pieces document (by rw [place, offset])
  | some o =>
    obtain ⟨before, after, whole, start⟩ := rooted.split origin
    have offset : u.originOffset = before.byteSize := by rw [originOffset_composite origin, start]
    have document : u.document = before ++ (u.text ++ after) := by rw [document_composite origin, whole]
    rw [offset]
    exact FileResult.reports_of_pieces document (by rw [place, offset])

theorem lint_written {u : SourceUnit} {inspect : Inspection} {fixes : Bool} {v : SourceUnit} {found : List Diagnostic}
    (some_ : (u.draft inspect fixes).applied ≠ 0) (now : u.afterWrite (u.draft inspect fixes).text = v)
    (again : (if u.isComposite then inspect v v.text else inspect u (u.draft inspect fixes).text) = found) :
    u.lint inspect fixes = ⟨some (u.draft inspect fixes).text,
      ⟨u.path, v.document, v.place found, (u.draft inspect fixes).applied⟩⟩ := by
  rw [lint, if_neg some_, now, draft_diagnostics]
  dsimp only
  rw [again]

theorem lint_plain {u : SourceUnit} {inspect : Inspection} {fixes : Bool} (plain : u.origin = none)
    (some_ : (u.draft inspect fixes).applied ≠ 0) :
    ∃ r, u.lint inspect fixes = ⟨some (u.draft inspect fixes).text, r⟩ ∧ r.path = u.path ∧
      r.fixesApplied = (u.draft inspect fixes).applied ∧ r.document = (u.draft inspect fixes).text ∧
      r.Reports (inspect u (u.draft inspect fixes).text) (u.draft inspect fixes).text 0 := by
  let v : SourceUnit := { u with text := (u.draft inspect fixes).text }
  have now : u.afterWrite (u.draft inspect fixes).text = v := by
    simp only [afterWrite, plain, v]
  have again : u.isComposite = false := by rw [isComposite, plain]; rfl
  have document : v.document = [] ++ (v.text ++ []) := by
    rw [document_plain (show v.origin = none from plain)]
    simp
  refine ⟨_, lint_written some_ now (by rw [again]), rfl, rfl, document_plain (show v.origin = none from plain), ?_⟩
  refine FileResult.reports_of_pieces (a := []) (b := []) document ?_
  rw [place, originOffset_plain (show v.origin = none from plain)]
  rfl

/-- A component is reported with its fixed script put back, which is looked at once more as it stands there. -/
theorem lint_composite {u : SourceUnit} {inspect : Inspection} {fixes : Bool} {o : Origin} {before after : Text}
    (origin : u.origin = some o) (whole : o.document = before ++ (u.text ++ after))
    (start : before.byteSize = o.offset) (some_ : (u.draft inspect fixes).applied ≠ 0) :
    ∃ r, u.lint inspect fixes = ⟨some (u.draft inspect fixes).text, r⟩ ∧ r.path = u.path ∧
      r.fixesApplied = (u.draft inspect fixes).applied ∧
      r.document = (⟨u.path, before, after⟩ : Component.Frame).wrap (u.draft inspect fixes).text ∧
      r.Reports
        (inspect { u with
          text := (u.draft inspect fixes).text.trim
          origin := some ⟨r.document, before.byteSize + 1⟩ } (u.draft inspect fixes).text.trim)
        (u.draft inspect fixes).text.trim (before.byteSize + 1) := by
  let v : SourceUnit := { u with
    text := (u.draft inspect fixes).text.trim
    origin := some ⟨(⟨u.path, before, after⟩ : Component.Frame).wrap (u.draft inspect fixes).text,
      before.byteSize + 1⟩ }
  have now : u.afterWrite (u.draft inspect fixes).text = v := by
    rw [afterWrite, origin]
    exact rewrapped_eq whole start _
  have again : u.isComposite = true := by rw [isComposite, origin]; rfl
  refine ⟨_, lint_written some_ now (by rw [again]), rfl, rfl, rfl, ?_⟩
  have offset : before.byteSize + 1 = (before ++ ['\n']).byteSize := by rw [Text.byteSize_append]; rfl
  have document : v.document = (before ++ ['\n']) ++ (v.text ++ (['\n'] ++ after)) := by
    simp [v, SourceUnit.document, Component.Frame.wrap]
  rw [offset]
  exact FileResult.reports_of_pieces document (by rw [← offset]; rfl)

/-! ## Writing -/

section Writing

variable {σ : Type}

theorem deliver_written (r : FileResult) (text : Text) (path : Path) (write : FileWriter σ) (files : σ) :
    (∀ files', write path text files = (.ok (), files') →
        (⟨some text, r⟩ : Outcome).deliver path write files = (.ok r, files')) ∧
      ∀ f files', write path text files = (.error f, files') →
        (⟨some text, r⟩ : Outcome).deliver path write files = (.error (.unwritable path f), files') := by
  constructor
  · intro files' written
    simp only [Outcome.deliver, written]
  · intro f files' failed
    simp only [Outcome.deliver, failed]

/-- An active writer that holds the two sides of a component hands the component around the script on. -/
theorem through_wrap {writer : Component.WriteBack} {shelf : Component.Shelf} {path : Path} {frame : Component.Frame}
    (active : writer.active = true) (held : shelf.get? path = some frame) (inner : FileWriter σ) (text : Text) :
    writer.through shelf inner path text = inner path (frame.wrap text) := by
  simp [Component.WriteBack.through, Component.WriteBack.outgoing, active, Component.Shelf.wrap?, held]

/-- What is reported of a unit is what was written. Without fixes nothing is written and the unit is reported
as it is. With fixes the writer is called once, with the fixed text, and its failure is the only outcome if it
fails; otherwise the report is of the fixed text, or of the component that an active writer with the frame of
the unit makes of it, and it places what is found in the script that stands there. -/
theorem lintThrough_reports (u : SourceUnit) (inspect : Inspection) (fixes : Bool) (write : FileWriter σ) (files : σ)
    (rooted : u.Rooted) :
    ∃ r fixed, r.path = u.path ∧ fixed = (u.draft inspect fixes).text ∧
      (r.fixesApplied = 0 → u.lintThrough inspect fixes write files = (.ok r, files) ∧ r.document = u.document ∧
        r.Reports (inspect u u.text) u.text u.originOffset) ∧
      (0 < r.fixesApplied →
        (∀ files', write u.path fixed files = (.ok (), files') →
          u.lintThrough inspect fixes write files = (.ok r, files')) ∧
        (∀ f files', write u.path fixed files = (.error f, files') →
          u.lintThrough inspect fixes write files = (.error (.unwritable u.path f), files')) ∧
        (u.origin = none → r.document = fixed ∧ r.Reports (inspect u fixed) fixed 0) ∧
        ∀ o, u.origin = some o → ∃ before after, o.document = before ++ (u.text ++ after) ∧ before.byteSize = o.offset ∧
          (∀ (τ : Type) (inner : FileWriter τ) (writer : Component.WriteBack) (shelf : Component.Shelf),
            writer.active = true → shelf.get? u.path = some ⟨u.path.normalize, before, after⟩ →
            writer.through shelf inner u.path fixed = inner u.path r.document) ∧
          r.Reports
            (inspect { u with text := fixed.trim, origin := some ⟨r.document, before.byteSize + 1⟩ } fixed.trim)
            fixed.trim (before.byteSize + 1)) := by
  by_cases none_ : (u.draft inspect fixes).applied = 0
  · obtain ⟨r, linted, path, unfixed, document, reports⟩ := lint_unwritten rooted none_
    refine ⟨r, _, path, rfl, fun _ => ⟨?_, document, reports⟩, fun some_ => by omega⟩
    rw [lintThrough, linted]
    rfl
  · cases origin : u.origin with
    | none =>
      obtain ⟨r, linted, path, counted, document, reports⟩ := lint_plain origin none_
      obtain ⟨good, bad⟩ := deliver_written r (u.draft inspect fixes).text u.path write files
      rw [← linted] at good bad
      refine ⟨r, _, path, rfl, fun unfixed => absurd (counted.symm.trans unfixed) none_, fun _ => ?_⟩
      exact ⟨good, bad, fun _ => ⟨document, reports⟩, fun o other => by simp at other⟩
    | some o =>
      obtain ⟨before, after, whole, start⟩ := rooted.split origin
      obtain ⟨r, linted, path, counted, document, reports⟩ := lint_composite origin whole start none_
      obtain ⟨good, bad⟩ := deliver_written r (u.draft inspect fixes).text u.path write files
      rw [← linted] at good bad
      refine ⟨r, _, path, rfl, fun unfixed => absurd (counted.symm.trans unfixed) none_, fun _ => ?_⟩
      refine ⟨good, bad, fun plain => by simp at plain, fun o' same => ?_⟩
      obtain rfl := Option.some.inj same
      refine ⟨before, after, whole, start, fun τ inner writer shelf active held => ?_, reports⟩
      rw [through_wrap active held, document]
      rfl

end Writing

theorem lintThrough_reports_component :
    let u : SourceUnit :=
      ⟨⟨"/A.vue".toList⟩, "a\n".toList, .ts, some ⟨"<script lang='ts'>a\n</script>".toList, 18⟩⟩
    let letter : Diagnostic := ⟨"letter", .warning, "no a", ⟨0, 1⟩, none, none⟩
    let inspect : Inspection := fun _ t =>
      if t.head? = some 'a' then [{ letter with fix := some (.single "b" ⟨0, 1⟩ ['b']) }] else [letter]
    let record : FileWriter (List (Path × Text)) := fun path text written => (.ok (), written ++ [(path, text)])
    ∃ r, u.lintThrough inspect true record [] = (.ok r, [(u.path, "b\n".toList)]) ∧
      r.document.slice? ⟨19, 20⟩ = some ['b'] ∧ r.failures = [.ofDiagnostic r.document 19 letter] := by
  intro u letter inspect record
  have rooted : u.Rooted := by
    intro o origin
    cases origin
    rfl
  have fixed_ : (u.draft inspect true).text = "b\n".toList := by decide +kernel
  have once : (u.lintThrough inspect true record []).2 = [(u.path, "b\n".toList)] := by decide +kernel
  obtain ⟨r, fixed, -, same, unwritten, written⟩ := lintThrough_reports u inspect true record [] rooted
  rw [same, fixed_] at written
  have some_ : 0 < r.fixesApplied := by
    apply Nat.pos_of_ne_zero
    intro none_
    rw [(unwritten none_).1] at once
    simp at once
  obtain ⟨good, -, -, composite⟩ := written some_
  obtain ⟨before, after, whole, start, -, reports⟩ := composite _ rfl
  have trimmed : Text.trim "b\n".toList = ['b'] := by rfl
  rw [start, trimmed] at reports
  refine ⟨r, good _ rfl, reports.stands, ?_⟩
  exact reports.failures

end SourceUnit

end ComponentLint
