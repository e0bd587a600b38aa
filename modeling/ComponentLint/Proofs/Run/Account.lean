import ComponentLint.Run.CommandLine
import ComponentLint.Proofs.Report.Entries
import ComponentLint.Proofs.Report.Output

/-! What a run says of its results. The counts, the forms of the report, the word of success and the exit code are taken
from the report separately; they agree, for the counts of a report are those of its results. -/
namespace ComponentLint

namespace LintArgs

/-! ## The exit code -/

theorem conclude_exitCode (a : LintArgs) (base : Path) (results : List FileResult) :
    (a.conclude base results).exitCode = 1 ↔
      (∃ result ∈ results, result.hasFailures = true) ∧ a.force = false := by
  have has := (Report.ofResults_tallies results).hasFailures_iff
  rw [Report.ofResults_results] at has
  rw [← has, conclude]
  simp

/-- What comes of a run is what its results come to. -/
theorem runThrough_concludes {a : LintArgs} {write : FileWriter FileTree} {tree tree' : FileTree} {cwd : Path}
    {parse : TypeScript.Parsing} {out : RunResult} (h : a.runThrough write tree cwd parse = (.ok out, tree')) :
    out = a.conclude cwd.normalize out.report.results := by
  obtain ⟨p, -, rfl, -⟩ := runThrough_eq_ok h
  exact congrArg (a.conclude cwd.normalize) (Report.ofResults_results _).symm

/-- The command tells by its exit code that a failure was found, except where it is forced; a run that cannot start has
another exit code. -/
theorem run_exitCode (a : LintArgs) (tree : FileTree) (cwd : Path) (parse : TypeScript.Parsing) :
    ((Command.lint a).run tree cwd parse).1.exitCode = 1 ↔ ∃ out, (a.run tree cwd parse).1 = .ok out ∧
      (∃ result ∈ out.report.results, result.hasFailures = true) ∧ a.force = false := by
  rw [Command.run]
  cases ran : a.run tree cwd parse with
  | mk outcome tree' =>
    cases outcome with
    | error f => simp [Command.complaint]
    | ok out =>
      have concludes := runThrough_concludes ran
      have code := conclude_exitCode a cwd.normalize out.report.results
      rw [← concludes] at code
      simp [code]

/-- However many results are pushed into a report, its counts are theirs; the entries for other programs, the lines of
the prose, the word of success and the exit code tell of the same failures and fixes. Texts without a line feed are lines
of their own, and counts that fit into 64 bits are read back. What comes of a run is what its results come to, however
scripts are read. -/
theorem run_accounts (a : LintArgs) (results : List FileResult) (base : Path) :
    let r := Report.ofResults results
    r.results = results ∧ r.Tallies ∧ (∃ entries, r.Lists base entries) ∧
      ((∀ result ∈ results, result.IsFlat) → Text.lines (r.prose base) = Report.fixedLines base results ++
        Report.gap (Report.fixedLines base results) (Report.failureLines base results) ++
          Report.failureLines base results) ∧
      (∀ format, r.output base format = Report.success ↔
        (∀ result ∈ results, result.failures = [] ∧ result.fixesApplied = 0) ∧ format ≠ .json) ∧
      ((a.conclude base results).exitCode = 1 ↔
        (∃ result ∈ results, result.hasFailures = true) ∧ a.force = false) ∧
      ∀ tree cwd parse, (((Command.lint a).run tree cwd parse).1.exitCode = 1 ↔
          ∃ out, (a.run tree cwd parse).1 = .ok out ∧
            (∃ result ∈ out.report.results, result.hasFailures = true) ∧ a.force = false) ∧
        ∀ out, (a.run tree cwd parse).1 = .ok out → out = a.conclude cwd.normalize out.report.results := by
  intro r
  have kept : r.results = results := Report.ofResults_results results
  have tallies : r.Tallies := Report.ofResults_tallies results
  refine ⟨kept, tallies, ⟨_, tallies.lists base⟩, fun flat => ?_, fun format => ?_, a.conclude_exitCode base results,
    fun tree cwd parse => ⟨a.run_exitCode tree cwd parse, fun out ran => ?_⟩⟩
  · rw [Report.lines_prose (by rwa [kept]) base, kept]
  · rw [tallies.output_eq_success_iff, Report.IsQuiet, kept]
  · exact runThrough_concludes (Prod.ext ran rfl)

theorem run_accounts_mixed :
    let at_ (line column : Nat) : Position := ⟨line, column⟩
    let lost : Failure := ⟨"lost", .error, "it is lost", none, ⟨1, 2⟩, at_ 1 2, at_ 1 3, true⟩
    let odd : Failure := ⟨"odd", .warning, "it is odd", none, ⟨4, 4⟩, at_ 3 1, at_ 3 1, false⟩
    let file (path : String) (failures : List Failure) (fixes : Nat) : FileResult := ⟨.ofString path, [], failures, fixes⟩
    let results := [file "/p/a.ts" [] 2, file "/p/b.ts" [] 0, file "/p/C.vue" [lost, odd] 1, file "/q/d.ts" [odd] 0]
    let base : Path := .ofString "/p"
    let r := Report.ofResults results
    let tree : FileTree := ⟨[(["tsconfig.json".toList], .file (.text "\x7b\x7d".toList)),
      (["A.vue".toList], .file (.text "<script lang='ts'>import a from 'a'\nb()</script>".toList))]⟩
    let a : LintArgs := { patterns := ["*.vue".toList], noFix := true }
    Text.lines (r.prose base) = ["Fixed 2 error(s) in a.ts\n", "Fixed 1 error(s) in C.vue\n", "\n",
      "ERROR: C.vue[1, 2]: it is lost\n", "WARNING: C.vue[3, 1]: it is odd\n",
      "WARNING: /q/d.ts[3, 1]: it is odd\n"].map String.toList ∧
    r.summary = ⟨1, 2, 3, 4⟩ ∧
    (∃ entries, Json.Reading.document (Json.Reading.value Json.Value.depthLimit) (r.json base) = .ok (.list entries) ∧
      entries.length = 2 ∧ (entries.map (·.countAt "errorCount")).sum = 1 ∧
      (entries.map (·.countAt "warningCount")).sum = 2) ∧
    (∀ format, r.output base format ≠ Report.success) ∧
    ∃ out, (a.run tree ⟨['/']⟩).1 = .ok out ∧ out = a.conclude ⟨['/']⟩ out.report.results ∧ out.exitCode = 1 := by
  intro at_ lost odd file results base r tree a
  obtain ⟨kept, -, ⟨entries, lists⟩, lines, said, -, runs⟩ := run_accounts a results base
  obtain ⟨-, concludes⟩ := runs tree ⟨['/']⟩ TypeScript.Module.ofText
  have flat : ∀ result ∈ results, result.IsFlat := by decide
  have fits : ∀ result ∈ r.results, result.Fits := by decide
  have loud : ¬∀ result ∈ results, result.failures = [] ∧ result.fixesApplied = 0 := by decide
  have codes : (a.run tree ⟨['/']⟩).1.toOption.map (·.exitCode) = some 1 := by decide +kernel
  refine ⟨(lines flat).trans (by decide), by decide, ⟨entries, lists.readBack fits, ?_, ?_, ?_⟩,
    fun format quiet => loud ((said format).1 quiet).1, ?_⟩
  · exact lists.each.length_eq.symm.trans (by decide)
  · exact lists.errors.trans (by decide)
  · exact lists.warnings.trans (by decide)
  · cases outcome : (a.run tree ⟨['/']⟩).1 with
    | error f => simp [outcome, Except.toOption] at codes
    | ok out => exact ⟨out, rfl, concludes out outcome, by simpa [outcome, Except.toOption] using codes⟩

end LintArgs

end ComponentLint
