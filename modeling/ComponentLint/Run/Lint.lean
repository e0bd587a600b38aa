import ComponentLint.Program.Build
import ComponentLint.Program.Scan
import ComponentLint.Report.Format
import ComponentLint.Run.Discovery
import ComponentLint.Run.Workspace
import ComponentLint.TsConfig.Extends

/-! A run over the files of a project: what is asked for, and what comes of it. -/
namespace ComponentLint

structure LintArgs where
  patterns : List Text := []
  project : Path := .ofString "tsconfig.json"
  config : Option Path := none
  format : ReportFormat := .text
  noFix : Bool := false
  force : Bool := false
  silent : Bool := false
deriving DecidableEq, Repr, Inhabited

namespace LintArgs

/-- What is linted when no pattern is given. -/
def defaultPatterns : List Text :=
  ["src/**/*.ts", "src/**/*.vue", "src/**/*.tsx", "tests/**/*.ts", "tests/**/*.tsx"].map String.toList

def patternsOrDefault (a : LintArgs) : List Text := if a.patterns = [] then defaultPatterns else a.patterns

end LintArgs

/-- What keeps a run from linting anything. -/
inductive RunFault where
  | config (fault : LintConfig.Fault)
  | project (fault : TsConfig.Fault)
  | pattern (fault : Discovery.Fault)
deriving DecidableEq, Repr, Inhabited

namespace RunFault

def message : RunFault → String
  | config f => f.message
  | project f => f.message
  | pattern f => f.message

end RunFault

structure RunResult where
  report : Report
  output : Text
  exitCode : Nat
deriving DecidableEq, Repr, Inhabited

namespace LintArgs

/-- The configuration of the linter: the one asked for, or the usual one if it is there. -/
def loadConfig (a : LintArgs) (tree : FileTree) (cwd : Path) : Except RunFault LintConfig :=
  let loaded := match a.config with
    | some path => LintConfig.load tree (cwd.join path) true
    | none => LintConfig.load tree (cwd.join (.ofString LintConfig.defaultName)) false
  loaded.mapError .config

/-- What is known before the first file is linted. -/
structure Plan where
  linter : Linter
  program : Program
  files : List Path
  shelf : Component.Shelf

/-- Reads the configuration and the project, whose scripts are read by `parse`. -/
def plan (a : LintArgs) (tree : FileTree) (cwd : Path) (parse : TypeScript.Parsing := TypeScript.Module.ofText) :
    Except RunFault Plan := do
  let config ← a.loadConfig tree cwd
  let project ← (TsConfig.load tree (cwd.join a.project)).mapError .project
  let files ← (Discovery.discover tree cwd a.patternsOrDefault config.exclude).mapError .pattern
  let (program, shelf) ← (Program.build (.scanWith parse) tree {} project).mapError .project
  return ⟨.ofConfig config (!a.noFix) parse, program, files, shelf⟩

/-- Sums up the results of a run. -/
def conclude (a : LintArgs) (cwd : Path) (results : List FileResult) : RunResult :=
  let report := Report.ofResults results
  { report := report
    output := if a.silent then [] else report.output cwd a.format
    exitCode := if report.hasFailures && !a.force then 1 else 0 }

/-- Lints a project and fixes it, handing what is written to a writer. A run that cannot start changes nothing. -/
def runThrough (a : LintArgs) (write : FileWriter FileTree) (tree : FileTree) (cwd : Path)
    (parse : TypeScript.Parsing := TypeScript.Module.ofText) : Except RunFault RunResult × FileTree :=
  let cwd := cwd.normalize
  match a.plan tree cwd parse with
  | .error f => (.error f, tree)
  | .ok p =>
    let (results, w) := ({ tree := tree, shelf := p.shelf } : Workspace).lintFiles write p.linter p.program p.files
    (.ok (a.conclude cwd results), w.tree)

def run (a : LintArgs) (tree : FileTree) (cwd : Path) (parse : TypeScript.Parsing := TypeScript.Module.ofText) :
    Except RunFault RunResult × FileTree :=
  a.runThrough FileTree.writer tree cwd parse

/-- A run that succeeds has a plan; it lints the files of the plan, and what comes of them is summed up. -/
theorem runThrough_eq_ok {a : LintArgs} {write : FileWriter FileTree} {tree tree' : FileTree} {cwd : Path}
    {parse : TypeScript.Parsing} {out : RunResult} (h : a.runThrough write tree cwd parse = (.ok out, tree')) :
    ∃ p, a.plan tree cwd.normalize parse = .ok p ∧
      let linted := ({ tree := tree, shelf := p.shelf } : Workspace).lintFiles write p.linter p.program p.files
      out = a.conclude cwd.normalize linted.1 ∧ tree' = linted.2.tree := by
  rw [runThrough] at h
  cases planned : a.plan tree cwd.normalize parse with
  | error f => simp [planned] at h
  | ok p =>
    simp only [planned] at h
    obtain ⟨concluded, rfl⟩ := Prod.mk.inj h
    obtain rfl := Except.ok.inj concluded
    exact ⟨p, rfl, rfl, rfl⟩

end LintArgs

end ComponentLint
