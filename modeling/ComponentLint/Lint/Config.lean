import ComponentLint.Json.Shape
import ComponentLint.Files.Tree
import ComponentLint.Lint.Diagnostic

/-! The lint configuration: a setting per rule, the files to leave out, and one option. -/
namespace ComponentLint

/-- What a configuration says about a rule. -/
inductive RuleSetting where
  | default
  | off
  | severity (s : Severity)
deriving DecidableEq, Repr, Inhabited

structure LintConfig where
  schema : Option Text := none
  /-- Settings by rule name, in name order. -/
  rules : List (Text × RuleSetting) := []
  exclude : List Text := []
  compositeBlankLines : Bool := false
deriving DecidableEq, Repr, Inhabited

namespace LintConfig

def defaultName : String := "vernis.json"

inductive Fault where
  | unreadable (path : Path) (fault : IoFault)
  | invalidJson (path : Path) (fault : Json.Fault)
deriving DecidableEq, Repr, Inhabited

namespace Fault

def message : Fault → String
  | unreadable p f => s!"failed to read lint config {p.toString}: {f.message}"
  | invalidJson p f => s!"invalid lint config {p.toString}: {f.message}"

end Fault

open Json Json.Reading

def levelNamed? (name : Text) : Option RuleSetting :=
  match String.ofList name with
  | "default" => some .default
  | "error" => some (.severity .error)
  | "warning" => some (.severity .warning)
  | "warn" => some (.severity .warning)
  | "off" => some .off
  | "none" => some .off
  | _ => none

/-- A level by name; an object with the name alone and nothing in it says the same. -/
def level? : Value → Option RuleSetting
  | .string name => levelNamed? name
  | .object [(name, .null)] => levelNamed? name
  | _ => none

/-- A rule is switched, given a level, or given an object with its one severity. -/
def setting? : Value → Option RuleSetting
  | .bool true => some .default
  | .bool false => some .off
  | .object members =>
    (level? (.object members)).or
      (match members.filter (·.1 = "severity".toList) with
      | [(_, v)] => level? v
      | _ => none)
  | v => level? v

def linterOptions (c : LintConfig) : Reading LintConfig :=
  record "LinterOptions"
    [ { name := "exclude", required := false, read := fun c => do return { c with exclude := ← list text } },
      { name := "compositeBlankLines", required := false,
        read := fun c => do return { c with compositeBlankLines := ← bool } } ] c

def reader : Reading LintConfig :=
  record "VernisConfig"
    [ { name := "$schema", required := false, read := fun c => do return { c with schema := ← optional text } },
      { name := "rules", required := false,
        read := fun c => do
          let table ← map (deciding 2 "RuleConfig" setting?)
          return { c with rules := Sorting.sort (fun a b => !b.1.before a.1) table } },
      { name := "linterOptions", required := false, read := linterOptions } ] {}

def ofText (contents : Text) (path : Path) : Except Fault LintConfig :=
  match Json.Reading.document reader contents with
  | .ok c => .ok c
  | .error f => .error (.invalidJson path f)

/-- Reads the configuration at a path; without a file, the default unless one is required. -/
def load (tree : FileTree) (path : Path) (required : Bool) : Except Fault LintConfig :=
  if !required && !tree.isThere path then .ok {}
  else
    match tree.read path with
    | .error f => .error (.unreadable path f)
    | .ok contents => ofText contents path

end LintConfig

end ComponentLint
