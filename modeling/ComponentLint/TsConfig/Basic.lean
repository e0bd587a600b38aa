import ComponentLint.Json.Shape
import ComponentLint.Path.Basic
import ComponentLint.Files.Tree

/-! A TypeScript project file: its options, and the patterns that say which files it means. -/
namespace ComponentLint

/-- An entry of the alias table: a pattern and the targets it may stand for. -/
structure PathMapping where
  pattern : Text
  targets : List Text
deriving DecidableEq, Repr, Inhabited

structure TsConfig where
  path : Path
  /-- The directory that holds the file. -/
  root : Path
  baseUrl : Option Path := none
  paths : Option (List PathMapping) := none
  target : Option Text := none
  includes : Option (List Text) := none
  excludes : Option (List Text) := none
  files : Option (List Text) := none
deriving DecidableEq, Repr, Inhabited

namespace TsConfig

inductive Fault where
  | invalidJson (path : Path) (fault : Json.Fault)
  | unreadable (path : Path) (fault : IoFault)
  | circular (path : Path)
  | invalidInclude (path : Path) (pattern : Text) (message : String)
deriving DecidableEq, Repr, Inhabited

namespace Fault

def path : Fault → Path
  | invalidJson p _ => p
  | unreadable p _ => p
  | circular p => p
  | invalidInclude p _ _ => p

def reason : Fault → String
  | invalidJson _ f => s!"JSON parse error: {f.message}"
  | unreadable _ f => f.message
  | circular _ => "circular `extends`"
  | invalidInclude _ pattern message => s!"invalid include pattern {String.ofList pattern.quoted}: {message}"

def message (f : Fault) : String := s!"invalid tsconfig {f.path.toString}: {f.reason}"

end Fault

/-- The file as it is written. -/
structure Raw where
  extending : Option (List Text) := none
  baseUrl : Option Text := none
  paths : Option (List (Text × Json.Value)) := none
  target : Option Text := none
  includes : Option (List Text) := none
  excludes : Option (List Text) := none
  files : Option (List Text) := none
deriving Repr, Inhabited

namespace Raw

open Json Json.Reading

def texts? : List Value → Option (List Text) :=
  List.mapM fun
    | .string s => some s
    | _ => none

/-- One base or several. -/
def extending? : Value → Option (List Text)
  | .string s => some [s]
  | .list items => texts? items
  | _ => none

def compilerOptions (r : Raw) : Reading Raw :=
  record "RawCompilerOptions"
    [ { name := "baseUrl", required := true, read := fun r => do return { r with baseUrl := ← optional text } },
      { name := "paths", required := true,
        read := fun r => do return { r with paths := ← optional (map (value (Value.depthLimit - 3))) } },
      { name := "target", required := true, read := fun r => do return { r with target := ← optional text } } ] r

def reader : Reading Raw :=
  record "RawTsConfig"
    [ { name := "extends", required := true,
        read := fun r => do return { r with extending := ← optional (deciding 1 "RawExtends" extending?) } },
      { name := "compilerOptions", required := false, read := compilerOptions },
      { name := "include", required := true, read := fun r => do return { r with includes := ← optional (list text) } },
      { name := "exclude", required := true, read := fun r => do return { r with excludes := ← optional (list text) } },
      { name := "files", required := true, read := fun r => do return { r with files := ← optional (list text) } } ] {}

end Raw

def targetsOf : Json.Value → List Text
  | .list items => items.filterMap fun
    | .string s => some s
    | _ => none
  | .string s => [s]
  | _ => []

def ofRaw (raw : Raw) (path : Path) : TsConfig :=
  let path := path.normalize
  let root := path.parent?.getD ⟨['/']⟩
  { path := path, root := root,
    baseUrl := raw.baseUrl.map fun base => (root.join ⟨base⟩).normalize,
    paths := raw.paths.map fun table => table.map fun (pattern, value) => ⟨pattern, targetsOf value⟩,
    target := raw.target, includes := raw.includes, excludes := raw.excludes, files := raw.files }

def readRaw (contents : Text) (path : Path) : Except Fault Raw :=
  match Json.Reading.document Raw.reader contents with
  | .ok raw => .ok raw
  | .error f => .error (.invalidJson path f)

/-- The project file with the given content; what it extends is not followed. -/
def ofText (contents : Text) (path : Path) : Except Fault TsConfig :=
  match readRaw contents path with
  | .ok raw => .ok (ofRaw raw path)
  | .error f => .error f

/-- The directory that alias targets are relative to. -/
def baseDirectory (c : TsConfig) : Path := c.baseUrl.getD c.root

end TsConfig

end ComponentLint
