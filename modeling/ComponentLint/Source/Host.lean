import ComponentLint.Component.Script
import ComponentLint.Files.Tree
import ComponentLint.Source.Unit

/-! Where units come from. Component documents are served as their script, and the frame around it is
shelved; everything else is served as it is. -/
namespace ComponentLint

inductive HostFault where
  | unreadable (path : Path) (fault : IoFault)
deriving DecidableEq, Repr, Inhabited

namespace HostFault

def message : HostFault → String
  | unreadable p f => s!"failed to read {p.toString}: {f.message}"

end HostFault

/-- A source of whole files. -/
structure SourceHost where
  /-- The unit of a file; none where there is no file. -/
  read : Path → Except HostFault (Option SourceUnit)
  hasFile : Path → Bool
  hasDirectory : Path → Bool

namespace SourceHost

def ofTree (tree : FileTree) : SourceHost where
  read p :=
    match tree.read p with
    | .ok text => .ok (some (SourceUnit.ofFile p text))
    | .error .notFound => .ok none
    | .error f => .error (.unreadable p f)
  hasFile := tree.isFile
  hasDirectory := tree.isDirectory

/-- Files and directories by path, in any spelling; a file without text cannot be read. -/
def ofLists (files : List (Path × Option Text)) (directories : List Path) : SourceHost where
  read p :=
    match files.find? (·.1.same p) with
    | none => .ok none
    | some (_, some text) => .ok (some (SourceUnit.ofFile p text))
    | some (_, none) => .error (.unreadable p (.other "unreadable"))
  hasFile p := files.any (·.1.same p)
  hasDirectory p := directories.any (·.same p)

end SourceHost

namespace SourceUnit

/-- The unit of the script in a component document. A document without a lintable script, or with a
block too many, has an empty one. -/
def ofComponent (shelf : Component.Shelf) (file : SourceUnit) : SourceUnit × Component.Shelf :=
  let (found, shelf) := Component.extract shelf file.path file.text
  match found with
  | .ok (some s) =>
    ({ path := file.path, text := s.content, kind := if s.isTsx then .tsx else .ts,
       origin := some ⟨file.text, s.span.start⟩ }, shelf)
  | _ => ({ path := file.path, text := [], kind := .ts, origin := some ⟨file.text, 0⟩ }, shelf)

end SourceUnit

namespace SourceHost

/-- Reads a unit, components by their script. -/
def readUnit (h : SourceHost) (shelf : Component.Shelf) (p : Path) :
    Except HostFault (Option SourceUnit) × Component.Shelf :=
  match h.read p with
  | .error f => (.error f, shelf)
  | .ok none => (.ok none, shelf)
  | .ok (some u) =>
    if p.isComponent then
      let (u, shelf) := SourceUnit.ofComponent shelf u
      (.ok (some u), shelf)
    else (.ok (some u), shelf)

end SourceHost

end ComponentLint
