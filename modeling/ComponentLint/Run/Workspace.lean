import ComponentLint.Component.WriteBack
import ComponentLint.Lint.Linter

/-! The files of a run while they are linted one after another, and what is kept between them. -/
namespace ComponentLint

structure Workspace where
  tree : FileTree
  shelf : Component.Shelf := {}
  writer : Component.WriteBack := {}
deriving DecidableEq, Repr, Inhabited

namespace Workspace

/-- The script of the component at a path, or what is in the way: it cannot be read, or has a block too many. -/
def script (w : Workspace) (path : Path) : Except String (Option Component.Script) × Workspace :=
  match w.tree.read path with
  | .error f => (.error (HostFault.unreadable path f).message, w)
  | .ok document =>
    let (found, shelf) := Component.extract w.shelf path document
    match found with
    | .error d => (.error d.message, { w with shelf := shelf })
    | .ok script => (.ok script, { w with shelf := shelf })

/-- Whether there is something to lint at a path, which for a component is its script. -/
def admits (w : Workspace) (path : Path) : Except String Bool × Workspace :=
  if path.isComponent then
    let (found, w) := w.script path
    (found.map (·.isSome), w)
  else (.ok true, w)

section Writing

variable (write : FileWriter FileTree)

/-- Lints a unit and writes its fixes through the writer. -/
def lintUnit (w : Workspace) (l : Linter) (program : Program) (u : SourceUnit) : Except FileFault FileResult × Workspace :=
  let (result, tree) := (l.lintUnit (some program) u).deliver u.path (w.writer.through w.shelf write) w.tree
  (result, { w with tree := tree })

/-- Lints the unit of a path, and writes its fixes. There is no result where there is no file. What the program
does not have is read from the files as they are then. -/
def lintUnitAt (w : Workspace) (l : Linter) (program : Program) (path : Path)
    (host : FileTree → SourceHost := .ofTree) : Option FileResult × Workspace :=
  let (found, shelf) := unitToLint (some program) (host w.tree) w.shelf path
  let w := { w with shelf := shelf }
  match found with
  | .error f => (some (.internal path (FileFault.unreadable f).message), w)
  | .ok none => (none, w)
  | .ok (some u) =>
    match w.lintUnit write l program u with
    | (.error f, w) => (some (.internal path f.message), w)
    | (.ok result, w) => (some result, w)

/-- Lints the file at a path. The writer puts scripts back into their components only meanwhile. -/
def lintFile (w : Workspace) (l : Linter) (program : Program) (path : Path)
    (host : FileTree → SourceHost := .ofTree) : Option FileResult × Workspace :=
  let (admitted, w) := w.admits path
  match admitted with
  | .error message => (some (.internal path message), w)
  | .ok false => (none, w)
  | .ok true =>
    let (result, w) := { w with writer := w.writer.activate }.lintUnitAt write l program path host
    (result, { w with writer := w.writer.drop })

def lintFiles (w : Workspace) (l : Linter) (program : Program) (files : List Path)
    (host : FileTree → SourceHost := .ofTree) : List FileResult × Workspace :=
  match files with
  | [] => ([], w)
  | path :: rest =>
    let (result, w) := w.lintFile write l program path host
    let (results, w) := w.lintFiles l program rest host
    (result.toList ++ results, w)

end Writing

end Workspace

end ComponentLint
