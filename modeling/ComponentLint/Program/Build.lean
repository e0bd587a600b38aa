import ComponentLint.Program.Basic
import ComponentLint.TsConfig.FileSet

/-! The program of a project: its file set, read and linked. -/
namespace ComponentLint.Program

/-- Reads units one after another. What cannot be read is left out. -/
def readAll (host : SourceHost) : Component.Shelf → List Path → List SourceUnit × Component.Shelf
  | shelf, [] => ([], shelf)
  | shelf, p :: rest =>
    let (found, shelf) := host.readUnit shelf p
    let (units, shelf) := readAll host shelf rest
    match found with
    | .ok (some u) => (u :: units, shelf)
    | _ => (units, shelf)

/-- Builds the program of a configuration over a tree of files. -/
def build (read : Reader) (tree : FileTree) (shelf : Component.Shelf) (c : TsConfig) :
    Except TsConfig.Fault (Program × Component.Shelf) := do
  let files ← c.fileNames tree
  let host := SourceHost.ofTree tree
  let (units, shelf) := readAll host shelf files
  let linked := ofUnits read (.ofTable c.baseDirectory c.paths) host units
  return ({ linked with target := c.target }, shelf)

end ComponentLint.Program
