import ComponentLint.Run.CommandLine

/-! The program: it takes in the files below the working directory and those in the directories above it, runs
the command on them, and writes what the command changed. -/
namespace ComponentLint.Main

def contentOf (bytes : ByteArray) : Content :=
  match String.fromUTF8? bytes with
  | some s => .text s.toList
  | none => .binary

/-- The files among the entries of a directory and, where wanted, those further below. -/
partial def collect (deep : Bool) (place : Place) (entries : Array IO.FS.DirEntry) :
    IO (List (Place × FileNode)) := do
  let mut found := [(place, FileNode.directory)]
  for entry in entries do
    let here := place ++ [entry.fileName.toList]
    if ← entry.path.isDir then
      if deep then found := found ++ (← collect deep here (← entry.path.readDir))
    else found := (here, .file (contentOf (← IO.FS.readBinFile entry.path))) :: found
  return found

def placeOf (p : Path) : Place :=
  p.components.filterMap fun
    | .name s => some s
    | _ => none

/-- What is on the disk, as far as a run from the working directory looks. -/
def snapshot : IO (FileTree × Path) := do
  let directory ← IO.currentDir
  let cwd := Path.ofString directory.toString
  let mut nodes ← collect true (placeOf cwd) (← directory.readDir)
  let mut above := directory.parent
  while above.isSome do
    if let some d := above then
      nodes := nodes ++ (← collect false (placeOf (.ofString d.toString)) (← d.readDir))
      above := if d.parent = above then none else d.parent
  return (⟨nodes⟩, cwd)

/-- Writes the files that are no longer as they were. -/
def writeBack (before after : FileTree) : IO Unit :=
  for (place, node) in after.nodes do
    if let .file (.text t) := node then
      if before.node? place ≠ some node then
        IO.FS.writeFile (String.ofList ('/' :: Text.join ['/'] place)) (String.ofList t)

end ComponentLint.Main

open ComponentLint in
def main (words : List String) : IO UInt32 := do
  let (tree, cwd) ← Main.snapshot
  let (answer, after) := Command.runWords (words.map String.toList) tree cwd
  Main.writeBack tree after
  IO.print (String.ofList answer.stdout)
  IO.eprint (String.ofList answer.stderr)
  return answer.exitCode.toUInt32
