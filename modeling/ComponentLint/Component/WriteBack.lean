import ComponentLint.Component.Frame
import ComponentLint.Files.Tree

/-! The writer of fixed scripts. While it is active, a script that has a frame is written as the whole
document; otherwise texts go out as they come. -/
namespace ComponentLint

/-- Where fixed texts go: what writing a text to a path does to what is there, and whether it succeeds. -/
abbrev FileWriter (σ : Type) := Path → Text → σ → Except IoFault Unit × σ

namespace FileTree

/-- The writer of a file tree. A write that fails leaves the tree as it is. -/
def writer : FileWriter FileTree := fun path contents t =>
  match t.write path contents with
  | .error f => (.error f, t)
  | .ok t => (.ok (), t)

end FileTree

namespace Component

/-- The writer between its steps; `guards` activations have not been dropped yet. -/
structure WriteBack where
  active : Bool := false
  guards : Nat := 0
deriving DecidableEq, Repr, Inhabited

namespace WriteBack

def activate (w : WriteBack) : WriteBack := ⟨true, w.guards + 1⟩

def deactivate (w : WriteBack) : WriteBack := { w with active := false }

/-- Ends the last activation, if there is one; the writer is inactive after it. -/
def drop (w : WriteBack) : WriteBack :=
  match w.guards with
  | 0 => w
  | guards + 1 => ⟨false, guards⟩

/-- What reaches the disk when `contents` is written to `path`. -/
def outgoing (w : WriteBack) (shelf : Shelf) (path : Path) (contents : Text) : Text :=
  if w.active then (shelf.wrap? path contents).getD contents else contents

def through {σ : Type} (w : WriteBack) (shelf : Shelf) (inner : FileWriter σ) : FileWriter σ := fun path contents =>
  inner path (w.outgoing shelf path contents)

end WriteBack

end Component

end ComponentLint
