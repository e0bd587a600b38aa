import ComponentLint.Text.Blank
import ComponentLint.Path.Basic

/-! What stands around the script of a component. A frame is kept from the first time that a document
is read, and a changed script is put back between its two sides. -/
namespace ComponentLint.Component

/-- The two sides of a document around its script content. -/
structure Frame where
  path : Path
  before : Text
  after : Text
deriving DecidableEq, Repr, Inhabited

namespace Frame

/-- The document around a script, which is trimmed and set between single line feeds. -/
def wrap (f : Frame) (script : Text) : Text :=
  f.before ++ ['\n'] ++ script.trim ++ ['\n'] ++ f.after

def scriptStart (f : Frame) : Nat := f.before.byteSize + 1

end Frame

/-- The frames of a run, by normalized path. The first frame of a path stays. -/
structure Shelf where
  frames : List Frame := []
deriving DecidableEq, Repr, Inhabited

namespace Shelf

def get? (s : Shelf) (p : Path) : Option Frame := s.frames.find? (·.path = p.normalize)

def contains (s : Shelf) (p : Path) : Bool := (s.get? p).isSome

def size (s : Shelf) : Nat := s.frames.length

def isEmpty (s : Shelf) : Bool := s.frames.isEmpty

/-- The shelf with a frame for the path, and the frame that it then holds. -/
def insert (s : Shelf) (p : Path) (before after : Text) : Shelf × Frame :=
  match s.get? p with
  | some frame => (s, frame)
  | none =>
    let frame : Frame := ⟨p.normalize, before, after⟩
    (⟨s.frames ++ [frame]⟩, frame)

def wrap? (s : Shelf) (p : Path) (script : Text) : Option Text := (s.get? p).map (·.wrap script)

end Shelf

end ComponentLint.Component
