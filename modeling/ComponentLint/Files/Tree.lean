import ComponentLint.Path.Basic
import ComponentLint.Sorting

/-! A tree of files without links. A place is the list of names from the root; every name on the way to
a file is a directory. Paths are walked name by name, so `..` behind a file or a missing name fails. -/
namespace ComponentLint

inductive IoFault where
  | notFound
  | notDirectory
  | isDirectory
  | notText
  /-- A fault that the host of the files words itself. -/
  | other (message : String)
deriving DecidableEq, Repr, Inhabited

namespace IoFault

def message : IoFault → String
  | notFound => "No such file or directory (os error 2)"
  | notDirectory => "Not a directory (os error 20)"
  | isDirectory => "Is a directory (os error 21)"
  | notText => "stream did not contain valid UTF-8"
  | other message => message

end IoFault

inductive Content where
  | text (t : Text)
  /-- Bytes that are no text. -/
  | binary
deriving DecidableEq, Repr, Inhabited

inductive FileNode where
  | file (content : Content)
  | directory
deriving DecidableEq, Repr, Inhabited

abbrev Place := List Text

structure FileTree where
  nodes : List (Place × FileNode) := []
deriving DecidableEq, Repr, Inhabited

namespace FileTree

def isStrictlyBelow (base place : Place) : Bool := base.length < place.length && base.isPrefixOf place

/-- What stands at a place; a place on the way to another one is a directory. -/
def node? (t : FileTree) (place : Place) : Option FileNode :=
  match t.nodes.lookup place with
  | some n => some n
  | none => if place = [] || t.nodes.any (fun n => isStrictlyBelow place n.1) then some .directory else none

/-- Walks from a place along the segments of a path. -/
def walk (t : FileTree) (place : Place) : List Text → Except IoFault Place
  | [] => .ok place
  | segment :: rest =>
    match t.node? place with
    | none => .error .notFound
    | some (.file _) => .error .notDirectory
    | some .directory =>
      if segment = [] ∨ segment = ['.'] then walk t place rest
      else if segment = ['.', '.'] then walk t place.dropLast rest
      else walk t (place ++ [segment]) rest

def lookup (t : FileTree) (p : Path) : Except IoFault FileNode :=
  match t.walk [] (p.chars.splitOn '/') with
  | .error f => .error f
  | .ok place =>
    match t.node? place with
    | none => .error .notFound
    | some n => .ok n

def isFile (t : FileTree) (p : Path) : Bool :=
  match t.lookup p with
  | .ok (.file _) => true
  | _ => false

def isDirectory (t : FileTree) (p : Path) : Bool :=
  match t.lookup p with
  | .ok .directory => true
  | _ => false

def isThere (t : FileTree) (p : Path) : Bool :=
  match t.lookup p with
  | .ok _ => true
  | .error _ => false

def read (t : FileTree) (p : Path) : Except IoFault Text :=
  match t.lookup p with
  | .error f => .error f
  | .ok .directory => .error .isDirectory
  | .ok (.file .binary) => .error .notText
  | .ok (.file (.text s)) => .ok s

/-- The tree with a node at a place, in the position of the node that stood there. -/
def put (place : Place) (n : FileNode) : List (Place × FileNode) → List (Place × FileNode)
  | [] => [(place, n)]
  | (k, m) :: rest => if k = place then (k, n) :: rest else (k, m) :: put place n rest

def set (t : FileTree) (place : Place) (n : FileNode) : FileTree := ⟨put place n t.nodes⟩

/-- Removes a file; the directories on the way to it stay. -/
def remove (t : FileTree) (place : Place) : FileTree :=
  ⟨put place.dropLast .directory (t.nodes.filter (·.1 ≠ place))⟩

/-- The place that a path written to leads to, if its directory is there. -/
def target (t : FileTree) (p : Path) : Except IoFault Place :=
  match t.walk [] (p.chars.splitOn '/') with
  | .error f => .error f
  | .ok place =>
    match t.node? place with
    | some .directory => .error .isDirectory
    | some (.file _) => .ok place
    | none =>
      match t.node? place.dropLast with
      | some .directory => .ok place
      | some (.file _) => .error .notDirectory
      | none => .error .notFound

def write (t : FileTree) (p : Path) (contents : Text) : Except IoFault FileTree :=
  match t.target p with
  | .error f => .error f
  | .ok place => .ok (t.set place (.file (.text contents)))

/-- The names in a directory, each once, in code-point order. -/
def children (t : FileTree) (place : Place) : List Text :=
  let names := t.nodes.filterMap fun n =>
    if isStrictlyBelow place n.1 then (n.1.drop place.length).head? else none
  Sorting.sort (fun a b => !b.before a) names.eraseDups

def list (t : FileTree) (p : Path) : List Text :=
  match t.walk [] (p.chars.splitOn '/') with
  | .error _ => []
  | .ok place => t.children place

/-- The length of the longest place, which bounds how deep directories nest. -/
def depth (t : FileTree) : Nat := t.nodes.foldl (fun d n => max d n.1.length) 0

end FileTree

end ComponentLint
