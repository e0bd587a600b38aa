import ComponentLint.Text.Basic

/-! Slash-separated paths. A path keeps its spelling; its components are what it means, and two paths
with the same components are the same place. `normalize` folds `.` and `..` without looking at files. -/
namespace ComponentLint

structure Path where
  chars : Text
deriving DecidableEq, Repr, Inhabited

namespace Path

/-- A step of a path. A leading `.` counts; elsewhere it does not, and neither do repeated slashes. -/
inductive Component where
  | root
  | current
  | parent
  | name (chars : Text)
deriving DecidableEq, Repr, Inhabited

def ofString (s : String) : Path := ⟨s.toList⟩

def toString (p : Path) : String := String.ofList p.chars

def isAbsolute (p : Path) : Bool := p.chars.head? = some '/'

namespace Component

def ofSegment? (segment : Text) : Option Component :=
  if segment = [] ∨ segment = ['.'] then none
  else if segment = ['.', '.'] then some .parent
  else some (.name segment)

def chars : Component → Text
  | root => ['/']
  | current => ['.']
  | parent => ['.', '.']
  | name s => s

def rank : Component → Nat
  | root => 0
  | current => 1
  | parent => 2
  | name _ => 3

def before (a b : Component) : Bool :=
  a.rank < b.rank || (a.rank = b.rank && a.chars.before b.chars)

end Component

def components (p : Path) : List Component :=
  let segments := p.chars.splitOn '/'
  let steps := segments.filterMap Component.ofSegment?
  if p.isAbsolute then .root :: steps
  else if segments.head? = some ['.'] then .current :: steps
  else steps

def same (p q : Path) : Bool := p.components = q.components

def componentsBefore : List Component → List Component → Bool
  | _, [] => false
  | [], _ :: _ => true
  | a :: s, b :: t => a.before b || (a = b && componentsBefore s t)

/-- Component-wise order: a directory stands before what is in it. -/
def before (p q : Path) : Bool := componentsBefore p.components q.components

def ofComponents : List Component → Path
  | .root :: rest => ⟨'/' :: Text.join ['/'] (rest.map Component.chars)⟩
  | steps => ⟨Text.join ['/'] (steps.map Component.chars)⟩

/-- An absolute `q` stands for itself; otherwise it is put behind `p` with one slash between. -/
def join (p q : Path) : Path :=
  if q.isAbsolute then q
  else if p.chars = [] ∨ p.chars.getLast? = some '/' then ⟨p.chars ++ q.chars⟩
  else ⟨p.chars ++ '/' :: q.chars⟩

/-- One step on a stack of components whose top is at the head. -/
def foldStep (stack : List Component) : Component → List Component
  | .current => stack
  | .parent =>
    match stack with
    | .name _ :: below => below
    | .root :: below => .root :: below
    | _ => .parent :: stack
  | c => c :: stack

def foldComponents (steps : List Component) : List Component :=
  (steps.foldl foldStep []).reverse

/-- `..` takes back the name before it, stays at the root, and is kept at the start of a relative path. -/
def normalize (p : Path) : Path := ofComponents (foldComponents p.components)

/-- Drops the slashes and the single dots that a path ends in, up to its root. -/
def trimTail : Text → Text
  | '/' :: rest => trimTail rest
  | ['.'] => ['.']
  | '.' :: '/' :: rest => trimTail rest
  | reversed => reversed

/-- The path above, or none at a root and for the empty path. -/
def parent? (p : Path) : Option Path :=
  match p.components.getLast? with
  | none => none
  | some .root => none
  | some last =>
    let reversed := trimTail p.chars.reverse
    let above := trimTail (reversed.drop last.chars.length)
    some (if p.isAbsolute ∧ above = [] then ⟨['/']⟩ else ⟨above.reverse⟩)

def fileName? (p : Path) : Option Text :=
  match p.components.getLast? with
  | some (.name s) => some s
  | _ => none

/-- What follows the last dot of a name; a dot at its start does not count. -/
def extensionOfName (name : Text) : Option Text :=
  let reversed := name.reverse
  match reversed.dropWhile (· ≠ '.') with
  | [] => none
  | [_] => none
  | _ :: _ => some (reversed.takeWhile (· ≠ '.')).reverse

def extension? (p : Path) : Option Text := p.fileName?.bind extensionOfName

/-- The path and all the paths above it, nearest first. -/
def ancestors (p : Path) : List Path := go p.chars.length p
where
  go : Nat → Path → List Path
    | 0, p => [p]
    | n + 1, p => p :: match p.parent? with
      | some above => go n above
      | none => []

/-- Whether the components of `p` begin with those of `base`. -/
def isBelow (base p : Path) : Bool := base.components.isPrefixOf p.components

/-- The components of `p` behind those of `base`. -/
def relativeTo? (base p : Path) : Option Path :=
  if base.isBelow p then some (ofComponents (p.components.drop base.components.length)) else none

end Path

end ComponentLint
