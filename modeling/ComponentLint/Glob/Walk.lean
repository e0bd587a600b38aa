import ComponentLint.Files.Tree
import ComponentLint.Glob.Pattern

/-! The paths of a tree that an absolute pattern matches. Components without wildcards are looked up;
for the others the names of a directory are taken in order, and each is followed to the end before the
next. A `**` at the end of a pattern yields directories only. -/
namespace ComponentLint.Glob

structure Walk where
  tree : FileTree
  options : Options
  /-- The pattern ends in a slash, so only directories count. -/
  directoriesOnly : Bool

namespace Walk

def yields (w : Walk) (p : Path) : List Path :=
  if !w.directoriesOnly || w.tree.isDirectory p then [p] else []

/-- The entries of a directory that wildcards may stand for. -/
def entries (w : Walk) (p : Path) : List Text :=
  if w.tree.isDirectory p then
    (w.tree.list p).filter fun name => !(w.options.leadingDot && name.head? = some '.')
  else []

/-- The names of the directory itself and the one above it, which need a dot in the pattern. -/
def specials (w : Walk) (pattern : Pattern) (p : Path) : List Text :=
  if w.tree.isDirectory p && pattern.tokens.head? = some (.char '.') then
    [['.', '.'], ['.']].filter (pattern.covers w.options)
  else []

/-- Goes through a directory and all directories below it, `levels` deep; `here` says what is found at
an entry and its name before the entries below it. -/
def descend (w : Walk) (here : Path → Text → List Path) (base : Path) : Nat → List Path
  | 0 => []
  | levels + 1 =>
    (w.entries base).flatMap fun name =>
      let p := base.join ⟨name⟩
      here p name ++ descend w here p levels

/-- The matches of an entry by the first of the patterns, followed into the others. -/
def enter (w : Walk) (follow : Path → List Path) (pattern : Pattern) (last : Bool) (p : Path) (name : Text) :
    List Path :=
  if pattern.covers w.options name then if last then w.yields p else follow p else []

/-- The matches below a path for the components of a pattern. -/
def expand (w : Walk) : List Pattern → Path → List Path
  | [], _ => []
  | pattern :: rest, base =>
    let found (p : Path) : List Path := if rest = [] then w.yields p else expand w rest p
    match pattern.plain? with
    | some name =>
      let p := base.join ⟨name⟩
      if name = ['.'] ∨ name = ['.', '.'] then if w.tree.isDirectory base then found p else []
      else if w.tree.isThere p then found p else []
    | none =>
      if pattern.isRecursive then
        match rest with
        | [] => w.descend (fun p _ => if w.tree.isDirectory p then [p] else []) base (w.tree.depth + 1)
        | next :: others =>
          if next.isRecursive then expand w (next :: others) base
          else
            w.descend (w.enter (expand w others) next (others = [])) base (w.tree.depth + 1)
      else
        ((w.specials pattern base).flatMap fun name => found (base.join ⟨name⟩)) ++
          (w.entries base).flatMap fun name =>
            let p := base.join ⟨name⟩
            w.enter (expand w rest) pattern (rest = []) p name

end Walk

/-- The components of a pattern behind its root. -/
def componentTexts (pattern : Text) : List Text :=
  let behind := if pattern.head? = some '/' then pattern.drop 1 else pattern
  let pieces := behind.splitOn '/'
  if pieces.getLast? = some [] then pieces.dropLast else pieces

/-- The paths that an absolute pattern matches, in the order of the walk. -/
def paths (tree : FileTree) (o : Options) (pattern : Text) : Except PatternFault (List Path) := do
  let _ ← Pattern.ofText pattern
  let components ← (componentTexts pattern).mapM Pattern.ofText
  let walk : Walk := ⟨tree, o, pattern.getLast? = some '/'⟩
  return walk.expand components ⟨['/']⟩

end ComponentLint.Glob
