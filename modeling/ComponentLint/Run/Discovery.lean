import ComponentLint.Glob.Walk

/-! The files of a lint run: what the patterns find from the working directory, without the excluded,
each file where it is found first. -/
namespace ComponentLint.Discovery

/-- A pattern that is none. -/
structure Fault where
  pattern : Text
  fault : Glob.PatternFault
deriving DecidableEq, Repr, Inhabited

namespace Fault

def message (f : Fault) : String :=
  s!"invalid file pattern '{String.ofList f.pattern}': {f.fault.message}"

end Fault

/-- File patterns find hidden names too. -/
def findOptions : Glob.Options := ⟨false, false⟩

/-- Exclude patterns stay within a component. -/
def excludeOptions : Glob.Options := ⟨true, false⟩

def compile (pattern : Text) : Except Fault Glob.Pattern :=
  match Glob.Pattern.ofText pattern with
  | .ok p => .ok p
  | .error f => .error ⟨pattern, f⟩

/-- The part of a path that exclude patterns are matched with. -/
def relative (cwd p : Path) : Path := (cwd.relativeTo? p).getD p

def isExcluded (cwd : Path) (excludes : List Glob.Pattern) (p : Path) : Bool :=
  excludes.any (·.covers excludeOptions (relative cwd p).chars)

/-- The files that one pattern finds, normalized, in the order of the walk. -/
def found (tree : FileTree) (cwd : Path) (pattern : Text) : Except Fault (List Path) :=
  match Glob.paths tree findOptions (cwd.join ⟨pattern⟩).chars with
  | .ok ps => .ok ((ps.filter tree.isFile).map (·.normalize))
  | .error f => .error ⟨pattern, f⟩

def foundAll (tree : FileTree) (cwd : Path) : List Text → Except Fault (List Path)
  | [] => .ok []
  | pattern :: rest => do
    let here ← found tree cwd pattern
    return here ++ (← foundAll tree cwd rest)

/-- The discovered files. Exclude patterns are checked before any file pattern. -/
def discover (tree : FileTree) (cwd : Path) (patterns excludes : List Text) : Except Fault (List Path) := do
  let excludes ← excludes.mapM compile
  let ps ← foundAll tree cwd patterns
  return (ps.filter fun p => !isExcluded cwd excludes p).eraseDups

end ComponentLint.Discovery
