import ComponentLint.TsConfig.Basic
import ComponentLint.Source.Kind
import ComponentLint.Glob.Walk

/-! The files of a project: those listed, then those found by the include patterns and not excluded, in
path order and without repetition. -/
namespace ComponentLint.TsConfig

/-- Include and exclude wildcards stay within a component and do not find hidden names. -/
def globOptions : Glob.Options := ⟨true, true⟩

/-- An include without a star that names a directory means everything below it. -/
def includePattern (tree : FileTree) (c : TsConfig) (pattern : Text) : Text :=
  let joined := c.root.join ⟨pattern⟩
  if !pattern.contains '*' && tree.isDirectory joined then (joined.join (.ofString "**/*")).chars
  else joined.chars

/-- The patterns that include files: without any and without listed files, everything. -/
def includePatterns (c : TsConfig) : List Text :=
  match c.includes, c.files with
  | some patterns, _ => patterns
  | none, some _ => []
  | none, none => ["**/*".toList]

/-- The exclude patterns, normalized from the root; those that are no pattern do not count. -/
def excludePatterns (c : TsConfig) : List Glob.Pattern :=
  (c.excludes.getD ["node_modules".toList]).filterMap fun pattern =>
    (Glob.Pattern.ofText (c.root.join ⟨pattern⟩).normalize.chars).toOption

/-- Whether a path, or a directory on the way to it below the root, is excluded. -/
def isExcluded (c : TsConfig) (excludes : List Glob.Pattern) (p : Path) : Bool :=
  (p.ancestors.takeWhile fun above => !above.same c.root).any fun above =>
    excludes.any (·.covers globOptions above.chars)

/-- The files that one include pattern finds. -/
def included (tree : FileTree) (c : TsConfig) (pattern : Text) : Except Fault (List Path) :=
  match Glob.paths tree globOptions (includePattern tree c pattern) with
  | .error f => .error (.invalidInclude c.path pattern f.message)
  | .ok found =>
    .ok ((found.filter fun p => tree.isFile p && p.isSource && !c.isExcluded c.excludePatterns p).map
      (·.normalize))

def includedAll (tree : FileTree) (c : TsConfig) : List Text → Except Fault (List Path)
  | [] => .ok []
  | pattern :: rest => do
    let found ← c.included tree pattern
    return found ++ (← includedAll tree c rest)

def fileNames (tree : FileTree) (c : TsConfig) : Except Fault (List Path) := do
  let listed := (c.files.getD []).map fun file => (c.root.join ⟨file⟩).normalize
  let found ← c.includedAll tree c.includePatterns
  return (listed ++ Sorting.sort (fun p q => !q.before p) found).eraseDups

end ComponentLint.TsConfig
