import ComponentLint.TsConfig.Basic

/-! Following `extends`. A setting that a project file leaves out comes from its bases, the last base
first; patterns keep meaning what they mean in the file that declares them. -/
namespace ComponentLint.TsConfig

/-- The files that a base may be: the path itself, with `.json`, and the project file inside it. -/
def baseCandidates (base : Path) : List Path :=
  [base, ⟨base.chars ++ ".json".toList⟩, base.join (.ofString "tsconfig.json")]

/-- Finds the base that a specifier names: by path from the file's directory, or as a package. -/
def findBase (tree : FileTree) (root : Path) (specifier : Text) : Option Path :=
  if specifier.head? = some '.' || (⟨specifier⟩ : Path).isAbsolute then
    (baseCandidates (root.join ⟨specifier⟩).normalize).find? tree.isFile
  else
    root.ancestors.findSome? fun directory =>
      (baseCandidates ((directory.join (.ofString "node_modules")).join ⟨specifier⟩)).find? tree.isFile

def rebase (root : Path) (patterns : List Text) : List Text :=
  patterns.map fun pattern => (root.join ⟨pattern⟩).chars

/-- Takes from a base what is not set. Aliases that are taken bring the directory they are relative to. -/
def inherit (c base : TsConfig) : TsConfig :=
  let takesPaths := c.paths.isNone && base.paths.isSome
  { c with
    paths := c.paths.or base.paths,
    baseUrl :=
      if takesPaths then c.baseUrl.or (some base.baseDirectory) else c.baseUrl.or base.baseUrl,
    target := c.target.or base.target,
    includes := c.includes.or (base.includes.map (rebase base.root)),
    excludes := c.excludes.or (base.excludes.map (rebase base.root)),
    files := c.files.or (base.files.map (rebase base.root)) }

/-- Takes the bases in turn, loading each with `load`. -/
def inheritAll (tree : FileTree) (load : Path → Except Fault TsConfig) (c : TsConfig) :
    List Text → Except Fault TsConfig
  | [] => .ok c
  | specifier :: rest =>
    match findBase tree c.root specifier with
    | none => inheritAll tree load c rest
    | some path =>
      match load path with
      | .error f => .error f
      | .ok base => inheritAll tree load (c.inherit base) rest

/-- Loads a file whose loading was asked for by the files of `chain`. A chain without repetition cannot
be longer than the tree has files, which bounds the recursion. -/
def loadWithin (tree : FileTree) : Nat → List Path → Path → Except Fault TsConfig
  | 0, _, path => .error (.circular path)
  | fuel + 1, chain, path =>
    if chain.contains path.normalize then .error (.circular path)
    else
      match tree.read path with
      | .error f => .error (.unreadable path f)
      | .ok contents =>
        match readRaw contents path with
        | .error f => .error f
        | .ok raw =>
          inheritAll tree (loadWithin tree fuel (path.normalize :: chain)) (ofRaw raw path)
            (raw.extending.getD []).reverse

/-- Loads a project file with all that it extends. -/
def load (tree : FileTree) (path : Path) : Except Fault TsConfig :=
  loadWithin tree (tree.nodes.length + 2) [] path

end ComponentLint.TsConfig
