import ComponentLint.Proofs.Glob.Spelling
import ComponentLint.Proofs.Path.Above
import ComponentLint.Proofs.TsConfig.Precedence
import ComponentLint.TsConfig.FileSet

/-! Which files a project spares. Exclude patterns are made normal and are asked about a path as the walk spells it; the
path is made normal afterwards. So they are honoured wherever an include pattern goes straight to its files. -/
namespace ComponentLint.TsConfig

variable {tree : FileTree} {c : TsConfig} {path p : Path}

/-! ## The directory of a loaded file -/

/-- No file stands at the root of a loaded project file, which is the directory above that file. -/
theorem load_root (absolute : path.isAbsolute = true) (loaded : load tree path = .ok c) (file : tree.isFile p = true) :
    p.same c.root = false := by
  obtain ⟨own, bases, reached, filled, -⟩ := loadWithin_loaded _ absolute loaded
  cases reached with
  | next here onward =>
    obtain ⟨contents, raw, read, -, rfl, -⟩ := written?_eq_some here
    have config : tree.isFile path = true := FileTree.isFile_of_read read
    obtain ⟨content, walked, found⟩ := FileTree.isFile_iff.1 file
    have directory : tree.node? c.root.place = some .directory := by
      rw [filled.root]
      change tree.node? (path.normalize.parent?.getD ⟨['/']⟩).place = some .directory
      cases above : path.normalize.parent? with
      | none => exact FileTree.node?_root config
      | some up =>
        obtain ⟨inside, other⟩ := Path.parent?_place absolute above
        exact FileTree.node?_above config inside other
    cases same : p.same c.root with
    | false => rfl
    | true =>
      have here : p.place = c.root.place := by rw [Path.place, of_decide_eq_true same, ← Path.place]
      rw [here, directory] at found
      simp at found

/-! ## What is excluded -/

/-- A path that an exclude pattern matches, or that is in a directory below the root that one matches. -/
def Excludes (c : TsConfig) (p : Path) : Prop :=
  ∃ e ∈ c.excludePatterns, e.covers globOptions p.chars = true ∨ ∃ above ∈ p.ancestors,
    c.root.isBelow above = true ∧ above.same c.root = false ∧ e.covers globOptions above.chars = true

instance (c : TsConfig) (p : Path) : Decidable (c.Excludes p) := inferInstanceAs (Decidable (∃ e ∈ c.excludePatterns, _))

/-- An include pattern none of whose components is or matches `.` or `..`. -/
def IsStraight (tree : FileTree) (c : TsConfig) (pattern : Text) : Prop :=
  ∀ s ∈ Glob.componentTexts (includePattern tree c pattern), Glob.isSpecial globOptions s = false

instance (tree : FileTree) (c : TsConfig) (pattern : Text) : Decidable (IsStraight tree c pattern) :=
  inferInstanceAs (Decidable (∀ s ∈ Glob.componentTexts (includePattern tree c pattern), _))

theorem isExcluded_of_excludes (absolute : p.isAbsolute = true) (other : p.same c.root = false)
    (excludes : c.Excludes p) : c.isExcluded c.excludePatterns p = true := by
  obtain ⟨e, member, covers⟩ := excludes
  apply List.any_eq_true.2
  rcases covers with itself | ⟨above, inside, below, apart, covers⟩
  · exact ⟨p, Path.mem_takeWhile_self other, List.any_eq_true.2 ⟨e, member, itself⟩⟩
  · exact ⟨above, Path.mem_takeWhile_ancestors absolute inside below apart, List.any_eq_true.2 ⟨e, member, covers⟩⟩

/-! ## What is found -/

/-- What a pattern finds is a file that is not excluded as the walk spells it, and is given in normal form. -/
theorem mem_included {pattern : Text} {ps : List Path} (h : c.included tree pattern = .ok ps) (member : p ∈ ps) :
    ∃ qs, Glob.paths tree globOptions (includePattern tree c pattern) = .ok qs ∧ ∃ q ∈ qs, q.normalize = p ∧
      tree.isFile q = true ∧ c.isExcluded c.excludePatterns q = false := by
  rw [included] at h
  cases walked : Glob.paths tree globOptions (includePattern tree c pattern) with
  | error f => simp [walked] at h
  | ok qs =>
    rw [walked] at h
    obtain rfl := Except.ok.inj h
    obtain ⟨q, inside, rfl⟩ := List.mem_map.1 member
    obtain ⟨found, kept⟩ := List.mem_filter.1 inside
    simp only [Bool.and_eq_true, Bool.not_eq_true'] at kept
    exact ⟨qs, rfl, q, found, rfl, kept.1.1, kept.2⟩

theorem mem_includedAll {patterns : List Text} {ps : List Path} (h : c.includedAll tree patterns = .ok ps)
    (member : p ∈ ps) : ∃ pattern ∈ patterns, ∃ qs, c.included tree pattern = .ok qs ∧ p ∈ qs := by
  induction patterns generalizing ps with
  | nil =>
    obtain rfl := Except.ok.inj h
    simp at member
  | cons pattern rest ih =>
    obtain ⟨here, now, h⟩ := bind_eq_ok_iff.1 h
    obtain ⟨others, later, h⟩ := bind_eq_ok_iff.1 h
    obtain rfl := Except.ok.inj h
    rcases List.mem_append.1 member with first | next
    · exact ⟨pattern, List.mem_cons_self .., here, now, first⟩
    · obtain ⟨pattern', inside, qs, found, among⟩ := ih later next
      exact ⟨pattern', List.mem_cons_of_mem _ inside, qs, found, among⟩

/-- The files that a project lists by name. -/
def listed (c : TsConfig) : List Path := (c.files.getD []).map fun file => (c.root.join ⟨file⟩).normalize

/-- A path of a loaded project that is not listed is that of a file that an include pattern finds, and that is not
excluded as the walk spells it. If the pattern goes straight to its files, the path itself is not excluded. -/
theorem fileNames_honour {names : List Path} (named : tree.Named) (absolute : path.isAbsolute = true)
    (loaded : load tree path = .ok c) (found : c.fileNames tree = .ok names) :
    ∀ p ∈ names, p ∉ c.listed → ∃ pattern ∈ c.includePatterns,
      ∃ qs, Glob.paths tree globOptions (includePattern tree c pattern) = .ok qs ∧ ∃ q ∈ qs, q.normalize = p ∧
        tree.isFile q = true ∧ ¬c.Excludes q ∧ (IsStraight tree c pattern → ¬c.Excludes p) := by
  intro p member unlisted
  obtain ⟨ps, all, h⟩ := bind_eq_ok_iff.1 found
  obtain rfl := Except.ok.inj h
  have inFound : p ∈ ps := by
    rcases List.mem_append.1 (List.mem_eraseDups.1 member) with early | late
    · exact absurd early unlisted
    · exact Sorting.mem_sort.1 late
  obtain ⟨pattern, inPatterns, qs, included, among⟩ := mem_includedAll all inFound
  obtain ⟨rs, walked, q, inWalk, rfl, file, kept⟩ := mem_included included among
  have spared : ¬c.Excludes q := by
    intro excludes
    have excluded := isExcluded_of_excludes (Glob.paths_absolute walked q inWalk)
      (load_root absolute loaded file) excludes
    rw [kept] at excluded
    contradiction
  refine ⟨pattern, inPatterns, rs, walked, q, inWalk, rfl, file, spared, fun straight => ?_⟩
  have plain := Glob.paths_plain named straight walked q inWalk
  rwa [plain.normalize_eq file]

theorem fileNames_honour_generated :
    let file (place : List String) (text : String) : Place × FileNode :=
      (place.map String.toList, .file (.text text.toList))
    let tree : FileTree := ⟨[
      file ["p", "tsconfig.json"]
        "\x7b\"files\":[\"src/gen/c.ts\"],\"include\":[\"src\",\"lib/**/*.ts\"],\"exclude\":[\"src/gen\",\"**/*.d.ts\"]\x7d",
      file ["p", "src", "a.ts"] "", file ["p", "src", "a.d.ts"] "", file ["p", "src", "gen", "b.ts"] "",
      file ["p", "src", "gen", "c.ts"] "", file ["p", "lib", "d.ts"] ""]⟩
    ∃ c names, tree.Named ∧ load tree (.ofString "/p/tsconfig.json") = .ok c ∧ c.fileNames tree = .ok names ∧
      names.map (·.toString) = ["/p/src/gen/c.ts", "/p/lib/d.ts", "/p/src/a.ts"] ∧
      (∀ pattern ∈ c.includePatterns, IsStraight tree c pattern) ∧ c.Excludes (.ofString "/p/src/gen/c.ts") ∧
      ∀ p ∈ names, p ∉ c.listed → ¬c.Excludes p := by
  intro file tree
  let c : TsConfig :=
    { path := .ofString "/p/tsconfig.json", root := .ofString "/p", files := some ["src/gen/c.ts".toList],
      includes := some ["src".toList, "lib/**/*.ts".toList], excludes := some ["src/gen".toList, "**/*.d.ts".toList] }
  let names : List Path := [.ofString "/p/src/gen/c.ts", .ofString "/p/lib/d.ts", .ofString "/p/src/a.ts"]
  have named : tree.Named := by decide +kernel
  have loaded : load tree (.ofString "/p/tsconfig.json") = .ok c := eq_ok_of_toOption (by decide +kernel)
  have found : c.fileNames tree = .ok names := eq_ok_of_toOption (by decide +kernel)
  have straight : ∀ pattern ∈ c.includePatterns, IsStraight tree c pattern := by decide +kernel
  refine ⟨c, names, named, loaded, found, by decide +kernel, straight, by decide +kernel, fun p member unlisted => ?_⟩
  obtain ⟨pattern, inPatterns, -, -, -, -, -, -, -, spared⟩ :=
    fileNames_honour named (by decide) loaded found p member unlisted
  exact spared (straight pattern inPatterns)

/-- An exclude pattern is overlooked where the include pattern begins with a dot. -/
theorem dotted_include_overlooks :
    ¬∀ (tree : FileTree) (path : Path) (c : TsConfig) (names : List Path), tree.Named → path.isAbsolute = true →
      load tree path = .ok c → c.fileNames tree = .ok names → ∀ p ∈ names, p ∉ c.listed → ¬c.Excludes p := by
  intro honoured
  let file (place : List String) (text : String) : Place × FileNode :=
    (place.map String.toList, .file (.text text.toList))
  let tree : FileTree := ⟨[
    file ["project", "tsconfig.json"] "\x7b\"include\":[\"./src\"],\"exclude\":[\"src/gen\"]\x7d",
    file ["project", "src", "a.ts"] "", file ["project", "src", "gen", "b.ts"] ""]⟩
  let c : TsConfig :=
    { path := .ofString "/project/tsconfig.json", root := .ofString "/project", includes := some ["./src".toList],
      excludes := some ["src/gen".toList] }
  let generated : Path := .ofString "/project/src/gen/b.ts"
  have loaded : load tree c.path = .ok c := eq_ok_of_toOption (by decide +kernel)
  have found : c.fileNames tree = .ok [.ofString "/project/src/a.ts", generated] :=
    eq_ok_of_toOption (by decide +kernel)
  -- the walk spells the directory `/project/./src/gen`, which the pattern `/project/src/gen` does not match
  have excluded : c.Excludes generated := by decide +kernel
  exact honoured tree c.path c _ (by decide +kernel) (by decide) loaded found generated (by simp) (by decide +kernel)
    excluded

end ComponentLint.TsConfig
