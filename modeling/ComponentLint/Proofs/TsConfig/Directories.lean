import ComponentLint.Proofs.Glob.Reach
import ComponentLint.Proofs.TsConfig.FileSet

/-! Includes that name a directory. The name of the directory becomes a piece of a pattern, so everything below it is
included only if each segment of its path, read as a pattern, matches itself: one with a class in brackets does not. -/
namespace ComponentLint.TsConfig

variable {tree : FileTree} {c : TsConfig} {path p : Path} {pattern : Text}

/-- The directory that an include names. -/
def named (c : TsConfig) (pattern : Text) : Path := c.root.join ⟨pattern⟩

/-- How the walk spells what is below the directory that an include names. -/
def spelled (c : TsConfig) (pattern : Text) (below : List Text) : Path :=
  (⟨['/']⟩ : Path).along (Glob.componentTexts (c.named pattern).chars ++ below)

theorem isName_below {place : Place} {below : List Text} (absolute : p.isAbsolute = true)
    (inside : p.place = place ++ below) : ∀ s ∈ below, Path.IsName s := by
  intro s member
  apply Path.isName_of_mem_place absolute
  rw [inside]
  exact List.mem_append_right place member

/-- What stands below a directory is walked to from it. -/
theorem walk_below {base : Path} {below : List Text} (absolute : p.isAbsolute = true) (file : tree.isFile p = true)
    (inside : p.place = base.place ++ below) : tree.walk base.place below = .ok p.place := by
  rw [inside]
  refine FileTree.walk_names (isName_below absolute inside) fun above within other => ?_
  rw [← inside] at within other
  exact FileTree.node?_above file within other

section

variable (rooted : c.root.isAbsolute = true) (directory : tree.isDirectory (c.named pattern) = true)
include rooted directory

theorem spelled_leads {below : List Text} (absolute : p.isAbsolute = true) (file : tree.isFile p = true)
    (inside : p.place = (c.named pattern).place ++ below) : tree.Leads (c.spelled pattern below) p.place := by
  have walked := Glob.walk_componentTexts (Path.join_absolute rooted _) directory
  have here := (FileTree.isDirectory_iff.1 directory).2
  refine Glob.leads_along (Glob.leads_root (FileTree.walk_directory walked here)) (fun s member => ?_)
    (FileTree.walk_append_eq_ok.2 ⟨_, walked, walk_below absolute file inside⟩)
  rcases List.mem_append.1 member with early | late
  · exact Glob.slash_not_mem_componentTexts early
  · exact (isName_below absolute inside s late).2.2.2

/-- The walk spells a file in a way that means it. -/
theorem spelled_normalize {below : List Text} (absolute : p.isAbsolute = true) (normal : p.normalize = p)
    (file : tree.isFile p = true) (inside : p.place = (c.named pattern).place ++ below) :
    (c.spelled pattern below).normalize = p ∧ tree.isFile (c.spelled pattern below) = true := by
  have leads := spelled_leads rooted directory absolute file inside
  have same : p.place = (c.spelled pattern below).place := FileTree.walk_place leads.2
  refine ⟨?_, ?_⟩
  · rw [Path.normalize_absolute leads.1, ← same, ← Path.normalize_absolute absolute, normal]
  · obtain ⟨content, -, found⟩ := FileTree.isFile_iff.1 file
    rw [FileTree.isFile_iff, ← same]
    exact ⟨content, leads.2, found⟩

/-- If no segment on the way is a dot or two, the walk spells a file by its normal form. -/
theorem spelled_straight {below : List Text} (absolute : p.isAbsolute = true) (normal : p.normalize = p)
    (file : tree.isFile p = true) (inside : p.place = (c.named pattern).place ++ below)
    (straight : ∀ s ∈ Glob.componentTexts (c.named pattern).chars, s ≠ ['.'] ∧ s ≠ ['.', '.']) :
    c.spelled pattern below = p := by
  obtain ⟨means, there⟩ := spelled_normalize rooted directory absolute normal file inside
  have plain : (c.spelled pattern below).IsPlain := by
    rw [spelled]
    have pieces : ∀ s ∈ Glob.componentTexts (c.named pattern).chars ++ below, s = [] ∨ Path.IsName s := by
      intro s member
      rcases List.mem_append.1 member with early | late
      · by_cases none_ : s = []
        · exact .inl none_
        · exact .inr ⟨none_, (straight s early).1, (straight s early).2, Glob.slash_not_mem_componentTexts early⟩
      · exact .inr (isName_below absolute inside s late)
    exact Path.IsPlain.root.along pieces
  rw [← plain.normalize_eq there, means]

end

/-- An include without stars that names a directory, each segment of whose path matches itself, can be expanded, and
means every source file below the directory that is not behind a hidden name and is not excluded as the walk spells it.
The walk spells it by its normal form if no segment of the path is a dot or two. -/
theorem fileNames_directory {origin : FileTree} (absolute : path.isAbsolute = true)
    (loaded : load origin path = .ok c) (member : pattern ∈ c.includePatterns) (star : '*' ∉ pattern)
    (directory : tree.isDirectory (c.named pattern) = true)
    (literal : ∀ s ∈ Glob.componentTexts (c.named pattern).chars, Glob.MatchesItself globOptions s) :
    ((∃ names, c.fileNames tree = .ok names) ↔
      ∀ other ∈ c.includePatterns, other ≠ pattern → Expand tree c [other]) ∧
    ∀ names, c.fileNames tree = .ok names → ∀ p below, p.isAbsolute = true → p.normalize = p →
      tree.isFile p = true → p.isSource = true → p.place = (c.named pattern).place ++ below →
        (∀ s ∈ below, s.head? ≠ some '.') →
          (c.spelled pattern below).normalize = p ∧
          (c.isExcluded c.excludePatterns (c.spelled pattern below) = false → p ∈ names) ∧
          ((∀ s ∈ Glob.componentTexts (c.named pattern).chars, s ≠ ['.'] ∧ s ≠ ['.', '.']) →
            c.isExcluded c.excludePatterns p = false → p ∈ names) := by
  have rooted := load_root_absolute absolute loaded
  have full : includePattern tree c pattern = ((c.named pattern).join (.ofString "**/*")).chars := by
    rw [includePattern, if_pos]
    · rfl
    · rw [Bool.and_eq_true]
      exact ⟨by simpa using star, directory⟩
  have here : (c.named pattern).isAbsolute = true := Path.join_absolute rooted _
  obtain ⟨qs, walked, reach⟩ := Glob.paths_everything here directory literal
  rw [← full] at walked
  refine ⟨?_, fun names found p below absolute normal file source inside shown => ?_⟩
  · rw [exists_fileNames_iff]
    constructor
    · intro expand other among _
      simpa [Expand] using expand other among
    · intro others other among
      by_cases same : other = pattern
      · rw [same]
        exact ⟨qs, walked⟩
      · exact others other among same other (by simp)
  · obtain ⟨means, there⟩ := spelled_normalize rooted directory absolute normal file inside
    have kept (spared : c.isExcluded c.excludePatterns (c.spelled pattern below) = false) : p ∈ names := by
      obtain ⟨content, -, content_⟩ := FileTree.isFile_iff.1 file
      have onward := walk_below absolute file inside
      rw [inside] at onward content_
      have inWalk : c.spelled pattern below ∈ qs :=
        reach below content onward content_ (isName_below absolute inside) fun _ => shown
      refine (mem_fileNames found).2 (.inr ⟨pattern, member, qs, walked, _, inWalk, there, ?_, spared, means⟩)
      rw [← isSource_normalize there, means, source]
    refine ⟨means, kept, fun straight spared => kept ?_⟩
    rwa [spelled_straight rooted directory absolute normal file inside straight]

theorem fileNames_directory_parentheses :
    let file (place : List String) (text : String) : Place × FileNode :=
      (place.map String.toList, .file (.text text.toList))
    let tree : FileTree := ⟨[
      file ["p", "tsconfig.json"] "\x7b\"include\":[\"pages/(a)?\"],\"exclude\":[\"**/*.d.ts\"]\x7d",
      file ["p", "pages", "(a)?", "b", "c.ts"] "", file ["p", "pages", "(a)?", "b", "c.d.ts"] "",
      file ["p", "pages", "(a)?", ".b", "d.ts"] ""]⟩
    ∃ c names, load tree (.ofString "/p/tsconfig.json") = .ok c ∧ c.fileNames tree = .ok names ∧
      "pages/(a)?".toList ∈ c.includePatterns ∧ tree.isDirectory (c.named "pages/(a)?".toList) = true ∧
      .ofString "/p/pages/(a)?/b/c.ts" ∈ names := by
  intro file tree
  let c : TsConfig :=
    { path := .ofString "/p/tsconfig.json", root := .ofString "/p", includes := some ["pages/(a)?".toList],
      excludes := some ["**/*.d.ts".toList] }
  let p : Path := .ofString "/p/pages/(a)?/b/c.ts"
  have loaded : load tree (.ofString "/p/tsconfig.json") = .ok c := eq_ok_of_toOption (by decide +kernel)
  have member : "pages/(a)?".toList ∈ c.includePatterns := by decide +kernel
  have directory : tree.isDirectory (c.named "pages/(a)?".toList) = true := by decide +kernel
  have literal : ∀ s ∈ Glob.componentTexts (c.named "pages/(a)?".toList).chars, Glob.MatchesItself globOptions s := by
    have plain : ∀ s ∈ Glob.componentTexts (c.named "pages/(a)?".toList).chars, '/' ∉ s ∧ '*' ∉ s ∧ '[' ∉ s ∧
        s.head? ≠ some '.' := by decide +kernel
    intro s inside
    obtain ⟨pure, star, bracket, shown⟩ := plain s inside
    exact (Glob.matchesItself_iff pure star).2 ⟨bracket, fun _ _ => shown⟩
  obtain ⟨told, found⟩ := fileNames_directory (by decide) loaded member (by decide) directory literal
  obtain ⟨names, listed⟩ := told.2 fun other inside different => absurd (List.mem_singleton.1 inside) different
  obtain ⟨-, -, kept⟩ := found names listed p ["b".toList, "c.ts".toList] (by decide) (by decide +kernel)
    (by decide +kernel) (by decide +kernel) (by decide +kernel) (by decide)
  exact ⟨c, names, loaded, listed, member, directory, kept (by decide +kernel) (by decide +kernel)⟩

/-- A directory whose name has brackets is missed: as a pattern the name is a class. -/
theorem bracketed_directory_missed :
    ¬∀ (tree : FileTree) (path : Path) (c : TsConfig) (pattern : Text) (names : List Path), path.isAbsolute = true →
      load tree path = .ok c → pattern ∈ c.includePatterns → '*' ∉ pattern →
      tree.isDirectory (c.named pattern) = true → c.fileNames tree = .ok names →
      ∀ p below, p.isAbsolute = true → p.normalize = p → tree.isFile p = true → p.isSource = true →
        p.place = (c.named pattern).place ++ below → (∀ s ∈ below, s.head? ≠ some '.') →
        c.isExcluded c.excludePatterns p = false → p ∈ names := by
  intro everything
  let file (place : List String) (text : String) : Place × FileNode :=
    (place.map String.toList, .file (.text text.toList))
  let tree : FileTree := ⟨[
    file ["project", "tsconfig.json"] "\x7b\"include\":[\"pages/[id]\"]\x7d",
    file ["project", "pages", "[id]", "a.ts"] ""]⟩
  let c : TsConfig :=
    { path := .ofString "/project/tsconfig.json", root := .ofString "/project", includes := some ["pages/[id]".toList] }
  have loaded : load tree c.path = .ok c := eq_ok_of_toOption (by decide +kernel)
  have found : c.fileNames tree = .ok [] := eq_ok_of_toOption (by decide +kernel)
  have missed := everything tree c.path c "pages/[id]".toList [] (by decide) loaded (by decide +kernel) (by decide)
    (by decide +kernel) found (.ofString "/project/pages/[id]/a.ts") ["a.ts".toList] (by decide) (by decide +kernel)
    (by decide +kernel) (by decide +kernel) (by decide +kernel) (by decide) (by decide +kernel)
  simp at missed

end ComponentLint.TsConfig
