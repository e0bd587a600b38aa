import ComponentLint.Proofs.Distinct
import ComponentLint.Proofs.Path.Order
import ComponentLint.Proofs.TsConfig.Excluding

/-! What the file set of a project looks like: the listed files as they are listed, then the found ones in path order.
Which include patterns find a file, and how often, makes no difference. -/
namespace ComponentLint.TsConfig

variable {tree : FileTree} {c : TsConfig} {path p : Path} {patterns : List Text}

/-! ## What patterns find -/

/-- All the patterns can be expanded. -/
def Expand (tree : FileTree) (c : TsConfig) (patterns : List Text) : Prop :=
  ∀ pattern ∈ patterns, ∃ qs, Glob.paths tree globOptions (includePattern tree c pattern) = .ok qs

/-- One of the patterns finds a source file that is not excluded, and this is its normal form. -/
def Finds (tree : FileTree) (c : TsConfig) (patterns : List Text) (p : Path) : Prop :=
  ∃ pattern ∈ patterns, ∃ qs, Glob.paths tree globOptions (includePattern tree c pattern) = .ok qs ∧
    ∃ q ∈ qs, tree.isFile q = true ∧ q.isSource = true ∧ c.isExcluded c.excludePatterns q = false ∧ q.normalize = p

theorem included_eq_ok {pattern : Text} {qs : List Path}
    (walked : Glob.paths tree globOptions (includePattern tree c pattern) = .ok qs) :
    c.included tree pattern = .ok ((qs.filter fun q =>
      tree.isFile q && q.isSource && !c.isExcluded c.excludePatterns q).map (·.normalize)) := by
  rw [included, walked]

theorem exists_of_included {pattern : Text} {ps : List Path} (h : c.included tree pattern = .ok ps) :
    ∃ qs, Glob.paths tree globOptions (includePattern tree c pattern) = .ok qs := by
  rw [included] at h
  cases walked : Glob.paths tree globOptions (includePattern tree c pattern) with
  | error f => simp [walked] at h
  | ok qs => exact ⟨qs, rfl⟩

theorem expand_of_includedAll {ps : List Path} (h : c.includedAll tree patterns = .ok ps) : Expand tree c patterns := by
  induction patterns generalizing ps with
  | nil => simp [Expand]
  | cons pattern rest ih =>
    obtain ⟨here, now, h⟩ := bind_eq_ok_iff.1 h
    obtain ⟨others, later, -⟩ := bind_eq_ok_iff.1 h
    exact List.forall_mem_cons.2 ⟨exists_of_included now, ih later⟩

/-- Patterns that can be expanded find what they find, however many there are. -/
theorem Expand.includedAll (expand : Expand tree c patterns) :
    ∃ ps, c.includedAll tree patterns = .ok ps ∧ ∀ p, p ∈ ps ↔ Finds tree c patterns p := by
  induction patterns with
  | nil => exact ⟨[], rfl, fun p => by simp [Finds]⟩
  | cons pattern rest ih =>
    obtain ⟨⟨qs, walked⟩, others⟩ := List.forall_mem_cons.1 expand
    obtain ⟨ps, later, among⟩ := ih others
    refine ⟨_, bind_eq_ok_iff.2 ⟨_, included_eq_ok walked, bind_eq_ok_iff.2 ⟨ps, later, rfl⟩⟩, fun p => ?_⟩
    rw [List.mem_append, among, Finds, Finds, List.exists_mem_cons_iff]
    simp [walked, and_assoc]

theorem isSource_normalize {q : Path} (file : tree.isFile q = true) : q.normalize.isSource = q.isSource := by
  obtain ⟨s, last⟩ := FileTree.isFile_fileName file
  rw [Path.isSource, Path.normalize_fileName last, ← Path.isSource]

/-- What is found is a source file in normal form. -/
theorem Finds.file (finds : Finds tree c patterns p) :
    tree.isFile p = true ∧ p.isSource = true ∧ p.isAbsolute = true ∧ p.normalize = p := by
  obtain ⟨pattern, -, qs, walked, q, found, file, source, -, rfl⟩ := finds
  refine ⟨FileTree.isFile_normalize file, by rw [isSource_normalize file, source], ?_, Path.normalize_normalize q⟩
  rw [Path.normalize_isAbsolute, Glob.paths_absolute walked q found]

/-! ## The order of the files -/

/-- The found files that are not listed, in path order and each once. -/
def foundOnly (c : TsConfig) (ps : List Path) : List Path :=
  ((Sorting.sort (fun p q => !q.before p) ps).removeAll c.listed).eraseDups

theorem mem_foundOnly {ps : List Path} : p ∈ c.foundOnly ps ↔ p ∉ c.listed ∧ p ∈ ps := by
  simp [foundOnly, List.mem_eraseDups, List.removeAll, and_comm]

theorem foundOnly_ascending {ps : List Path} (normal : ∀ p ∈ ps, p.normalize = p) :
    (c.foundOnly ps).Pairwise fun p q => p.before q = true := by
  have sorted : (c.foundOnly ps).Pairwise fun p q => p.key ≤ q.key :=
    (Path.sort_ascending ps).sublist ((eraseDups_sublist _).trans List.filter_sublist)
  have apart : (c.foundOnly ps).Pairwise (· ≠ ·) := nodup_eraseDups _
  refine (sorted.and apart).imp_of_mem fun {p q} member member' both => Path.before_iff.2 ?_
  have normal' (r : Path) (inside : r ∈ c.foundOnly ps) := normal r (mem_foundOnly.1 inside).2
  exact both.1.lt_of_ne fun same => both.2 (Path.eq_of_key (normal' p member) (normal' q member') same)

/-- Normal paths come out in the same order, however they are found. -/
theorem foundOnly_congr {ps qs : List Path} (normal : ∀ p ∈ ps, p.normalize = p) (same : ∀ p, p ∈ ps ↔ p ∈ qs) :
    c.foundOnly ps = c.foundOnly qs := by
  have normal' : ∀ p ∈ qs, p.normalize = p := fun p member => normal p ((same p).2 member)
  refine (foundOnly_ascending normal).eq_of_mem_iff (foundOnly_ascending normal') fun p => ?_
  rw [mem_foundOnly, mem_foundOnly, same]

theorem fileNames_eq_ok_iff {names : List Path} : c.fileNames tree = .ok names ↔
    ∃ ps, c.includedAll tree c.includePatterns = .ok ps ∧ names = c.listed.eraseDups ++ c.foundOnly ps := by
  rw [fileNames, bind_eq_ok_iff]
  refine exists_congr fun ps => and_congr_right fun _ => ?_
  rw [foundOnly, ← List.eraseDups_append, ← listed]
  exact ⟨fun h => (Except.ok.inj h).symm, fun h => congrArg Except.ok h.symm⟩

/-- A file set is that of a project whose include patterns can be expanded, and is made of what they find. -/
theorem found_of_fileNames {names : List Path} (found : c.fileNames tree = .ok names) :
    Expand tree c c.includePatterns ∧ ∃ ps, (∀ p, p ∈ ps ↔ Finds tree c c.includePatterns p) ∧
      names = c.listed.eraseDups ++ c.foundOnly ps := by
  obtain ⟨ps, all, rfl⟩ := fileNames_eq_ok_iff.1 found
  have expand := expand_of_includedAll all
  obtain ⟨ps', all', among⟩ := expand.includedAll
  obtain rfl := Except.ok.inj (all.symm.trans all')
  exact ⟨expand, ps, among, rfl⟩

theorem exists_fileNames_iff : (∃ names, c.fileNames tree = .ok names) ↔ Expand tree c c.includePatterns := by
  constructor
  · rintro ⟨names, found⟩
    exact (found_of_fileNames found).1
  · intro expand
    obtain ⟨ps, all, -⟩ := expand.includedAll
    exact ⟨_, fileNames_eq_ok_iff.2 ⟨ps, all, rfl⟩⟩

theorem mem_fileNames {names : List Path} (found : c.fileNames tree = .ok names) :
    p ∈ names ↔ p ∈ c.listed ∨ Finds tree c c.includePatterns p := by
  obtain ⟨-, ps, among, rfl⟩ := found_of_fileNames found
  rw [List.mem_append, List.mem_eraseDups, mem_foundOnly, among]
  by_cases listed : p ∈ c.listed <;> simp [listed]

/-- What the found files are does not depend on how the patterns find them. -/
theorem fileNames_congr {names : List Path} (found : c.fileNames tree = .ok names) (expand : Expand tree c patterns)
    (same : ∀ p, Finds tree c patterns p ↔ Finds tree c c.includePatterns p) :
    fileNames tree { c with includes := some patterns } = .ok names := by
  obtain ⟨-, ps, among, rfl⟩ := found_of_fileNames found
  obtain ⟨qs, again, amongAgain⟩ := expand.includedAll
  -- the patterns play no part in what one of them finds
  have changed (patterns' : List Text) : includedAll tree { c with includes := some patterns } patterns' =
      c.includedAll tree patterns' := by
    induction patterns' with
    | nil => rfl
    | cons pattern rest ih => rw [includedAll, includedAll, ih]; rfl
  refine fileNames_eq_ok_iff.2 ⟨qs, (changed patterns).trans again, ?_⟩
  have normal : ∀ p ∈ ps, p.normalize = p := fun p member => ((among p).1 member).file.2.2.2
  have one : c.foundOnly ps = c.foundOnly qs :=
    foundOnly_congr normal fun p => by rw [among, amongAgain, same]
  rw [one]
  rfl

theorem load_root_absolute (absolute : path.isAbsolute = true) (loaded : load tree path = .ok c) :
    c.root.isAbsolute = true := by
  obtain ⟨own, bases, reached, filled, -⟩ := loadWithin_loaded _ absolute loaded
  rw [filled.root]
  exact reached.absolute (by simpa using absolute) own (by simp)

theorem listed_normal (absolute : path.isAbsolute = true) (loaded : load tree path = .ok c) (member : p ∈ c.listed) :
    p.isAbsolute = true ∧ p.normalize = p := by
  obtain ⟨file, -, rfl⟩ := List.mem_map.1 member
  refine ⟨?_, Path.normalize_normalize _⟩
  rw [Path.normalize_isAbsolute, Path.join_absolute (load_root_absolute absolute loaded)]

/-- The file set of a loaded project has no path twice, and its paths are absolute and in normal form. The listed files
come first, in the order of the list, whatever they are; behind them come, in ascending order, the source files that the
include patterns find and that are not excluded and not listed. Other patterns that find the same give the same, so the
order of the patterns, and whether some are repeated or overlap, makes no difference. -/
theorem fileNames_ordered {origin : FileTree} {names : List Path} (absolute : path.isAbsolute = true)
    (loaded : load origin path = .ok c) (found : c.fileNames tree = .ok names) :
    names.Nodup ∧ (∀ p ∈ names, p.isAbsolute = true ∧ p.normalize = p) ∧
    (∃ rest, names = c.listed.eraseDups ++ rest ∧ (rest.Pairwise fun p q => p.before q = true) ∧
      (∀ p, p ∈ rest ↔ p ∉ c.listed ∧ Finds tree c c.includePatterns p) ∧
      ∀ p ∈ rest, tree.isFile p = true ∧ p.isSource = true) ∧
    (∀ patterns, Expand tree c patterns → (∀ p, Finds tree c patterns p ↔ Finds tree c c.includePatterns p) →
      fileNames tree { c with includes := some patterns } = .ok names) ∧
    (∀ patterns, (∀ pattern, pattern ∈ patterns ↔ pattern ∈ c.includePatterns) →
      fileNames tree { c with includes := some patterns } = .ok names) := by
  obtain ⟨expand, ps, among, rfl⟩ := found_of_fileNames found
  have file : ∀ p ∈ c.foundOnly ps, _ := fun p member => ((among p).1 (mem_foundOnly.1 member).2).file
  refine ⟨?_, fun p member => ?_, ⟨c.foundOnly ps, rfl, foundOnly_ascending fun p member => ?_, fun p => ?_,
    fun p member => ?_⟩, fun patterns others same => fileNames_congr found others same, fun patterns same => ?_⟩
  · refine List.nodup_append.2 ⟨nodup_eraseDups _, nodup_eraseDups _, fun p first q later => ?_⟩
    rintro rfl
    exact (mem_foundOnly.1 later).1 (List.mem_eraseDups.1 first)
  · rcases List.mem_append.1 member with first | later
    · exact listed_normal absolute loaded (List.mem_eraseDups.1 first)
    · exact (file p later).2.2
  · exact ((among p).1 member).file.2.2.2
  · rw [mem_foundOnly, among]
  · exact ⟨(file p member).1, (file p member).2.1⟩
  · refine fileNames_congr found (fun pattern member => expand pattern ((same pattern).1 member)) fun p => ?_
    simp only [Finds, same]

theorem fileNames_ordered_overlapping :
    let file (place : List String) (text : String) : Place × FileNode :=
      (place.map String.toList, .file (.text text.toList))
    let tree : FileTree := ⟨[
      file ["p", "tsconfig.json"]
        ("\x7b\"files\":[\"z.json\",\"src/gen/a.ts\",\"./z.json\"]," ++
          "\"include\":[\"src/**/*\",\"src\",\"lib/*.ts\"],\"exclude\":[\"src/gen\"]\x7d"),
      file ["p", "src", "b.ts"] "", file ["p", "src", "gen", "a.ts"] "", file ["p", "src", "gen", "c.ts"] "",
      file ["p", "src", "notes.md"] "", file ["p", "lib", "d.ts"] ""]⟩
    ∃ c names rest, load tree (.ofString "/p/tsconfig.json") = .ok c ∧ c.fileNames tree = .ok names ∧
      names.map (·.toString) = ["/p/z.json", "/p/src/gen/a.ts", "/p/lib/d.ts", "/p/src/b.ts"] ∧ names.Nodup ∧
      names = c.listed.eraseDups ++ rest ∧ (rest.Pairwise fun p q => p.before q = true) ∧
      fileNames tree { c with includes := some (["src", "lib/*.ts", "src/**/*", "src"].map String.toList) } =
        .ok names := by
  intro file tree
  let c : TsConfig :=
    { path := .ofString "/p/tsconfig.json", root := .ofString "/p",
      files := some (["z.json", "src/gen/a.ts", "./z.json"].map String.toList),
      includes := some (["src/**/*", "src", "lib/*.ts"].map String.toList), excludes := some ["src/gen".toList] }
  let names : List Path :=
    [.ofString "/p/z.json", .ofString "/p/src/gen/a.ts", .ofString "/p/lib/d.ts", .ofString "/p/src/b.ts"]
  have loaded : load tree (.ofString "/p/tsconfig.json") = .ok c := eq_ok_of_toOption (by decide +kernel)
  have found : c.fileNames tree = .ok names := eq_ok_of_toOption (by decide +kernel)
  obtain ⟨once, -, ⟨rest, split, ascending, -, -⟩, -, again⟩ := fileNames_ordered (by decide) loaded found
  let others : List Text := ["src", "lib/*.ts", "src/**/*", "src"].map String.toList
  have more : ∀ pattern ∈ others, pattern ∈ c.includePatterns := by decide +kernel
  have fewer : ∀ pattern ∈ c.includePatterns, pattern ∈ others := by decide +kernel
  exact ⟨c, names, rest, loaded, found, by decide +kernel, once, split, ascending,
    again others fun pattern => ⟨more pattern, fewer pattern⟩⟩

end ComponentLint.TsConfig
