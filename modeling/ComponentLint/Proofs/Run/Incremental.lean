import ComponentLint.Proofs.Path.Joining
import ComponentLint.Proofs.Run.Discovered

/-! Discovery with more patterns and more exclusions. What is discovered is what the patterns find and the exclusions
do not match, so further patterns add what is new behind it, and further exclusions take from it what they match. -/
namespace ComponentLint

namespace Glob

variable {tree : FileTree} {o : Options} {t : Text}

/-- A text that can be walked with: it is a pattern, and so is each of its components. -/
def IsWalkable (t : Text) : Prop :=
  (Pattern.ofText t).isOk = true ∧ ∀ s ∈ componentTexts t, (Pattern.ofText s).isOk = true

instance : Decidable (IsWalkable t) := inferInstanceAs (Decidable (_ ∧ _))

theorem IsWalkable.paths (walkable : IsWalkable t) (tree : FileTree) (o : Options) :
    ∃ ps, paths tree o t = .ok ps := by
  obtain ⟨whole, pieces⟩ := walkable
  obtain ⟨p, read⟩ := isOk_iff.1 whole
  obtain ⟨patterns, reads⟩ := exists_mapM fun s member => isOk_iff.1 (pieces s member)
  exact ⟨_, bind_eq_ok_iff.2 ⟨p, read, bind_eq_ok_iff.2 ⟨patterns, reads, rfl⟩⟩⟩

end Glob

namespace Discovery

variable {tree : FileTree} {cwd p : Path} {patterns ps qs excludes xs ys : List Text}

/-! ## What patterns find -/

/-- The pattern can be walked with from the working directory. -/
def IsFilePattern (cwd : Path) (pattern : Text) : Prop := Glob.IsWalkable (cwd.join ⟨pattern⟩).chars

instance {pattern : Text} : Decidable (IsFilePattern cwd pattern) := inferInstanceAs (Decidable (Glob.IsWalkable _))

/-- The walk along a pattern comes to a file, and this is its normal form. -/
def Finds (tree : FileTree) (cwd : Path) (pattern : Text) (p : Path) : Prop :=
  ∃ walked, Glob.paths tree findOptions (cwd.join ⟨pattern⟩).chars = .ok walked ∧
    ∃ q ∈ walked, tree.isFile q = true ∧ q.normalize = p

theorem found_eq_ok {pattern : Text} {walked : List Path}
    (h : Glob.paths tree findOptions (cwd.join ⟨pattern⟩).chars = .ok walked) :
    found tree cwd pattern = .ok ((walked.filter tree.isFile).map (·.normalize)) := by
  rw [found, h]

/-- Patterns that can be walked with find what they find, however many there are. -/
theorem exists_foundAll (tree : FileTree) (walkable : ∀ pattern ∈ patterns, IsFilePattern cwd pattern) :
    ∃ files, foundAll tree cwd patterns = .ok files ∧
      ∀ p, p ∈ files ↔ ∃ pattern ∈ patterns, Finds tree cwd pattern p := by
  induction patterns with
  | nil => exact ⟨[], rfl, by simp⟩
  | cons pattern rest ih =>
    obtain ⟨first, others⟩ := List.forall_mem_cons.1 walkable
    obtain ⟨walked, walk⟩ := Glob.IsWalkable.paths first tree findOptions
    obtain ⟨files, later, among⟩ := ih others
    refine ⟨_, bind_eq_ok_iff.2 ⟨_, found_eq_ok walk, bind_eq_ok_iff.2 ⟨files, later, rfl⟩⟩, fun p => ?_⟩
    rw [List.mem_append, among, List.exists_mem_cons_iff, Finds]
    simp [walk, and_assoc]

theorem foundAll_append {here later : List Path} (first : foundAll tree cwd ps = .ok here)
    (second : foundAll tree cwd qs = .ok later) : foundAll tree cwd (ps ++ qs) = .ok (here ++ later) := by
  induction ps generalizing here with
  | nil =>
    obtain rfl := Except.ok.inj first
    exact second
  | cons pattern ps ih =>
    obtain ⟨now, found, first⟩ := bind_eq_ok_iff.1 first
    obtain ⟨rest, others, first⟩ := bind_eq_ok_iff.1 first
    obtain rfl := Except.ok.inj first
    rw [List.append_assoc]
    exact bind_eq_ok_iff.2 ⟨now, found, bind_eq_ok_iff.2 ⟨rest ++ later, ih others, rfl⟩⟩

/-! ## What is excluded -/

/-- The pattern matches the path as it is seen from the working directory. -/
def Excludes (cwd : Path) (exclude : Text) (p : Path) : Prop :=
  ∃ g, Glob.Pattern.ofText exclude = .ok g ∧ g.covers excludeOptions (relative cwd p).chars = true

theorem exists_compiled (cwd : Path) (valid : ∀ x ∈ xs, (Glob.Pattern.ofText x).isOk = true) :
    ∃ gs, xs.mapM compile = .ok gs ∧ ∀ p, isExcluded cwd gs p = true ↔ ∃ x ∈ xs, Excludes cwd x p := by
  induction xs with
  | nil => exact ⟨[], rfl, by simp [isExcluded]⟩
  | cons x xs ih =>
    obtain ⟨first, others⟩ := List.forall_mem_cons.1 valid
    obtain ⟨g, read⟩ := isOk_iff.1 first
    obtain ⟨gs, reads, among⟩ := ih others
    have compiled : compile x = .ok g := by rw [compile, read]
    refine ⟨g :: gs, by rw [List.mapM_cons, compiled, reads]; rfl, fun p => ?_⟩
    rw [List.exists_mem_cons_iff, ← among, isExcluded, List.any_cons, Bool.or_eq_true, Excludes]
    simp [read, isExcluded]

theorem mapM_append_ok {gs hs : List Glob.Pattern} (first : xs.mapM compile = .ok gs)
    (second : ys.mapM compile = .ok hs) : (xs ++ ys).mapM compile = .ok (gs ++ hs) := by
  rw [List.mapM_append, first, second]
  rfl

/-- The part of a path that exclusions see: what is behind the working directory, or all of a path that is elsewhere. -/
theorem relative_eq (absolute : cwd.isAbsolute = true) (normal : cwd.normalize = cwd) (absolute' : p.isAbsolute = true)
    (normal' : p.normalize = p) :
    (∀ below, p.place = cwd.place ++ below → (relative cwd p).chars = Text.join ['/'] below) ∧
      (¬cwd.place <+: p.place → relative cwd p = p) := by
  have base := Path.normalize_components_absolute absolute
  have whole := Path.normalize_components_absolute absolute'
  rw [normal] at base
  rw [normal'] at whole
  constructor
  · intro below split
    have behind : p.components = cwd.components ++ below.map .name := by
      rw [whole, base, split, List.map_append, List.cons_append]
    have spelled : ∀ names : List Text, Path.ofComponents (names.map .name) = ⟨Text.join ['/'] names⟩ := by
      intro names
      have spelling : (names.map Path.Component.name).map Path.Component.chars = names := by
        rw [List.map_map]
        exact List.map_id names
      cases names with
      | nil => rfl
      | cons s names => exact congrArg (fun cs => Path.mk (Text.join ['/'] cs)) spelling
    rw [relative, Path.relativeTo?, Path.isBelow, behind, List.isPrefixOf_iff_prefix.2 (List.prefix_append _ _),
      if_pos rfl, List.drop_left, spelled, Option.getD_some]
  · intro elsewhere
    have apart : ¬cwd.isBelow p = true := by
      rw [Path.isBelow, List.isPrefixOf_iff_prefix, whole, base]
      rintro ⟨rest, split⟩
      refine elsewhere ?_
      have names : (cwd.place.map Path.Component.name) <+: p.place.map .name := ⟨rest, (List.cons.inj split).2⟩
      exact (List.prefix_map_iff_of_injective fun _ _ => Path.Component.name.inj).1 names
    rw [relative, Path.relativeTo?, if_neg apart, Option.getD_none]

/-! ## Discovering -/

theorem discover_eq_ok_iff {files : List Path} : discover tree cwd patterns excludes = .ok files ↔
    ∃ gs, excludes.mapM compile = .ok gs ∧ ∃ found, foundAll tree cwd patterns = .ok found ∧
      files = (found.filter fun p => !isExcluded cwd gs p).eraseDups := by
  rw [discover, bind_eq_ok_iff]
  refine exists_congr fun gs => and_congr_right fun _ => ?_
  rw [bind_eq_ok_iff]
  refine exists_congr fun found => and_congr_right fun _ => ?_
  exact ⟨fun h => (Except.ok.inj h).symm, fun h => congrArg Except.ok h.symm⟩

/-- The discovered files are those that are found and not excluded. -/
theorem exists_discover (tree : FileTree) (walkable : ∀ pattern ∈ patterns, IsFilePattern cwd pattern)
    (valid : ∀ x ∈ excludes, (Glob.Pattern.ofText x).isOk = true) :
    ∃ files, discover tree cwd patterns excludes = .ok files ∧ ∀ p, p ∈ files ↔
      (∃ pattern ∈ patterns, Finds tree cwd pattern p) ∧ ¬∃ x ∈ excludes, Excludes cwd x p := by
  obtain ⟨gs, compiled, excluded⟩ := exists_compiled cwd valid
  obtain ⟨found, all, among⟩ := exists_foundAll tree walkable
  refine ⟨_, discover_eq_ok_iff.2 ⟨gs, compiled, found, all, rfl⟩, fun p => ?_⟩
  rw [List.mem_eraseDups, List.mem_filter, among, ← excluded]
  simp

/-- More patterns add the files that they alone discover. -/
theorem discover_append {files more : List Path} (first : discover tree cwd ps xs = .ok files)
    (second : discover tree cwd qs xs = .ok more) :
    discover tree cwd (ps ++ qs) xs = .ok (files ++ more.filter fun p => !files.contains p) := by
  obtain ⟨gs, compiled, here, found, rfl⟩ := discover_eq_ok_iff.1 first
  obtain ⟨gs', compiled', later, found', rfl⟩ := discover_eq_ok_iff.1 second
  obtain rfl := Except.ok.inj (compiled.symm.trans compiled')
  refine discover_eq_ok_iff.2 ⟨gs, compiled, here ++ later, foundAll_append found found', ?_⟩
  rw [List.filter_append, eraseDups_append_filter]

/-- More exclusions take away the files that they match. -/
theorem discover_exclude {files : List Path} (first : discover tree cwd ps xs = .ok files)
    (valid : ∀ y ∈ ys, (Glob.Pattern.ofText y).isOk = true) :
    ∃ kept, discover tree cwd ps (xs ++ ys) = .ok kept ∧ kept.Sublist files ∧
      ∀ p, p ∈ kept ↔ p ∈ files ∧ ¬∃ y ∈ ys, Excludes cwd y p := by
  obtain ⟨gs, compiled, found, all, rfl⟩ := discover_eq_ok_iff.1 first
  obtain ⟨hs, compiled', excluded⟩ := exists_compiled cwd valid
  have both : (found.filter fun p => !isExcluded cwd (gs ++ hs) p).eraseDups =
      (found.filter fun p => !isExcluded cwd gs p).eraseDups.filter fun p => !isExcluded cwd hs p := by
    rw [← eraseDups_filter, List.filter_filter]
    congr 2
    funext p
    rw [isExcluded, List.any_append, Bool.not_or, Bool.and_comm]
    rfl
  refine ⟨_, discover_eq_ok_iff.2 ⟨gs ++ hs, mapM_append_ok compiled compiled', found, all, both.symm⟩,
    List.filter_sublist, fun p => ?_⟩
  rw [List.mem_filter, ← excluded, Bool.not_eq_true, Bool.not_eq_true']

/-- Patterns that are given again discover nothing new. -/
theorem discover_repeated {repeated : List Text} {files : List Path} (walkable : ∀ pattern ∈ ps, IsFilePattern cwd pattern)
    (valid : ∀ x ∈ xs, (Glob.Pattern.ofText x).isOk = true) (again : ∀ pattern ∈ repeated, pattern ∈ ps)
    (first : discover tree cwd ps xs = .ok files) : discover tree cwd (ps ++ repeated) xs = .ok files := by
  obtain ⟨files', first', among⟩ := exists_discover tree walkable valid
  obtain rfl := Except.ok.inj (first.symm.trans first')
  obtain ⟨more, second, amongMore⟩ := exists_discover tree
    (fun pattern member => walkable pattern (again pattern member)) valid
  have nothing : (more.filter fun p => !files.contains p) = [] := by
    refine List.filter_eq_nil_iff.2 fun p member => ?_
    obtain ⟨⟨pattern, inside, finds⟩, clear⟩ := (amongMore p).1 member
    simpa using (among p).2 ⟨⟨pattern, again pattern inside, finds⟩, clear⟩
  rw [discover_append first second, nothing, List.append_nil]

/-- From patterns that can be walked with, and valid exclusions, files are discovered, each once: in normal form, those
that a pattern finds and no exclusion matches, as they are seen from the working directory. More patterns add what they
discover besides, in its order, so a pattern that is repeated changes nothing; and more exclusions take out exactly what
they match, leaving the others in their order. -/
theorem discover_incremental (tree : FileTree) (absolute : cwd.isAbsolute = true) (normal : cwd.normalize = cwd)
    (walkable : ∀ pattern ∈ ps ++ qs, IsFilePattern cwd pattern)
    (valid : ∀ x ∈ xs ++ ys, (Glob.Pattern.ofText x).isOk = true) :
    ∃ files more kept, discover tree cwd ps xs = .ok files ∧ discover tree cwd qs xs = .ok more ∧
      discover tree cwd ps (xs ++ ys) = .ok kept ∧ files.Nodup ∧
      (∀ p, p ∈ files ↔ (∃ pattern ∈ ps, Finds tree cwd pattern p) ∧ ¬∃ x ∈ xs, Excludes cwd x p) ∧
      (∀ p ∈ files, tree.isFile p = true ∧ p.isAbsolute = true ∧ p.normalize = p ∧
        (∀ below, p.place = cwd.place ++ below → (relative cwd p).chars = Text.join ['/'] below) ∧
        (¬cwd.place <+: p.place → relative cwd p = p)) ∧
      discover tree cwd (ps ++ qs) xs = .ok (files ++ more.filter fun p => !files.contains p) ∧
      (∀ repeated, (∀ pattern ∈ repeated, pattern ∈ ps) →
        discover tree cwd (ps ++ repeated ++ qs) xs = discover tree cwd (ps ++ qs) xs) ∧
      kept.Sublist files ∧ ∀ p, p ∈ kept ↔ p ∈ files ∧ ¬∃ y ∈ ys, Excludes cwd y p := by
  obtain ⟨walkableFirst, walkableMore⟩ := List.forall_mem_append.1 walkable
  obtain ⟨validFirst, validMore⟩ := List.forall_mem_append.1 valid
  obtain ⟨files, first, among⟩ := exists_discover tree walkableFirst validFirst
  obtain ⟨more, second, -⟩ := exists_discover tree walkableMore validFirst
  obtain ⟨kept, excluded, inOrder, left⟩ := discover_exclude first validMore
  obtain ⟨once, spelled⟩ := discover_normal first
  have both := discover_append first second
  refine ⟨files, more, kept, first, second, excluded, once, among, fun p member => ?_, both, fun repeated again => ?_,
    inOrder, left⟩
  · obtain ⟨absolute', normal'⟩ := spelled p member
    exact ⟨discover_isFile first p member, absolute', normal', relative_eq absolute normal absolute' normal'⟩
  · rw [discover_append (discover_repeated walkableFirst validFirst again first) second, both]

theorem discover_incremental_overlapping :
    let file (place : List String) : Place × FileNode := (place.map String.toList, .file (.text []))
    let tree : FileTree := ⟨[file ["p", "src", "b.ts"], file ["p", "src", "a.ts"], file ["p", "src", "gen", "c.ts"],
      file ["p", "src", ".d.ts"], file ["q", "e.ts"], file ["p", "src", "deep", "f.ts"]]⟩
    let cwd : Path := .ofString "/p"
    let ps := ["src/./b.ts", "src/**/*.ts"].map String.toList
    let qs := ["../q/*.ts", "src/?.ts", "../q/e.ts"].map String.toList
    let xs := ["src/gen/**"].map String.toList
    let ys := ["src/[a-b].ts", "/q/*"].map String.toList
    ∃ files more kept, discover tree cwd ps xs = .ok files ∧ discover tree cwd qs xs = .ok more ∧
      discover tree cwd ps (xs ++ ys) = .ok kept ∧
      files.map (·.toString) = ["/p/src/b.ts", "/p/src/.d.ts", "/p/src/a.ts", "/p/src/deep/f.ts"] ∧
      more.map (·.toString) = ["/q/e.ts", "/p/src/a.ts", "/p/src/b.ts"] ∧
      kept.map (·.toString) = ["/p/src/.d.ts", "/p/src/deep/f.ts"] ∧ files.Nodup ∧ kept.Sublist files ∧
      discover tree cwd (ps ++ qs) xs = .ok (files ++ [.ofString "/q/e.ts"]) ∧
      discover tree cwd (ps ++ ps ++ qs) xs = discover tree cwd (ps ++ qs) xs := by
  intro file tree cwd ps qs xs ys
  have walkable : ∀ pattern ∈ ps ++ qs, IsFilePattern cwd pattern := by decide +kernel
  have valid : ∀ x ∈ xs ++ ys, (Glob.Pattern.ofText x).isOk = true := by decide +kernel
  obtain ⟨files, more, kept, first, second, excluded, once, -, -, both, again, inOrder, -⟩ :=
    discover_incremental tree (by decide) (by decide) walkable valid
  have first' : discover tree cwd ps xs = .ok (["/p/src/b.ts", "/p/src/.d.ts", "/p/src/a.ts", "/p/src/deep/f.ts"].map
      Path.ofString) := eq_ok_of_toOption (by decide +kernel)
  have second' : discover tree cwd qs xs = .ok (["/q/e.ts", "/p/src/a.ts", "/p/src/b.ts"].map Path.ofString) :=
    eq_ok_of_toOption (by decide +kernel)
  have excluded' : discover tree cwd ps (xs ++ ys) = .ok (["/p/src/.d.ts", "/p/src/deep/f.ts"].map Path.ofString) :=
    eq_ok_of_toOption (by decide +kernel)
  obtain rfl := Except.ok.inj (first'.symm.trans first)
  obtain rfl := Except.ok.inj (second'.symm.trans second)
  obtain rfl := Except.ok.inj (excluded'.symm.trans excluded)
  exact ⟨_, _, _, first, second, excluded, by decide, by decide, by decide, once, inOrder, both,
    again ps fun _ member => member⟩

end Discovery

end ComponentLint
