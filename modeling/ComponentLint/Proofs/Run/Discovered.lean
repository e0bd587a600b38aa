import ComponentLint.Run.Discovery
import ComponentLint.Proofs.Distinct
import ComponentLint.Proofs.Files.Places
import ComponentLint.Proofs.Glob.Walk
import ComponentLint.Proofs.Path.Absolute
import Mathlib.Data.List.TakeWhile

/-! What is discovered. A walk stays below the root it starts from, so the discovered files are absolute; they
are files of the tree, in normal form, and none comes twice. -/
namespace ComponentLint

namespace Discovery

theorem found_normal {tree : FileTree} {cwd : Path} {pattern : Text} {ps : List Path}
    (h : found tree cwd pattern = .ok ps) : ∀ p ∈ ps, p.isAbsolute = true ∧ p.normalize = p := by
  intro p member
  rw [found] at h
  cases walked : Glob.paths tree findOptions (cwd.join ⟨pattern⟩).chars with
  | error f => simp [walked] at h
  | ok qs =>
    rw [walked] at h
    obtain rfl := Except.ok.inj h
    obtain ⟨q, there, rfl⟩ := List.mem_map.1 member
    have absolute := Glob.paths_absolute walked q (List.mem_filter.1 there).1
    exact ⟨by rw [Path.normalize_isAbsolute, absolute], Path.normalize_normalize q⟩

/-- What holds of the files that each pattern finds holds of the files of all patterns. -/
theorem foundAll_forall {motive : Path → Prop} {tree : FileTree} {cwd : Path}
    (each : ∀ pattern ps, found tree cwd pattern = .ok ps → ∀ p ∈ ps, motive p) {patterns : List Text} {ps : List Path}
    (h : foundAll tree cwd patterns = .ok ps) : ∀ p ∈ ps, motive p := by
  induction patterns generalizing ps with
  | nil =>
    obtain rfl := Except.ok.inj h
    simp
  | cons pattern rest ih =>
    obtain ⟨here, now, h⟩ := bind_eq_ok_iff.1 h
    obtain ⟨others, later, h⟩ := bind_eq_ok_iff.1 h
    obtain rfl := Except.ok.inj h
    intro p member
    rcases List.mem_append.1 member with first | next
    · exact each pattern here now p first
    · exact ih later p next

/-- The discovered files are among those of the patterns, and none comes twice. -/
theorem discover_sub {tree : FileTree} {cwd : Path} {patterns excludes : List Text} {files : List Path}
    (h : discover tree cwd patterns excludes = .ok files) :
    files.Nodup ∧ ∃ ps, foundAll tree cwd patterns = .ok ps ∧ ∀ p ∈ files, p ∈ ps := by
  obtain ⟨excluded, -, h⟩ := bind_eq_ok_iff.1 h
  obtain ⟨ps, all, h⟩ := bind_eq_ok_iff.1 h
  obtain rfl := Except.ok.inj h
  exact ⟨nodup_eraseDups _, ps, all, fun p member => (List.mem_filter.1 (List.mem_eraseDups.1 member)).1⟩

/-- The discovered files are absolute and in normal form, and none comes twice. -/
theorem discover_normal {tree : FileTree} {cwd : Path} {patterns excludes : List Text} {files : List Path}
    (h : discover tree cwd patterns excludes = .ok files) :
    files.Nodup ∧ ∀ p ∈ files, p.isAbsolute = true ∧ p.normalize = p := by
  obtain ⟨once, ps, all, among⟩ := discover_sub h
  exact ⟨once, fun p member => foundAll_forall (fun _ _ => found_normal) all p (among p member)⟩

theorem discover_isFile {tree : FileTree} {cwd : Path} {patterns excludes : List Text} {files : List Path}
    (h : discover tree cwd patterns excludes = .ok files) : ∀ p ∈ files, tree.isFile p = true := by
  have each (pattern : Text) (ps : List Path) (h : found tree cwd pattern = .ok ps) :
      ∀ p ∈ ps, tree.isFile p = true := by
    intro p member
    rw [found] at h
    cases walked : Glob.paths tree findOptions (cwd.join ⟨pattern⟩).chars with
    | error f => simp [walked] at h
    | ok qs =>
      rw [walked] at h
      obtain rfl := Except.ok.inj h
      obtain ⟨q, there, rfl⟩ := List.mem_map.1 member
      exact FileTree.isFile_normalize (List.mem_filter.1 there).2
  obtain ⟨-, ps, all, among⟩ := discover_sub h
  exact fun p member => foundAll_forall each all p (among p member)

end Discovery

end ComponentLint
