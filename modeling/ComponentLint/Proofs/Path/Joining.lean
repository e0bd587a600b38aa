import ComponentLint.Proofs.Path.Climbing

/-! What is put behind a path. A relative path adds its steps to those of the path that it is put behind, so where it has
no `..` it leads to its names below the place of that path. -/
namespace ComponentLint.Path

/-- What is behind the root or the leading dot of a path. -/
def steps (p : Path) : List Component := (p.chars.splitOn '/').filterMap Component.ofSegment?

/-- The segments of a path that are neither empty nor a single dot. -/
def named (p : Path) : List Text := (p.chars.splitOn '/').filter fun s => s ≠ [] ∧ s ≠ ['.']

variable {p q : Path}

theorem components_absolute (absolute : p.isAbsolute = true) : p.components = .root :: p.steps := by
  simp [components, absolute, steps]

theorem join_steps (relative : q.isAbsolute = false) (p : Path) : (p.join q).steps = p.steps ++ q.steps := by
  have empty : (Text.splitOn '/' []).filterMap Component.ofSegment? = [] := rfl
  rw [join, if_neg (by simp [relative])]
  split_ifs with ends
  · rcases ends with none_ | slash
    · simp [steps, none_, empty]
    · obtain ⟨front, split⟩ := List.getLast?_eq_some_iff.1 slash
      simp only [steps, split, List.append_assoc, List.singleton_append, Text.splitOn_append_cons,
        List.filterMap_append, empty, List.append_nil]
  · simp only [steps, Text.splitOn_append_cons, List.filterMap_append]

theorem join_place (absolute : p.isAbsolute = true) (relative : q.isAbsolute = false) :
    (p.join q).place = q.steps.foldl Component.follow p.place := by
  rw [place, components_absolute (join_absolute absolute q), join_steps relative, ← List.cons_append,
    ← components_absolute absolute, List.foldl_append]
  rfl

/-- The steps of a path without `..` are its names. -/
theorem steps_of_not_climbs (flat : ¬p.Climbs) : p.steps = p.named.map .name := by
  rw [climbs_iff] at flat
  rw [steps, named]
  generalize p.chars.splitOn '/' = segments at flat ⊢
  induction segments with
  | nil => rfl
  | cons s segments ih =>
    obtain ⟨other, later⟩ : ['.', '.'] ≠ s ∧ ['.', '.'] ∉ segments := by simpa using flat
    by_cases nothing : s = [] ∨ s = ['.']
    · have skipped : Component.ofSegment? s = none := if_pos nothing
      rw [List.filterMap_cons_none skipped, ih later, List.filter_cons_of_neg]
      rcases nothing with rfl | rfl <;> simp
    · have taken : Component.ofSegment? s = some (.name s) := by
        rw [Component.ofSegment?, if_neg nothing, if_neg other.symm]
      rw [List.filterMap_cons_some taken, ih later, List.filter_cons_of_pos, List.map_cons]
      simpa using nothing

theorem join_place_named (absolute : p.isAbsolute = true) (relative : q.isAbsolute = false) (flat : ¬q.Climbs) :
    (p.join q).place = p.place ++ q.named := by
  rw [join_place absolute relative, steps_of_not_climbs flat, foldl_follow_names]

theorem place_named (absolute : p.isAbsolute = true) (flat : ¬p.Climbs) : p.place = p.named := by
  rw [place, components_absolute absolute, steps_of_not_climbs flat]
  exact foldl_follow_names p.named []

/-- The normal form of an absolute path has the names of its place. -/
theorem normalize_components_absolute (absolute : p.isAbsolute = true) :
    p.normalize.components = .root :: p.place.map .name := by
  have normal : Normal true (.root :: p.place.map .name) :=
    ⟨p.place, fun s member => isName_of_mem_place absolute member, .inl ⟨rfl, rfl⟩⟩
  rw [normalize_absolute absolute, normal.components_eq.1]

end ComponentLint.Path
