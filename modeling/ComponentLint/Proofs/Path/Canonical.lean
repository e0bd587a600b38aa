import ComponentLint.Component.Frame
import ComponentLint.Path.Key
import ComponentLint.Proofs.Path.Joining

/-! The normal form of a path stands for the path. It leads to the same place from wherever it is taken, either part of
a joined path may be normalized beforehand, and what is kept by path is kept by it. -/
namespace ComponentLint.Path

variable {p q cwd : Path} {rooted : Bool}

/-! ## Folding in parts -/

/-- What a path of this kind is folded on. -/
def bottom (rooted : Bool) : List Component := if rooted then [.root] else []

theorem isStep_of_mem_steps {c : Component} (member : c ∈ p.steps) : c.IsStep := by
  obtain ⟨_, isStep, rfl, -⟩ := components_cases p
  exact isStep c member

theorem foldComponents_eq (p : Path) :
    foldComponents p.components = (p.steps.foldl foldStep (bottom p.isAbsolute)).reverse := by
  obtain ⟨_, -, rfl, ⟨absolute, shape⟩ | ⟨relative, shape | shape⟩⟩ := components_cases p
  · rw [shape, absolute]
    rfl
  · rw [shape, relative]
    rfl
  · rw [shape, relative]
    rfl

/-- On what its kind is folded on, a path comes to the same as its normal form. -/
theorem foldl_normalize (p : Path) :
    p.normalize.steps.foldl foldStep (bottom p.isAbsolute) = p.steps.foldl foldStep (bottom p.isAbsolute) := by
  have same : foldComponents p.normalize.components = foldComponents p.components := by
    rw [normalize_components, (foldComponents_normal p).foldComponents_eq]
  rw [foldComponents_eq, foldComponents_eq, normalize_isAbsolute] at same
  exact List.reverse_inj.1 same

theorem normalize_eq (p : Path) : p.normalize = ofComponents (p.steps.foldl foldStep (bottom p.isAbsolute)).reverse := by
  rw [normalize, foldComponents_eq]

theorem isAbsolute_join (p q : Path) : (p.join q).isAbsolute = (p.isAbsolute || q.isAbsolute) := by
  rw [Bool.eq_iff_iff, Bool.or_eq_true]
  refine ⟨isAbsolute_of_join, ?_⟩
  rintro (front | back)
  · exact join_absolute front q
  · rw [join_of_absolute p back]
    exact back

/-- What a path is put behind may be normalized beforehand. -/
theorem normalize_join (p q : Path) : (p.normalize.join q).normalize = (p.join q).normalize := by
  cases absolute : q.isAbsolute with
  | true => rw [join_of_absolute _ absolute, join_of_absolute _ absolute]
  | false =>
    rw [normalize_eq, normalize_eq (p.join q), join_steps absolute, join_steps absolute, List.foldl_append,
      List.foldl_append, isAbsolute_join, isAbsolute_join, normalize_isAbsolute, absolute, Bool.or_false,
      foldl_normalize]

/-! ## The shape of the normal form -/

theorem current_not_mem_normalize (p : Path) : .current ∉ p.normalize.components := by
  rw [normalize_components]
  obtain ⟨names, -, ⟨-, shape⟩ | ⟨-, k, shape⟩⟩ := foldComponents_normal p
  · simp [shape]
  · simp [shape, List.mem_replicate]

/-- In the normal form `..` stands at the start only, and behind a root not at all. -/
theorem parent_normalize (p : Path) :
    (∃ k rest, p.normalize.components = List.replicate k .parent ++ rest ∧ .parent ∉ rest) ∧
      (p.isAbsolute = true → .parent ∉ p.normalize.components) := by
  rw [normalize_components]
  obtain ⟨names, -, ⟨-, shape⟩ | ⟨relative, k, shape⟩⟩ := foldComponents_normal p
  · have none_ : .parent ∉ Component.root :: names.map Component.name := by simp
    exact ⟨⟨0, _, shape, none_⟩, fun _ => by rwa [shape]⟩
  · exact ⟨⟨k, _, shape, by simp⟩, fun absolute => by simp [relative] at absolute⟩

/-! ## What the normal form means -/

/-- A relative path folds on any stack as what it comes to by itself. -/
theorem foldl_foldl {top steps : List Component} (h : Settled false top) (isStep : ∀ c ∈ steps, c.IsStep)
    (stack : List Component) :
    (steps.foldl foldStep top).reverse.foldl foldStep stack = steps.foldl foldStep (top.reverse.foldl foldStep stack) := by
  induction steps generalizing top with
  | nil => rfl
  | cons c steps ih =>
    have step := isStep c (by simp)
    rw [List.foldl_cons, List.foldl_cons, ih (foldStep_settled h step) fun d member => isStep d (by simp [member])]
    congr 1
    rcases step with rfl | ⟨s, rfl, -⟩
    · cases h with
      | climb k =>
        have above : foldStep (List.replicate k .parent) .parent = .parent :: List.replicate k .parent := by
          cases k <;> rfl
        rw [above, List.reverse_cons, List.foldl_append]
        rfl
      | name isName below => simp [foldStep]
    · simp [foldStep]

theorem normalize_steps_relative (relative : p.isAbsolute = false) :
    p.normalize.steps = (p.steps.foldl foldStep []).reverse := by
  have components := normalize_components p
  rw [foldComponents_eq, relative] at components
  obtain ⟨steps, -, rfl, ⟨absolute, -⟩ | ⟨-, dotted | shape⟩⟩ := components_cases p.normalize
  · rw [normalize_isAbsolute, relative] at absolute
    contradiction
  · exact absurd (by simp [dotted]) (current_not_mem_normalize p)
  · rw [steps, ← shape, components]
    rfl

/-- What is put behind a path may be normalized beforehand. -/
theorem join_normalize (p q : Path) : (p.join q.normalize).normalize = (p.join q).normalize := by
  cases absolute : q.isAbsolute with
  | true => rw [join_of_absolute _ absolute, join_of_absolute _ (by rw [normalize_isAbsolute, absolute]), normalize_normalize]
  | false =>
    have relative : q.normalize.isAbsolute = false := by rw [normalize_isAbsolute, absolute]
    have settled : (q.steps.foldl foldStep []).reverse.foldl foldStep (p.steps.foldl foldStep (bottom p.isAbsolute)) =
        q.steps.foldl foldStep (p.steps.foldl foldStep (bottom p.isAbsolute)) :=
      foldl_foldl (.climb 0) (fun _ => isStep_of_mem_steps) _
    rw [normalize_eq, normalize_eq (p.join q), join_steps absolute, join_steps relative, List.foldl_append,
      List.foldl_append, isAbsolute_join, isAbsolute_join, absolute, relative, Bool.or_false,
      normalize_steps_relative absolute, settled]

/-! ## Keys -/

theorem step_steps {c : Component} (isStep : c.IsStep) :
    (⟨c.chars⟩ : Path).isAbsolute = false ∧ (⟨c.chars⟩ : Path).steps = [c] := by
  obtain ⟨-, -, pure, read⟩ := isStep.chars
  refine ⟨relative_of_absent pure, ?_⟩
  rw [steps, Text.splitOn_of_absent pure, List.filterMap_cons_some read]
  rfl

/-- Steps that are put behind an absolute path are its further steps. -/
theorem extend_absolute {cs : List Component} (isStep : ∀ c ∈ cs, c.IsStep) (absolute : p.isAbsolute = true) :
    (p.extend cs).isAbsolute = true ∧ (p.extend cs).steps = p.steps ++ cs := by
  induction cs generalizing p with
  | nil => exact ⟨absolute, (List.append_nil _).symm⟩
  | cons c cs ih =>
    obtain ⟨relative, alone⟩ := step_steps (isStep c (by simp))
    obtain ⟨rooted, more⟩ := ih (fun d member => isStep d (by simp [member])) (join_absolute absolute ⟨c.chars⟩)
    refine ⟨rooted, more.trans ?_⟩
    rw [join_steps relative, alone, List.append_assoc, List.singleton_append]

/-- Without single dots, a path is its steps, behind the root of an absolute path. -/
theorem filter_components (p : Path) : p.components.filter (· ≠ .current) = bottom p.isAbsolute ++ p.steps := by
  have kept : p.steps.filter (· ≠ .current) = p.steps := by
    refine List.filter_eq_self.2 fun c member => ?_
    rcases isStep_of_mem_steps member with rfl | ⟨s, rfl, -⟩ <;> rfl
  obtain ⟨_, -, rfl, ⟨absolute, shape⟩ | ⟨relative, shape | shape⟩⟩ := components_cases p
  · rw [shape, absolute, List.filter_cons_of_pos (by decide)]
    exact congrArg _ kept
  · rw [shape, relative, List.filter_cons_of_neg (by decide)]
    exact kept
  · rw [shape, relative]
    exact kept

/-- Made absolute, a path has the components that it has behind the working directory. -/
theorem absolute?_components (some_ : p.chars ≠ []) (absolute : (cwd.join p).isAbsolute = true) :
    ∃ q, absolute? cwd p = some q ∧ q.components = (cwd.join p).components := by
  have isStep : ∀ c ∈ p.steps, c.IsStep := fun _ => isStep_of_mem_steps
  -- a slash at the end adds no step
  have ended {q : Path} (rooted : q.isAbsolute = true ∧ q.steps = (cwd.join p).steps) :
      (if p.chars.getLast? = some '/' then q.join ⟨[]⟩ else q).components = (cwd.join p).components := by
    have further : (q.join ⟨[]⟩).steps = q.steps := by rw [join_steps rfl]; exact List.append_nil _
    rw [components_absolute absolute, ← rooted.2]
    split
    · rw [components_absolute (join_absolute rooted.1 _), further]
    · rw [components_absolute rooted.1]
  rw [absolute?, if_neg some_]
  refine ⟨_, rfl, ended ?_⟩
  rw [filter_components]
  cases whole : p.isAbsolute with
  | true =>
    rw [join_of_absolute cwd whole]
    by_cases doubled : (p.chars.startsWith ['/', '/'] && !p.chars.startsWith ['/', '/', '/']) = true
    · rw [if_neg (by simp), if_pos doubled]
      exact extend_absolute isStep rfl
    · rw [if_neg (by simp), if_neg doubled]
      exact extend_absolute (p := ⟨['/']⟩) isStep rfl
  | false =>
    have front : cwd.isAbsolute = true := by simpa [isAbsolute_join, whole] using absolute
    rw [join_steps whole]
    exact extend_absolute isStep front

/-- The key of a path is its normal form behind the working directory. -/
theorem cacheKey_eq (some_ : p.chars ≠ []) (absolute : (cwd.join p).isAbsolute = true) :
    cacheKey cwd p = (cwd.join p).normalize := by
  obtain ⟨q, found, same⟩ := absolute?_components some_ absolute
  rw [cacheKey, found, Option.getD_some, normalize, normalize, same]

theorem cacheKey_absolute (absolute : p.isAbsolute = true) : cacheKey cwd p = p.normalize := by
  have some_ : p.chars ≠ [] := by
    intro empty
    simp [isAbsolute, empty] at absolute
  have itself := join_of_absolute cwd absolute
  rw [cacheKey_eq some_ (by rwa [itself]), itself]

/-- A normal form has no single dot, and `..` only at the start of a relative path; it is absolute if the path is, its own
normal form, and leads to the same place from wherever it is taken. A path that another one is put behind may be
normalized beforehand. So for absolute paths the keys are the same exactly if the normal forms are, a key is its own
key, and frames are looked up by it. -/
theorem normalize_canonical (p q : Path) :
    .current ∉ p.normalize.components ∧
    (∃ k rest, p.normalize.components = List.replicate k .parent ++ rest ∧ .parent ∉ rest) ∧
    (p.isAbsolute = true → .parent ∉ p.normalize.components) ∧
    p.normalize.isAbsolute = p.isAbsolute ∧
    p.normalize.normalize = p.normalize ∧
    (∀ base : Path, (base.join p.normalize).place = (base.join p).place) ∧
    (p.join q).normalize = (p.normalize.join q).normalize ∧
    ∀ cwd, p.isAbsolute = true → q.isAbsolute = true →
      (cacheKey cwd p = cacheKey cwd q ↔ p.normalize = q.normalize) ∧
      cacheKey cwd (cacheKey cwd p) = cacheKey cwd p ∧
      ∀ shelf : ComponentLint.Component.Shelf, shelf.get? p = shelf.frames.find? (·.path = cacheKey cwd p) := by
  obtain ⟨leading, rooted⟩ := parent_normalize p
  refine ⟨current_not_mem_normalize p, leading, rooted, normalize_isAbsolute p, normalize_normalize p,
    fun base => place_eq_of_normalize (join_normalize base p), (normalize_join p q).symm, fun cwd first second => ?_⟩
  have kept : p.normalize.isAbsolute = true := by rw [normalize_isAbsolute, first]
  rw [cacheKey_absolute first, cacheKey_absolute second, cacheKey_absolute kept, normalize_normalize]
  exact ⟨Iff.rfl, rfl, fun shelf => rfl⟩

theorem normalize_canonical_slashes :
    let p : Path := .ofString "//a/.//b/../../../c/./"
    let q : Path := .ofString "/c//d/.."
    let cwd : Path := .ofString "/w"
    p.isAbsolute = true ∧ q.isAbsolute = true ∧ (absolute? cwd p).map (·.toString) = some "//a/b/../../../c/" ∧
      (absolute? cwd q).map (·.toString) = some "/c/d/.." ∧ cacheKey cwd p = cacheKey cwd q ∧
      (p.join (.ofString "../../x")).normalize = (p.normalize.join (.ofString "../../x")).normalize ∧
      ((Path.ofString "/w").join p.normalize).place = ((Path.ofString "/w").join p).place := by
  intro p q cwd
  obtain ⟨-, -, -, -, -, place, -, key⟩ := normalize_canonical p q
  obtain ⟨-, -, -, -, -, -, joined, -⟩ := normalize_canonical p (.ofString "../../x")
  have same : p.normalize = q.normalize := by decide +kernel
  exact ⟨rfl, rfl, by decide +kernel, by decide +kernel, (key cwd rfl rfl).1.2 same, joined, place _⟩

end ComponentLint.Path
