import ComponentLint.Path.Basic
import ComponentLint.Proofs.Text.Split

/-! The normal form of paths: a root or some `..`, then names. Normalizing reaches it and keeps it, and it
keeps the place that a path means where no name on the way is a link. -/
namespace ComponentLint.Path

/-! ## Segments and components -/

/-- A segment that is the name of a file or a directory. -/
def IsName (s : Text) : Prop := s ≠ [] ∧ s ≠ ['.'] ∧ s ≠ ['.', '.'] ∧ '/' ∉ s

/-- A path without slashes is relative. -/
theorem relative_of_absent {s : Text} (h : '/' ∉ s) : (⟨s⟩ : Path).isAbsolute = false := by
  cases s with
  | nil => rfl
  | cons c s =>
    have other : c ≠ '/' := by
      rintro rfl
      simp at h
    simp [isAbsolute, other]

namespace Component

theorem ofSegment?_name {s : Text} (h : IsName s) : ofSegment? s = some (.name s) := by
  simp [ofSegment?, h.1, h.2.1, h.2.2.1]

theorem ofSegment?_cases {s : Text} {c : Component} (pure : '/' ∉ s) (h : ofSegment? s = some c) :
    c = .parent ∧ s = ['.', '.'] ∨ c = .name s ∧ IsName s := by
  rw [ofSegment?] at h
  by_cases dots : s = ['.', '.']
  · subst s
    exact .inl ⟨by simpa using h.symm, rfl⟩
  · by_cases none_ : s = [] ∨ s = ['.']
    · simp [none_] at h
    · obtain ⟨some_, other⟩ := not_or.1 none_
      rw [if_neg none_, if_neg dots] at h
      exact .inr ⟨(Option.some.inj h).symm, some_, other, dots, pure⟩

end Component

/-- A step behind the root of a path. -/
def Component.IsStep (c : Component) : Prop := c = .parent ∨ ∃ s, c = .name s ∧ IsName s

/-- The components of a path are steps, with a root or a single dot before them or nothing. -/
theorem components_cases (p : Path) :
    ∃ steps, (∀ c ∈ steps, c.IsStep) ∧ steps = (p.chars.splitOn '/').filterMap Component.ofSegment? ∧
      (p.isAbsolute = true ∧ p.components = .root :: steps ∨
        p.isAbsolute = false ∧ (p.components = .current :: steps ∨ p.components = steps)) := by
  refine ⟨_, fun c member => ?_, rfl, ?_⟩
  · obtain ⟨s, piece, segment⟩ := List.mem_filterMap.1 member
    rcases Component.ofSegment?_cases (Text.absent_of_mem_splitOn piece) segment with ⟨rfl, -⟩ | ⟨rfl, isName⟩
    · exact .inl rfl
    · exact .inr ⟨s, rfl, isName⟩
  · cases absolute : p.isAbsolute with
    | true => exact .inl ⟨rfl, by simp [components, absolute]⟩
    | false =>
      refine .inr ⟨rfl, ?_⟩
      by_cases dot : (p.chars.splitOn '/').head? = some ['.']
      · exact .inl (by simp [components, absolute, dot])
      · exact .inr (by simp [components, absolute, dot])

/-! ## Stacks -/

/-- A stack of components in normal form, its top first, with or without a root at the bottom. -/
inductive Settled : Bool → List Component → Prop where
  | root : Settled true [.root]
  | climb (k : Nat) : Settled false (List.replicate k .parent)
  | name (h : IsName s) : Settled rooted stack → Settled rooted (.name s :: stack)

variable {rooted : Bool}

theorem foldStep_settled {stack : List Component} (h : Settled rooted stack) {c : Component} (step : c.IsStep) :
    Settled rooted (foldStep stack c) := by
  rcases step with rfl | ⟨s, rfl, isName⟩
  · cases h with
    | root => exact .root
    | climb k =>
      have above : foldStep (List.replicate k .parent) .parent = List.replicate (k + 1) .parent := by
        cases k <;> rfl
      rw [above]
      exact .climb (k + 1)
    | name isName below => exact below
  · exact .name isName h

theorem foldl_settled {stack steps : List Component} (h : Settled rooted stack) (isStep : ∀ c ∈ steps, c.IsStep) :
    Settled rooted (steps.foldl foldStep stack) := by
  induction steps generalizing stack with
  | nil => exact h
  | cons c steps ih =>
    exact ih (foldStep_settled h (isStep c (by simp))) fun d member => isStep d (by simp [member])

/-- Components in normal form: a root or some `..`, then names. -/
def Normal (rooted : Bool) (cs : List Component) : Prop :=
  ∃ names : List Text, (∀ s ∈ names, IsName s) ∧
    (rooted = true ∧ cs = .root :: names.map .name ∨
      rooted = false ∧ ∃ k, cs = List.replicate k .parent ++ names.map .name)

theorem Settled.normal {stack : List Component} (h : Settled rooted stack) : Normal rooted stack.reverse := by
  induction h with
  | root => exact ⟨[], by simp, .inl ⟨rfl, rfl⟩⟩
  | climb k => exact ⟨[], by simp, .inr ⟨rfl, k, by simp⟩⟩
  | @name s rooted stack isName below ih =>
    obtain ⟨names, isNames, shape⟩ := ih
    refine ⟨names ++ [s], ?_, ?_⟩
    · intro t member
      rcases List.mem_append.1 member with early | last
      · exact isNames t early
      · rw [List.mem_singleton.1 last]
        exact isName
    · rcases shape with ⟨rfl, shape⟩ | ⟨rfl, k, shape⟩
      · exact .inl ⟨rfl, by simp [shape]⟩
      · exact .inr ⟨rfl, k, by simp [shape]⟩

theorem foldComponents_normal (p : Path) : Normal p.isAbsolute (foldComponents p.components) := by
  obtain ⟨steps, isStep, -, ⟨absolute, shape⟩ | ⟨relative, shape | shape⟩⟩ := components_cases p
  · rw [shape, absolute]
    exact (foldl_settled .root isStep).normal
  · rw [shape, relative]
    exact (foldl_settled (.climb 0) isStep).normal
  · rw [shape, relative]
    exact (foldl_settled (.climb 0) isStep).normal

theorem foldl_names (names : List Text) (stack : List Component) :
    (names.map Component.name).foldl foldStep stack = (names.map Component.name).reverse ++ stack := by
  induction names generalizing stack with
  | nil => rfl
  | cons s names ih =>
    rw [List.map_cons, List.foldl_cons, ih]
    simp [foldStep]

theorem foldl_climb (k j : Nat) :
    (List.replicate k Component.parent).foldl foldStep (List.replicate j .parent) = List.replicate (k + j) .parent := by
  induction k generalizing j with
  | zero => simp
  | succ k ih =>
    have above : foldStep (List.replicate j .parent) .parent = List.replicate (j + 1) .parent := by
      cases j <;> rfl
    rw [List.replicate_succ, List.foldl_cons, above, ih]
    congr 1
    omega

theorem Normal.foldComponents_eq {cs : List Component} (h : Normal rooted cs) : foldComponents cs = cs := by
  obtain ⟨names, -, ⟨-, rfl⟩ | ⟨-, k, rfl⟩⟩ := h
  · rw [foldComponents, List.foldl_cons, foldl_names]
    simp [foldStep]
  · have climbed := foldl_climb k 0
    rw [List.replicate_zero, Nat.add_zero] at climbed
    rw [foldComponents, List.foldl_append, climbed, foldl_names]
    simp

/-! ## Spelling -/

theorem Component.IsStep.chars {c : Component} (h : c.IsStep) :
    c.chars ≠ [] ∧ c.chars ≠ ['.'] ∧ '/' ∉ c.chars ∧ ofSegment? c.chars = some c := by
  rcases h with rfl | ⟨s, rfl, isName⟩
  · decide
  · exact ⟨isName.1, isName.2.1, isName.2.2.2, ofSegment?_name isName⟩

theorem splitOn_chars {cs : List Component} (some_ : cs ≠ []) (isStep : ∀ c ∈ cs, c.IsStep) :
    (Text.join ['/'] (cs.map Component.chars)).splitOn '/' = cs.map Component.chars := by
  refine Text.splitOn_join (by simpa using some_) fun t member => ?_
  obtain ⟨c, inside, rfl⟩ := List.mem_map.1 member
  exact (isStep c inside).chars.2.2.1

theorem filterMap_chars {cs : List Component} (isStep : ∀ c ∈ cs, c.IsStep) :
    (cs.map Component.chars).filterMap Component.ofSegment? = cs := by
  induction cs with
  | nil => rfl
  | cons c cs ih =>
    rw [List.map_cons, List.filterMap_cons_some (isStep c (by simp)).chars.2.2.2,
      ih fun d member => isStep d (by simp [member])]

/-- Steps are read back from their spelling. -/
theorem ofSegment?_chars {cs : List Component} (isStep : ∀ c ∈ cs, c.IsStep) :
    ((Text.join ['/'] (cs.map Component.chars)).splitOn '/').filterMap Component.ofSegment? = cs := by
  by_cases none_ : cs = []
  · subst cs
    rfl
  · rw [splitOn_chars none_ isStep, filterMap_chars isStep]

/-- A relative path that is spelled from steps does not begin with a slash or a single dot. -/
theorem spelled_relative {cs : List Component} (isStep : ∀ c ∈ cs, c.IsStep) :
    ofComponents cs = ⟨Text.join ['/'] (cs.map Component.chars)⟩ ∧ (ofComponents cs).isAbsolute = false ∧
      ((ofComponents cs).chars.splitOn '/').head? ≠ some ['.'] := by
  cases cs with
  | nil => exact ⟨rfl, rfl, by decide⟩
  | cons c cs =>
    have first := isStep c (by simp)
    have spelled : ofComponents (c :: cs) = ⟨Text.join ['/'] ((c :: cs).map Component.chars)⟩ := by
      rcases first with rfl | ⟨s, rfl, -⟩ <;> rfl
    obtain ⟨some_, other, pure, -⟩ := first.chars
    have split := splitOn_chars (List.cons_ne_nil c cs) isStep
    refine ⟨spelled, ?_, ?_⟩
    · obtain ⟨d, rest, chars⟩ := List.exists_cons_of_ne_nil some_
      have different : d ≠ '/' := by
        rintro rfl
        simp [chars] at pure
      rw [spelled]
      cases cs with
      | nil => simp [isAbsolute, Text.join, chars, different]
      | cons e cs => simp [isAbsolute, Text.join, chars, different]
    · rw [spelled, split]
      simpa using other

/-- The path that is spelled from components in normal form has them. -/
theorem Normal.components_eq {cs : List Component} (h : Normal rooted cs) :
    (ofComponents cs).components = cs ∧ (ofComponents cs).isAbsolute = rooted := by
  obtain ⟨names, isNames, ⟨rfl, rfl⟩ | ⟨rfl, k, rfl⟩⟩ := h
  · have isStep : ∀ c ∈ names.map Component.name, c.IsStep := by
      intro c member
      obtain ⟨s, inside, rfl⟩ := List.mem_map.1 member
      exact .inr ⟨s, rfl, isNames s inside⟩
    have split : ((ofComponents (.root :: names.map .name)).chars.splitOn '/').filterMap Component.ofSegment? =
        names.map .name := by
      rw [ofComponents, ← List.nil_append ('/' :: _), Text.splitOn_append_cons, List.filterMap_append,
        ofSegment?_chars isStep]
      rfl
    exact ⟨by rw [components, split]; rfl, rfl⟩
  · have isStep : ∀ c ∈ List.replicate k .parent ++ names.map Component.name, c.IsStep := by
      intro c member
      rcases List.mem_append.1 member with up | down
      · exact .inl (List.eq_of_mem_replicate up)
      · obtain ⟨s, inside, rfl⟩ := List.mem_map.1 down
        exact .inr ⟨s, rfl, isNames s inside⟩
    obtain ⟨spelled, relative, noDot⟩ := spelled_relative isStep
    refine ⟨?_, relative⟩
    rw [components, relative, if_neg (by simp), if_neg noDot, spelled, ofSegment?_chars isStep]

theorem normalize_isAbsolute (p : Path) : p.normalize.isAbsolute = p.isAbsolute :=
  (foldComponents_normal p).components_eq.2

theorem normalize_components (p : Path) : p.normalize.components = foldComponents p.components :=
  (foldComponents_normal p).components_eq.1

theorem normalize_normalize (p : Path) : p.normalize.normalize = p.normalize := by
  rw [normalize, normalize_components, (foldComponents_normal p).foldComponents_eq, ← normalize]

theorem normalize_eq_of_same {p q : Path} (h : p.same q.normalize = true) : p.normalize = q.normalize := by
  have components : p.components = q.normalize.components := by simpa [same] using h
  rw [normalize, components, ← normalize, normalize_normalize]

theorem normalize_fileName {p : Path} {s : Text} (h : p.components.getLast? = some (.name s)) :
    p.normalize.fileName? = p.fileName? := by
  obtain ⟨front, split⟩ := List.getLast?_eq_some_iff.1 h
  have last : p.normalize.components.getLast? = some (.name s) := by
    rw [normalize_components, split, foldComponents, List.foldl_append]
    simp [foldStep]
  rw [fileName?, fileName?, h, last]

/-! ## Places -/

/-- Where a component leads to from a place, if nothing on the way is a link. -/
def Component.follow (place : List Text) : Component → List Text
  | root => place
  | current => place
  | parent => place.dropLast
  | name s => place ++ [s]

/-- The place that a path means from the root on. -/
def place (p : Path) : List Text := p.components.foldl Component.follow []

theorem foldStep_place {stack : List Component} (h : Settled rooted stack) {c : Component} (step : c.IsStep) :
    (foldStep stack c).reverse.foldl Component.follow [] =
      Component.follow (stack.reverse.foldl Component.follow []) c := by
  rcases step with rfl | ⟨s, rfl, -⟩
  · cases h with
    | root => rfl
    | climb k =>
      have above : foldStep (List.replicate k .parent) .parent = .parent :: List.replicate k .parent := by
        cases k <;> rfl
      simp [above, List.foldl_append]
    | name isName below => simp [foldStep, List.foldl_append, Component.follow]
  · simp [foldStep, List.foldl_append]

theorem foldl_place {stack steps : List Component} (h : Settled rooted stack) (isStep : ∀ c ∈ steps, c.IsStep) :
    (steps.foldl foldStep stack).reverse.foldl Component.follow [] =
      steps.foldl Component.follow (stack.reverse.foldl Component.follow []) := by
  induction steps generalizing stack with
  | nil => rfl
  | cons c steps ih =>
    have step := isStep c (by simp)
    rw [List.foldl_cons, ih (foldStep_settled h step) fun d member => isStep d (by simp [member]),
      foldStep_place h step]
    rfl

theorem normalize_place (p : Path) : p.normalize.place = p.place := by
  rw [place, normalize_components, place]
  obtain ⟨steps, isStep, -, ⟨-, shape⟩ | ⟨-, shape | shape⟩⟩ := components_cases p
  · have kept := foldl_place .root isStep
    rw [shape]
    exact kept
  · have kept := foldl_place (.climb 0) isStep
    rw [shape]
    exact kept
  · have kept := foldl_place (.climb 0) isStep
    rw [shape]
    exact kept

theorem place_eq_of_normalize {p q : Path} (h : p.normalize = q.normalize) : p.place = q.place := by
  rw [← normalize_place, h, normalize_place]

theorem foldl_follow_names (names : List Text) (place : List Text) :
    (names.map Component.name).foldl Component.follow place = place ++ names := by
  induction names generalizing place with
  | nil => simp
  | cons s names ih => simp [Component.follow, ih]

/-- The normal form of an absolute path is spelled from its place. -/
theorem normalize_absolute {p : Path} (absolute : p.isAbsolute = true) :
    p.normalize = ofComponents (.root :: p.place.map .name) := by
  obtain ⟨names, -, ⟨-, shape⟩ | ⟨relative, -⟩⟩ := foldComponents_normal p
  · have here : p.place = names := by
      rw [← normalize_place, place, normalize_components, shape, List.foldl_cons, foldl_follow_names]
      rfl
    rw [normalize, shape, here]
  · rw [absolute] at relative
    contradiction

/-- A place that an absolute path means is one of names. -/
theorem isName_of_mem_place {p : Path} (absolute : p.isAbsolute = true) {s : Text} (member : s ∈ p.place) :
    IsName s := by
  obtain ⟨names, isNames, ⟨-, shape⟩ | ⟨relative, -⟩⟩ := foldComponents_normal p
  · rw [← normalize_place, place, normalize_components, shape, List.foldl_cons, foldl_follow_names] at member
    exact isNames s member
  · rw [absolute] at relative
    contradiction

theorem foldl_follow_climb (k : Nat) : (List.replicate k Component.parent).foldl Component.follow [] = [] := by
  induction k with
  | zero => rfl
  | succ k ih => rw [List.replicate_succ, List.foldl_cons]; exact ih

/-- The segments of a path in normal form that leads below the root: what stays at the root, then names. -/
theorem Normal.segments {cs : List Component} (h : Normal rooted cs) (below : cs.foldl Component.follow [] ≠ []) :
    ∃ ups names, (ofComponents cs).chars.splitOn '/' = ups ++ names ∧ (∀ s ∈ ups, s = [] ∨ s = ['.', '.']) ∧
      (∀ s ∈ names, IsName s) ∧ cs.foldl Component.follow [] = names := by
  obtain ⟨names, isNames, shape⟩ := h
  have isStep : ∀ c ∈ names.map Component.name, c.IsStep := by
    intro c member
    obtain ⟨s, inside, rfl⟩ := List.mem_map.1 member
    exact .inr ⟨s, rfl, isNames s inside⟩
  have spelling : (names.map Component.name).map Component.chars = names := by
    rw [List.map_map]
    exact List.map_id names
  rcases shape with ⟨-, rfl⟩ | ⟨-, k, rfl⟩
  · have here : (Component.root :: names.map .name).foldl Component.follow [] = names := foldl_follow_names names []
    rw [here] at below
    refine ⟨[[]], names, ?_, by simp, isNames, here⟩
    rw [ofComponents, ← List.nil_append ('/' :: _), Text.splitOn_append_cons,
      splitOn_chars (by simpa using below) isStep, spelling]
    rfl
  · have here : (List.replicate k Component.parent ++ names.map Component.name).foldl Component.follow [] = names := by
      rw [List.foldl_append, foldl_follow_climb, foldl_follow_names, List.nil_append]
    rw [here] at below
    have allSteps : ∀ c ∈ List.replicate k .parent ++ names.map Component.name, c.IsStep := by
      intro c member
      rcases List.mem_append.1 member with up | down
      · exact .inl (List.eq_of_mem_replicate up)
      · exact isStep c down
    refine ⟨List.replicate k ['.', '.'], names, ?_, ?_, isNames, here⟩
    · rw [(spelled_relative allSteps).1, splitOn_chars (by simp [below]) allSteps, List.map_append, spelling,
        List.map_replicate]
      rfl
    · intro s member
      exact .inr (List.eq_of_mem_replicate member)

/-- Two absolute paths in normal form that mean the same place are the same. -/
theorem eq_of_place {p q : Path} (absoluteP : p.isAbsolute = true) (absoluteQ : q.isAbsolute = true)
    (normalP : p.normalize = p) (normalQ : q.normalize = q) (here : p.place = q.place) : p = q := by
  rw [← normalP, ← normalQ, normalize_absolute absoluteP, normalize_absolute absoluteQ, here]

end ComponentLint.Path
