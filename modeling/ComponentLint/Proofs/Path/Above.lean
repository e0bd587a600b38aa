import ComponentLint.Proofs.Path.Climbing

/-! The paths above a path, taken one by one until there is none: each is shorter than the one before. Those above an
absolute path have beginnings of the components of those before them, so that the ones below a directory stand in front
of it. -/
namespace ComponentLint.Path

variable {p q root : Path}

/-! ## The way up -/

theorem trimTail_length (reversed : Text) : (trimTail reversed).length ≤ reversed.length := by
  obtain ⟨dropped, split, -⟩ := trimTail_split reversed
  have whole := congrArg List.length split
  rw [List.length_append] at whole
  omega

/-- No component is spelled by nothing. -/
theorem chars_ne_nil {c : Component} (member : c ∈ p.components) : c.chars ≠ [] := by
  obtain ⟨steps, isStep, -, shape⟩ := components_cases p
  cases c with
  | root => decide
  | current => decide
  | parent => decide
  | name s =>
    have inSteps : .name s ∈ steps := by
      rcases shape with ⟨-, shape⟩ | ⟨-, shape | shape⟩ <;> simpa [shape] using member
    exact (isStep _ inSteps).chars.1

/-- The path above a path is shorter. -/
theorem parent?_length (above : p.parent? = some q) : q.chars.length < p.chars.length := by
  rw [parent?] at above
  split at above
  · contradiction
  · contradiction
  · rename_i last other isLast
    have named := List.length_pos_iff.2 (chars_ne_nil (List.mem_of_getLast? isLast))
    have shorter := trimTail_length ((trimTail p.chars.reverse).drop last.chars.length)
    have trimmed := trimTail_length p.chars.reverse
    rw [List.length_drop] at shorter
    rw [List.length_reverse] at trimmed
    dsimp only at above
    split_ifs at above with root
    · obtain rfl := Option.some.inj above
      obtain ⟨rest, split⟩ := List.head?_eq_some_iff.1 (of_decide_eq_true root.1 : p.chars.head? = some '/')
      cases rest with
      | nil =>
        -- this is the root, and there is none above it
        have only : p.components = [.root] := by
          simp [components, isAbsolute, split, Text.splitOn, Component.ofSegment?]
        rw [only] at isLast
        exact absurd (Option.some.inj isLast).symm other
      | cons c rest => simp [split]
    · obtain rfl := Option.some.inj above
      have some_ : 0 < p.chars.length := by
        rw [List.length_pos_iff]
        intro empty
        have none_ : p.components = [] := by simp [components, isAbsolute, empty, Text.splitOn, Component.ofSegment?]
        simp [none_] at isLast
      rw [List.length_reverse]
      omega

/-- The path and the paths above it, one by one, up to one with none above it. -/
inductive WayUp : Path → List Path → Prop where
  | top {p : Path} (highest : p.parent? = none) : WayUp p [p]
  | step {p q : Path} {way : List Path} (above : p.parent? = some q) (further : WayUp q way) : WayUp p (p :: way)

theorem WayUp.unique {way way' : List Path} (h : WayUp p way) (h' : WayUp p way') : way = way' := by
  induction h generalizing way' with
  | top highest =>
    cases h' with
    | top => rfl
    | step above => simp [highest] at above
  | step above further ih =>
    cases h' with
    | top highest => simp [highest] at above
    | step above' further' =>
      rw [above] at above'
      obtain rfl := Option.some.inj above'
      rw [ih further']

/-- There are enough steps for the whole way, since each takes something off. -/
theorem wayUp_ancestors (p : Path) : WayUp p p.ancestors := by
  have climbs (n : Nat) : ∀ p : Path, p.chars.length ≤ n → WayUp p (ancestors.go n p) := by
    induction n with
    | zero =>
      intro p short
      refine .top ?_
      cases above : p.parent? with
      | none => rfl
      | some q =>
        have shorter := parent?_length above
        omega
    | succ n ih =>
      intro p short
      rw [ancestors.go]
      cases above : p.parent? with
      | none => exact .top above
      | some q =>
        have shorter := parent?_length above
        exact .step above (ih q (by omega))
  exact climbs p.chars.length p (Nat.le_refl _)

theorem wayUp_iff {way : List Path} : WayUp p way ↔ way = p.ancestors := by
  constructor
  · exact fun h => h.unique (wayUp_ancestors p)
  · rintro rfl
    exact wayUp_ancestors p

/-! ## Below a directory -/

/-- A path has the components of the path above it, and more. -/
theorem parent?_components (absolute : p.isAbsolute = true) (above : p.parent? = some q) :
    ∃ more, more ≠ [] ∧ p.components = q.components ++ more := by
  obtain ⟨steps, -, steps_, ⟨-, shape⟩ | ⟨relative, -⟩⟩ := components_cases p
  · rcases parent?_cases absolute above with rfl | ⟨front, s, left, ⟨pure, some_, noDot⟩, rfl⟩
    · refine ⟨steps, ?_, shape⟩
      rintro rfl
      simp [parent?, shape] at above
    · obtain ⟨c, isStep⟩ := ofSegment?_eq_some some_ noDot
      have whole := trimTail_steps p.chars.reverse
      rw [List.reverse_reverse, left, Text.splitOn_append_cons, List.filterMap_append, Text.splitOn_of_absent pure,
        List.filterMap_cons_some isStep, List.filterMap_nil, ← steps_] at whole
      have upper := trimTail_steps ('/' :: front.reverse)
      have empty : (Text.splitOn '/' []).filterMap Component.ofSegment? = [] := rfl
      rw [List.reverse_cons, List.reverse_reverse, Text.splitOn_append_cons, List.filterMap_append, empty,
        List.append_nil] at upper
      obtain ⟨steps', -, rfl, ⟨-, shape'⟩ | ⟨relative, -⟩⟩ := components_cases ⟨(trimTail ('/' :: front.reverse)).reverse⟩
      · refine ⟨[c], by simp, ?_⟩
        rw [shape, shape', whole, ← upper, List.cons_append]
      · rw [parent?_absolute absolute above] at relative
        contradiction
  · rw [absolute] at relative
    contradiction

/-- The place of the path above a path in normal form is above its place. -/
theorem parent?_place {up : Path} (absolute : p.isAbsolute = true) (above : p.normalize.parent? = some up) :
    up.place <+: p.place ∧ up.place ≠ p.place := by
  have rooted : p.normalize.isAbsolute = true := by rw [normalize_isAbsolute, absolute]
  obtain ⟨more, some_, split⟩ := parent?_components rooted above
  obtain ⟨steps, -, -, ⟨-, shape⟩ | ⟨relative, -⟩⟩ := components_cases up
  · obtain ⟨names, -, ⟨-, normal⟩ | ⟨relative, -⟩⟩ := foldComponents_normal p
    · rw [normalize_components, normal, shape, List.cons_append] at split
      obtain ⟨front, back, rfl, rfl, rfl⟩ := List.map_eq_append_iff.1 (List.cons.inj split).2
      have upper : up.place = front := by
        rw [place, shape]
        exact foldl_follow_names front []
      have lower : p.place = front ++ back := by
        rw [← normalize_place, place, normalize_components, normal]
        exact foldl_follow_names (front ++ back) []
      rw [upper, lower]
      exact ⟨List.prefix_append .., by simpa using some_⟩
    · rw [absolute] at relative
      contradiction
  · rw [parent?_absolute rooted above] at relative
    contradiction

/-- Of the paths above a path the later have beginnings of the components of the earlier. -/
theorem ancestors_components (absolute : p.isAbsolute = true) :
    p.ancestors.Pairwise fun a b => b.components <+: a.components := by
  have climbs (n : Nat) : ∀ p : Path, p.isAbsolute = true →
      (ancestors.go n p).Pairwise (fun a b => b.components <+: a.components) ∧
        ∀ q ∈ ancestors.go n p, q.components <+: p.components := by
    induction n with
    | zero =>
      intro p absolute
      simp [ancestors.go]
    | succ n ih =>
      intro p absolute
      rw [ancestors.go]
      cases next : p.parent? with
      | none => simp
      | some up =>
        obtain ⟨more, -, split⟩ := parent?_components absolute next
        have step : up.components <+: p.components := ⟨more, split.symm⟩
        obtain ⟨later, below⟩ := ih up (parent?_absolute absolute next)
        have first : ∀ q ∈ ancestors.go n up, q.components <+: p.components := fun q member =>
          (below q member).trans step
        refine ⟨List.pairwise_cons.2 ⟨first, later⟩, fun q member => ?_⟩
        rcases List.mem_cons.1 member with rfl | further
        · exact List.prefix_rfl
        · exact first q further
  exact (climbs p.chars.length p absolute).1

theorem mem_takeWhile_self (other : p.same root = false) :
    p ∈ p.ancestors.takeWhile fun above => !above.same root := by
  obtain ⟨upper, split⟩ : ∃ upper, p.ancestors = p :: upper := by
    rw [ancestors]
    cases p.chars.length with
    | zero => exact ⟨[], rfl⟩
    | succ n => exact ⟨_, rfl⟩
  rw [split, List.takeWhile_cons_of_pos (by rw [other]; rfl)]
  exact List.mem_cons_self ..

/-- On the way up from a path, the paths below a directory come before it. -/
theorem mem_takeWhile_ancestors (absolute : p.isAbsolute = true) (member : q ∈ p.ancestors)
    (below : root.isBelow q = true) (other : q.same root = false) :
    q ∈ p.ancestors.takeWhile fun above => !above.same root := by
  obtain ⟨lower, upper, split⟩ := List.append_of_mem member
  have order := ancestors_components absolute
  rw [split] at order ⊢
  have beforeRoot : ∀ above ∈ lower, (!above.same root) = true := by
    intro above inLower
    cases same : above.same root with
    | false => rfl
    | true =>
      -- then the root is a beginning of what it has to be longer than
      have begins := (List.pairwise_append.1 order).2.2 above inLower q (List.mem_cons_self ..)
      rw [of_decide_eq_true same] at begins
      have equal := begins.eq_of_length_le (List.isPrefixOf_iff_prefix.1 below).length_le
      rw [Path.same, equal, decide_eq_true rfl] at other
      contradiction
  rw [List.takeWhile_append_of_pos beforeRoot, List.takeWhile_cons_of_pos (by rw [other]; rfl)]
  exact List.mem_append_right _ (List.mem_cons_self ..)

end ComponentLint.Path
