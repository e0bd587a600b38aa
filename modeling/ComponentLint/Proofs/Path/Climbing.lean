import ComponentLint.Proofs.Path.Absolute
import ComponentLint.Proofs.Path.Normal

/-! Paths that climb: they have a `..`. An absolute path is in normal form, up to single dots and repeated slashes, when
it does not. What is put behind a path, and what is above it, climbs only where one of the parts does. -/
namespace ComponentLint.Path

/-- The path has a `..`. -/
def Climbs (p : Path) : Prop := .parent ∈ p.components

instance (p : Path) : Decidable p.Climbs := inferInstanceAs (Decidable (_ ∈ _))

theorem ofSegment?_eq_parent_iff {s : Text} : Component.ofSegment? s = some .parent ↔ s = ['.', '.'] := by
  rw [Component.ofSegment?]
  split_ifs with none_ dots
  · rcases none_ with rfl | rfl <;> simp
  · simp [dots]
  · simp [dots]

theorem ofSegment?_eq_some {s : Text} (some_ : s ≠ []) (noDot : s ≠ ['.']) : ∃ c, Component.ofSegment? s = some c := by
  rw [Component.ofSegment?, if_neg (not_or.2 ⟨some_, noDot⟩)]
  split_ifs
  · exact ⟨_, rfl⟩
  · exact ⟨_, rfl⟩

theorem climbs_iff {p : Path} : p.Climbs ↔ ['.', '.'] ∈ p.chars.splitOn '/' := by
  have steps : .parent ∈ (p.chars.splitOn '/').filterMap Component.ofSegment? ↔ ['.', '.'] ∈ p.chars.splitOn '/' := by
    rw [List.mem_filterMap]
    constructor
    · rintro ⟨s, member, parent⟩
      rwa [ofSegment?_eq_parent_iff.1 parent] at member
    · intro member
      exact ⟨_, member, ofSegment?_eq_parent_iff.2 rfl⟩
  obtain ⟨_, -, rfl, ⟨-, shape⟩ | ⟨-, shape | shape⟩⟩ := components_cases p
  · simpa [Climbs, shape] using steps
  · simpa [Climbs, shape] using steps
  · simpa [Climbs, shape] using steps

/-- Absolute paths that do not climb are those in normal form. -/
theorem same_normalize_iff {p : Path} (absolute : p.isAbsolute = true) : p.same p.normalize = true ↔ ¬p.Climbs := by
  rw [same, decide_eq_true_iff, normalize_components]
  constructor
  · intro same climbs
    have normal := foldComponents_normal p
    rw [← same, absolute] at normal
    obtain ⟨names, -, ⟨-, shape⟩ | ⟨relative, -⟩⟩ := normal
    · simp [Climbs, shape] at climbs
    · contradiction
  · intro level
    obtain ⟨steps, isStep, -, ⟨-, shape⟩ | ⟨relative, -⟩⟩ := components_cases p
    · have names : ∀ c ∈ steps, ∃ s, c = .name s ∧ IsName s := by
        intro c member
        refine (isStep c member).resolve_left ?_
        rintro rfl
        exact level (by simp [Climbs, shape, member])
      have normal : Normal true p.components := by
        refine ⟨steps.map Component.chars, fun s member => ?_, .inl ⟨rfl, ?_⟩⟩
        · obtain ⟨c, inside, rfl⟩ := List.mem_map.1 member
          obtain ⟨s, rfl, isName⟩ := names c inside
          exact isName
        · rw [shape, List.map_map]
          congr 1
          refine (List.map_id steps).symm.trans (List.map_congr_left fun c inside => ?_)
          obtain ⟨s, rfl, -⟩ := names c inside
          rfl
      exact normal.foldComponents_eq.symm
    · rw [absolute] at relative
      contradiction

/-- The path does not climb, unless it is relative. -/
def Level (p : Path) : Prop := p.isAbsolute = true → ¬p.Climbs

theorem level_of_same {p q : Path} (same : p.same q.normalize = true) : p.Level := by
  intro absolute
  rw [← same_normalize_iff absolute, normalize_eq_of_same same]
  exact same

theorem normalize_level (p : Path) : p.normalize.Level := level_of_same (q := p) (by simp [same])

/-! ## Putting behind -/

theorem join_climbs {p q : Path} (climbs : (p.join q).Climbs) : p.Climbs ∨ q.Climbs := by
  rw [join] at climbs
  split_ifs at climbs with absolute ends
  · exact .inr climbs
  · rw [climbs_iff] at climbs
    rcases ends with empty | slash
    · right
      rw [climbs_iff]
      simpa [empty] using climbs
    · obtain ⟨front, split⟩ := List.getLast?_eq_some_iff.1 slash
      rw [climbs_iff, climbs_iff]
      rw [split, List.append_assoc, List.singleton_append, Text.splitOn_append_cons, List.mem_append] at climbs
      rw [split, Text.splitOn_append_cons, List.mem_append]
      exact climbs.imp_left Or.inl
  · rw [climbs_iff, Text.splitOn_append_cons, List.mem_append] at climbs
    rwa [climbs_iff, climbs_iff]

theorem isAbsolute_of_join {p q : Path} (h : (p.join q).isAbsolute = true) : p.isAbsolute = true ∨ q.isAbsolute = true := by
  rw [join] at h
  split_ifs at h with absolute
  · exact .inr h
  all_goals
    obtain ⟨chars⟩ := p
    cases chars with
    | nil => simp_all [isAbsolute]
    | cons c chars => exact .inl (by simpa [isAbsolute] using h)

theorem join_level {p q : Path} (level : p.Level) (flat : ¬q.Climbs) : (p.join q).Level := by
  intro absolute climbs
  by_cases itself : q.isAbsolute = true
  · rw [join_of_absolute p itself] at climbs
    exact flat climbs
  · have rooted := (isAbsolute_of_join absolute).resolve_right itself
    rcases join_climbs climbs with front | back
    · exact level rooted front
    · exact flat back

/-- A beginning of a path that goes on within a segment, but not by dots, has the `..` that the path has. -/
theorem climbs_of_extended {p : Path} {front more : Text} (begins : front <+: p.chars) (within : '/' ∉ more)
    (named : ∃ c ∈ more, c ≠ '.') (climbs : (⟨front ++ more⟩ : Path).Climbs) : p.Climbs := by
  have noDots (s : Text) : ['.', '.'] ≠ s ++ more := by
    intro dots
    obtain ⟨c, member, other⟩ := named
    have dot : c ∈ ['.', '.'] := by
      rw [dots]
      exact List.mem_append_right _ member
    simp [other] at dot
  obtain ⟨rest, split⟩ := begins
  rw [climbs_iff] at climbs ⊢
  by_cases slash : '/' ∈ front
  · obtain ⟨late, early, split', absent⟩ := List.eq_append_cons_of_mem (List.mem_reverse.2 slash)
    have parts : front = early.reverse ++ '/' :: late.reverse := by
      rw [← List.reverse_reverse front, split']
      simp
    have last : '/' ∉ late.reverse ++ more := by simp [absent, within]
    rw [parts, List.append_assoc, List.cons_append, Text.splitOn_append_cons, Text.splitOn_of_absent last,
      List.mem_append, List.mem_singleton] at climbs
    rw [← split, parts, List.append_assoc, List.cons_append, Text.splitOn_append_cons]
    exact List.mem_append_left _ (climbs.resolve_right (noDots _))
  · have whole : '/' ∉ front ++ more := by simp [slash, within]
    rw [Text.splitOn_of_absent whole, List.mem_singleton] at climbs
    exact absurd climbs (noDots front)

/-! ## Above -/

/-- What is dropped from the end of a path begins at a slash. -/
theorem trimTail_split (reversed : Text) :
    ∃ dropped, reversed = dropped ++ trimTail reversed ∧ (dropped = [] ∨ dropped.getLast? = some '/') := by
  fun_induction trimTail reversed with
  | case1 rest ih =>
    obtain ⟨dropped, split, ends⟩ := ih
    refine ⟨'/' :: dropped, by rw [List.cons_append, ← split], .inr ?_⟩
    rcases ends with rfl | ends
    · rfl
    · simp [List.getLast?_cons, ends]
  | case2 => exact ⟨[], rfl, .inl rfl⟩
  | case3 rest ih =>
    obtain ⟨dropped, split, ends⟩ := ih
    refine ⟨'.' :: '/' :: dropped, by rw [List.cons_append, List.cons_append, ← split], .inr ?_⟩
    rcases ends with rfl | ends
    · rfl
    · simp [List.getLast?_cons, ends]
  | case4 => exact ⟨[], rfl, .inl rfl⟩

theorem climbs_of_trimTail {reversed : Text} (climbs : (⟨(trimTail reversed).reverse⟩ : Path).Climbs) :
    (⟨reversed.reverse⟩ : Path).Climbs := by
  obtain ⟨dropped, split, ends⟩ := trimTail_split reversed
  have whole : reversed.reverse = (trimTail reversed).reverse ++ dropped.reverse := by
    rw [← List.reverse_append, ← split]
  rcases ends with rfl | ends
  · rwa [whole, List.reverse_nil, List.append_nil]
  · obtain ⟨inner, rfl⟩ := List.getLast?_eq_some_iff.1 ends
    rw [climbs_iff] at climbs ⊢
    rw [whole, List.reverse_append, List.reverse_singleton, List.singleton_append, Text.splitOn_append_cons]
    exact List.mem_append_left _ climbs

/-- What is dropped from the end of a path means nothing. -/
theorem trimTail_steps (reversed : Text) :
    (Text.splitOn '/' reversed.reverse).filterMap Component.ofSegment? =
      (Text.splitOn '/' (trimTail reversed).reverse).filterMap Component.ofSegment? := by
  fun_induction trimTail reversed with
  | case1 rest ih =>
    rw [List.reverse_cons, Text.splitOn_append_cons, List.filterMap_append, ih]
    exact List.append_nil _
  | case2 => rfl
  | case3 rest ih =>
    rw [List.reverse_cons, List.reverse_cons, List.append_assoc, List.singleton_append, Text.splitOn_append_cons,
      List.filterMap_append, ih]
    exact List.append_nil _
  | case4 => rfl

theorem upToSlash (t : Text) : ∃ s back, t = s ++ back ∧ (back = [] ∨ back.head? = some '/') ∧ '/' ∉ s := by
  induction t with
  | nil => exact ⟨[], [], rfl, .inl rfl, List.not_mem_nil⟩
  | cons c t ih =>
    by_cases slash : c = '/'
    · exact ⟨[], c :: t, rfl, .inr (by rw [slash, List.head?_cons]), List.not_mem_nil⟩
    · obtain ⟨s, back, rfl, ends, pure⟩ := ih
      exact ⟨c :: s, back, rfl, ends, List.not_mem_cons_of_ne_of_not_mem (Ne.symm slash) pure⟩

/-- What is left ends in a segment that means something, if it is more than a single dot. -/
theorem trimTail_last {reversed : Text} (some_ : trimTail reversed ≠ []) (more : trimTail reversed ≠ ['.']) :
    ∃ s back, trimTail reversed = s.reverse ++ back ∧ (back = [] ∨ back.head? = some '/') ∧ '/' ∉ s ∧
      s ≠ [] ∧ s ≠ ['.'] := by
  fun_induction trimTail reversed with
  | case1 rest ih => exact ih some_ more
  | case2 => contradiction
  | case3 rest ih => exact ih some_ more
  | case4 reversed noSlash noDot noBoth =>
    -- the last segment is what is read up to the first slash
    obtain ⟨s, back, split, ends, pure⟩ := upToSlash reversed
    refine ⟨s.reverse, back, by rwa [List.reverse_reverse], ends, by simpa using pure, ?_, ?_⟩
    · intro empty
      obtain rfl := List.reverse_eq_nil_iff.1 empty
      rcases ends with rfl | slash
      · exact some_ split
      · obtain ⟨rest, rfl⟩ := List.head?_eq_some_iff.1 slash
        exact noSlash rest split
    · intro dot
      obtain rfl : s = ['.'] := by simpa using congrArg List.reverse dot
      rcases ends with rfl | slash
      · exact noDot split
      · obtain ⟨rest, rfl⟩ := List.head?_eq_some_iff.1 slash
        exact noBoth rest split

/-- The segment that is left at the end of an absolute path is its last component. -/
theorem last_of_trimTail {p : Path} (absolute : p.isAbsolute = true) {front s : Text}
    (left : (trimTail p.chars.reverse).reverse = front ++ '/' :: s) (pure : '/' ∉ s) (some_ : s ≠ [])
    (noDot : s ≠ ['.']) {last : Component} (isLast : p.components.getLast? = some last) : last.chars = s := by
  obtain ⟨steps, -, rfl, ⟨-, shape⟩ | ⟨relative, -⟩⟩ := components_cases p
  · obtain ⟨c, isStep⟩ := ofSegment?_eq_some some_ noDot
    have steps := trimTail_steps p.chars.reverse
    rw [List.reverse_reverse, left, Text.splitOn_append_cons, List.filterMap_append, Text.splitOn_of_absent pure,
      List.filterMap_cons_some isStep, List.filterMap_nil] at steps
    rw [shape, steps, ← List.cons_append, List.getLast?_concat] at isLast
    obtain rfl := Option.some.inj isLast
    rcases Component.ofSegment?_cases pure isStep with ⟨rfl, rfl⟩ | ⟨rfl, -⟩ <;> rfl
  · rw [absolute] at relative
    contradiction

/-- An absolute path is a root at most, or it ends in a segment that means something, and what is above that segment
is above the path. -/
theorem parent?_cases {p q : Path} (absolute : p.isAbsolute = true) (above : p.parent? = some q) :
    q = ⟨['/']⟩ ∨ ∃ front s, (trimTail p.chars.reverse).reverse = front ++ '/' :: s ∧
      ('/' ∉ s ∧ s ≠ [] ∧ s ≠ ['.']) ∧ q = ⟨(trimTail ('/' :: front.reverse)).reverse⟩ := by
  have start : p.chars.reverse.getLast? = some '/' := by
    rw [List.getLast?_reverse]
    exact of_decide_eq_true absolute
  rw [parent?] at above
  split at above
  · contradiction
  · contradiction
  · rename_i last _ isLast
    dsimp only at above
    rcases trimTail_rooted start with empty | ends
    · rw [empty, List.drop_nil, trimTail, if_pos ⟨absolute, rfl⟩] at above
      · exact .inl (Option.some.inj above).symm
      all_goals simp
    · have some_ : trimTail p.chars.reverse ≠ [] := by
        intro none_
        simp [none_] at ends
      have more : trimTail p.chars.reverse ≠ ['.'] := by
        intro dot
        simp [dot] at ends
      obtain ⟨s, back, split, behind, pure, named, noDot⟩ := trimTail_last some_ more
      rcases behind with rfl | slash
      · rw [split, List.append_nil, List.getLast?_reverse] at ends
        exact absurd (List.mem_of_mem_head? ends) pure
      · obtain ⟨front, rfl⟩ := List.head?_eq_some_iff.1 slash
        have left : (trimTail p.chars.reverse).reverse = front.reverse ++ '/' :: s := by simp [split]
        have dropped : last.chars.length = s.reverse.length := by
          rw [last_of_trimTail absolute left pure named noDot isLast, List.length_reverse]
        rw [dropped, split, List.drop_left] at above
        split_ifs at above with root
        · exact .inl (Option.some.inj above).symm
        · refine .inr ⟨front.reverse, s, left, ⟨pure, named, noDot⟩, ?_⟩
          rw [List.reverse_reverse]
          exact (Option.some.inj above).symm

/-- The path above an absolute one has no `..` of its own. -/
theorem parent?_climbs {p q : Path} (absolute : p.isAbsolute = true) (above : p.parent? = some q) (climbs : q.Climbs) :
    p.Climbs := by
  rcases parent?_cases absolute above with rfl | ⟨front, s, left, -, rfl⟩
  · exact absurd climbs (by decide)
  · have within := climbs_of_trimTail climbs
    rw [climbs_iff, List.reverse_cons, List.reverse_reverse, Text.splitOn_append_cons, List.mem_append] at within
    have early : ['.', '.'] ∈ Text.splitOn '/' front := within.resolve_right (by decide)
    have trimmed : (⟨(trimTail p.chars.reverse).reverse⟩ : Path).Climbs := by
      rw [climbs_iff, left, Text.splitOn_append_cons]
      exact List.mem_append_left _ early
    have whole := climbs_of_trimTail trimmed
    rwa [List.reverse_reverse] at whole

/-- Only an absolute path has an absolute one above it. -/
theorem isAbsolute_of_parent? {p q : Path} (above : p.parent? = some q) (absolute : q.isAbsolute = true) :
    p.isAbsolute = true := by
  rw [parent?] at above
  split at above
  · contradiction
  · contradiction
  · rename_i last _ _
    dsimp only at above
    split_ifs at above with root
    · exact root.1
    · obtain rfl := Option.some.inj above
      have trimmed (t : Text) : trimTail t <:+ t := by
        obtain ⟨dropped, split, -⟩ := trimTail_split t
        exact ⟨dropped, split.symm⟩
      have suffix : trimTail ((trimTail p.chars.reverse).drop last.chars.length) <:+ p.chars.reverse :=
        (trimmed _).trans ((List.drop_suffix _ _).trans (trimmed _))
      have begins : (trimTail ((trimTail p.chars.reverse).drop last.chars.length)).reverse <+: p.chars := by
        rw [← List.reverse_suffix, List.reverse_reverse]
        exact suffix
      obtain ⟨rest, split⟩ := begins
      rw [isAbsolute, ← split, List.head?_append]
      rw [isAbsolute, decide_eq_true_eq] at absolute
      simp [absolute]

theorem parent?_level {p q : Path} (level : p.Level) (above : p.parent? = some q) : q.Level := by
  intro absolute climbs
  have rooted := isAbsolute_of_parent? above absolute
  exact level rooted (parent?_climbs rooted above climbs)

end ComponentLint.Path
