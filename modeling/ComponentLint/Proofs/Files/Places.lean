import ComponentLint.Files.Tree
import ComponentLint.Source.Kind
import ComponentLint.Proofs.Path.Absolute
import ComponentLint.Proofs.Path.Normal
import Mathlib.Data.List.Basic

/-! Where paths lead in a tree. A walk that succeeds ends at the place that the path means, and everything on
the way there is a directory, so the normal form of a path reads the same file. -/
namespace ComponentLint.FileTree

variable {t t' : FileTree} {p : Path}

/-! ## Walks -/

theorem walk_cons_eq_ok {place q : Place} {s : Text} {rest : List Text} :
    t.walk place (s :: rest) = .ok q ↔ t.node? place = some .directory ∧
      t.walk ((Path.Component.ofSegment? s).elim place (Path.Component.follow place)) rest = .ok q := by
  rw [walk]
  cases t.node? place with
  | none => simp
  | some n =>
    cases n with
    | file c => simp
    | directory =>
      by_cases none_ : s = [] ∨ s = ['.']
      · simp [none_, Path.Component.ofSegment?]
      · by_cases dots : s = ['.', '.']
        · simp [dots, Path.Component.ofSegment?, Path.Component.follow]
        · simp [none_, dots, Path.Component.ofSegment?, Path.Component.follow]

theorem walk_name_eq_ok {place q : Place} {s : Text} {rest : List Text} (isName : Path.IsName s) :
    t.walk place (s :: rest) = .ok q ↔ t.node? place = some .directory ∧ t.walk (place ++ [s]) rest = .ok q := by
  rw [walk_cons_eq_ok, Path.Component.ofSegment?_name isName]
  rfl

theorem walk_append_eq_ok {place q : Place} {a b : List Text} :
    t.walk place (a ++ b) = .ok q ↔ ∃ middle, t.walk place a = .ok middle ∧ t.walk middle b = .ok q := by
  induction a generalizing place with
  | nil => simp [walk]
  | cons s a ih =>
    rw [List.cons_append, walk_cons_eq_ok]
    simp only [walk_cons_eq_ok, ih]
    constructor
    · rintro ⟨here, middle, front, back⟩
      exact ⟨middle, ⟨here, front⟩, back⟩
    · rintro ⟨middle, ⟨here, front⟩, back⟩
      exact ⟨here, middle, front, back⟩

theorem walk_follow {place q : Place} {segments : List Text} (h : t.walk place segments = .ok q) :
    q = (segments.filterMap Path.Component.ofSegment?).foldl Path.Component.follow place := by
  induction segments generalizing place with
  | nil => simpa [walk] using h.symm
  | cons s rest ih =>
    obtain ⟨-, onward⟩ := walk_cons_eq_ok.1 h
    cases segment : Path.Component.ofSegment? s with
    | none =>
      rw [segment] at onward
      rw [List.filterMap_cons_none segment]
      exact ih onward
    | some c =>
      rw [segment] at onward
      rw [List.filterMap_cons_some segment]
      exact ih onward

theorem walk_place {q : Place} (h : t.walk [] (p.chars.splitOn '/') = .ok q) : q = p.place := by
  obtain ⟨steps, -, split, ⟨-, shape⟩ | ⟨-, shape | shape⟩⟩ := Path.components_cases p <;>
    rw [walk_follow h, ← split, Path.place, shape] <;> rfl

/-- Everything above a place is a directory. -/
def Open (t : FileTree) (place : Place) : Prop :=
  ∀ above, above <+: place → above ≠ place → t.node? above = some .directory

theorem open_nil (t : FileTree) : t.Open [] := by
  intro above inside other
  exact absurd (List.prefix_nil.1 inside) other

theorem Open.above {place above : Place} (h : t.Open place) (inside : above <+: place) : t.Open above := by
  intro upper within other
  refine h upper (within.trans inside) fun same => other ?_
  subst same
  exact within.eq_of_length_le inside.length_le

theorem Open.follow {place : Place} (h : t.Open place) (here : t.node? place = some .directory)
    (c : Path.Component) : t.Open (c.follow place) := by
  cases c with
  | root => exact h
  | current => exact h
  | parent => exact h.above (List.dropLast_prefix place)
  | name s =>
    intro above inside other
    rcases List.prefix_concat_iff.1 inside with whole | within
    · exact absurd whole other
    · by_cases same : above = place
      · rw [same]
        exact here
      · exact h above within same

theorem walk_open {place q : Place} {segments : List Text} (h : t.walk place segments = .ok q) (clear : t.Open place) :
    t.Open q := by
  induction segments generalizing place with
  | nil =>
    obtain rfl : place = q := by simpa [walk] using h
    exact clear
  | cons s rest ih =>
    obtain ⟨here, onward⟩ := walk_cons_eq_ok.1 h
    cases segment : Path.Component.ofSegment? s with
    | none =>
      rw [segment] at onward
      exact ih onward clear
    | some c =>
      rw [segment] at onward
      exact ih onward (clear.follow here c)

/-- Names can be walked if everything above where they lead is a directory. -/
theorem walk_names {place : Place} {names : List Text} (isNames : ∀ s ∈ names, Path.IsName s)
    (clear : t.Open (place ++ names)) : t.walk place names = .ok (place ++ names) := by
  induction names generalizing place with
  | nil => simp [walk]
  | cons s names ih =>
    have here : t.node? place = some .directory := clear place (List.prefix_append _ _) (by simp)
    have regroup : place ++ s :: names = place ++ [s] ++ names := by simp
    rw [walk_cons_eq_ok, Path.Component.ofSegment?_name (isNames s (by simp))]
    refine ⟨here, ?_⟩
    rw [regroup] at clear ⊢
    exact ih (fun u member => isNames u (by simp [member])) clear

/-! ## Reading -/

theorem read_eq_ok_iff {text : Text} :
    t.read p = .ok text ↔ ∃ q, t.walk [] (p.chars.splitOn '/') = .ok q ∧ t.node? q = some (.file (.text text)) := by
  rw [read, lookup]
  cases t.walk [] (p.chars.splitOn '/') with
  | error f => simp
  | ok q =>
    cases found : t.node? q with
    | none => simp [found]
    | some n =>
      cases n with
      | directory => simp [found]
      | file c => cases c <;> simp [found]

/-- A path that leads to a file ends in a name, for what ends in another way leads to a directory. -/
theorem walk_fileName {q : Place} (h : t.walk [] (p.chars.splitOn '/') = .ok q)
    (notDirectory : t.node? q ≠ some .directory) : ∃ s, p.components.getLast? = some (.name s) := by
  rcases List.eq_nil_or_concat' (p.chars.splitOn '/') with none_ | ⟨front, last, split⟩
  · exact absurd none_ (Text.splitOn_ne_nil _)
  rw [split] at h
  obtain ⟨middle, way, final⟩ := walk_append_eq_ok.1 h
  obtain ⟨here, arrived⟩ := walk_cons_eq_ok.1 final
  have clear : t.Open middle := walk_open way (open_nil t)
  have pure : '/' ∉ last := Text.absent_of_mem_splitOn (t := p.chars) (by rw [split]; simp)
  cases segment : Path.Component.ofSegment? last with
  | none =>
    rw [segment] at arrived
    obtain rfl : middle = q := by simpa [walk] using arrived
    contradiction
  | some c =>
    rw [segment] at arrived
    rcases Path.Component.ofSegment?_cases pure segment with ⟨rfl, -⟩ | ⟨rfl, -⟩
    · obtain rfl : middle.dropLast = q := by simpa [walk, Path.Component.follow] using arrived
      by_cases top : middle.dropLast = middle
      · rw [top] at notDirectory
        contradiction
      · exact absurd (clear _ (List.dropLast_prefix _) top) notDirectory
    · refine ⟨last, ?_⟩
      obtain ⟨steps, -, steps_, shape⟩ := Path.components_cases p
      rw [split, List.filterMap_append, List.filterMap_cons_some segment] at steps_
      rcases shape with ⟨-, shape⟩ | ⟨-, shape | shape⟩
      · rw [shape, steps_, ← List.cons_append]
        exact List.getLast?_concat
      · rw [shape, steps_, ← List.cons_append]
        exact List.getLast?_concat
      · rw [shape, steps_]
        exact List.getLast?_concat

theorem read_fileName {text : Text} (h : t.read p = .ok text) : ∃ s, p.components.getLast? = some (.name s) := by
  obtain ⟨q, walked, found⟩ := read_eq_ok_iff.1 h
  exact walk_fileName walked (by simp [found])

theorem walk_ups {ups : List Text} (root : t.node? [] = some .directory) (isUp : ∀ s ∈ ups, s = [] ∨ s = ['.', '.']) :
    t.walk [] ups = .ok [] := by
  induction ups with
  | nil => rfl
  | cons s ups ih =>
    have stay : (Path.Component.ofSegment? s).elim [] (Path.Component.follow []) = [] := by
      rcases isUp s (by simp) with rfl | rfl <;> rfl
    rw [walk_cons_eq_ok, stay]
    exact ⟨root, ih fun u member => isUp u (by simp [member])⟩

/-- The normal form of a path leads to the same place, if that is not the root. -/
theorem walk_normalize {q : Place} (h : t.walk [] (p.chars.splitOn '/') = .ok q) (below : q ≠ []) :
    t.walk [] (p.normalize.chars.splitOn '/') = .ok q := by
  have clear : t.Open q := walk_open h (open_nil t)
  have root : t.node? [] = some .directory := clear [] List.nil_prefix below.symm
  have here : (Path.foldComponents p.components).foldl Path.Component.follow [] = q := by
    rw [walk_place h, ← Path.normalize_place, Path.place, Path.normalize_components]
  obtain ⟨ups, names, split, isUp, isNames, leads⟩ :=
    (Path.foldComponents_normal p).segments (by rw [here]; exact below)
  obtain rfl : q = names := here.symm.trans leads
  rw [Path.normalize, split, walk_append_eq_ok]
  exact ⟨[], walk_ups root isUp, walk_names isNames clear⟩

/-- A walk along a path starts in a directory. -/
theorem walk_root {q : Place} (h : t.walk [] (p.chars.splitOn '/') = .ok q) : t.node? [] = some .directory := by
  obtain ⟨first, rest, split⟩ := List.exists_cons_of_ne_nil (Text.splitOn_ne_nil (c := '/') p.chars)
  rw [split] at h
  exact (walk_cons_eq_ok.1 h).1

/-- The normal form of a path leads to the same file, which is not the root. -/
theorem walk_normalize_file {q : Place} {c : Content} (h : t.walk [] (p.chars.splitOn '/') = .ok q)
    (found : t.node? q = some (.file c)) : t.walk [] (p.normalize.chars.splitOn '/') = .ok q := by
  refine walk_normalize h ?_
  rintro rfl
  rw [walk_root h] at found
  simp at found

/-- The normal form of a path reads the same file, and has the same name. -/
theorem read_normalize {text : Text} (h : t.read p = .ok text) :
    t.read p.normalize = .ok text ∧ p.normalize.isComponent = p.isComponent := by
  obtain ⟨q, walked, found⟩ := read_eq_ok_iff.1 h
  obtain ⟨s, last⟩ := read_fileName h
  refine ⟨read_eq_ok_iff.2 ⟨q, walk_normalize_file walked found, found⟩, ?_⟩
  rw [Path.isComponent, Path.isComponent, Path.normalize_fileName last]

/-- A file stands at the place that its path means, and there the normal form of the path leads, too. -/
theorem isFile_iff : t.isFile p = true ↔
    ∃ c, t.walk [] (p.chars.splitOn '/') = .ok p.place ∧ t.node? p.place = some (.file c) := by
  rw [isFile, lookup]
  constructor
  · intro h
    cases walked : t.walk [] (p.chars.splitOn '/') with
    | error f => simp [walked] at h
    | ok q =>
      obtain rfl := walk_place walked
      cases found : t.node? p.place with
      | none => simp [walked, found] at h
      | some n =>
        cases n with
        | directory => simp [walked, found] at h
        | file c => exact ⟨c, rfl, rfl⟩
  · rintro ⟨c, walked, found⟩
    simp [walked, found]

theorem isFile_fileName (h : t.isFile p = true) : ∃ s, p.components.getLast? = some (.name s) := by
  obtain ⟨c, walked, found⟩ := isFile_iff.1 h
  exact walk_fileName walked (by simp [found])

theorem isFile_of_read {text : Text} (h : t.read p = .ok text) : t.isFile p = true := by
  obtain ⟨q, walked, found⟩ := read_eq_ok_iff.1 h
  obtain rfl := walk_place walked
  exact isFile_iff.2 ⟨_, walked, found⟩

/-- A file stands at a place of its own. -/
theorem mem_nodes_of_file {place : Place} {c : Content} (h : t.node? place = some (.file c)) :
    place ∈ t.nodes.map (·.1) := by
  rw [node?] at h
  split at h
  · rename_i n found
    obtain ⟨front, back, split, -⟩ := List.lookup_eq_some_iff.1 found
    simp [split]
  · split_ifs at h
    simp at h

theorem node?_root (h : t.isFile p = true) : t.node? [] = some .directory := by
  obtain ⟨c, walked, -⟩ := isFile_iff.1 h
  exact walk_root walked

/-- What is above a file is a directory. -/
theorem node?_above (h : t.isFile p = true) {above : Place} (inside : above <+: p.place) (other : above ≠ p.place) :
    t.node? above = some .directory := by
  obtain ⟨c, walked, -⟩ := isFile_iff.1 h
  exact walk_open walked (open_nil t) above inside other

theorem isFile_normalize (h : t.isFile p = true) : t.isFile p.normalize = true := by
  obtain ⟨c, walked, found⟩ := isFile_iff.1 h
  rw [isFile_iff, Path.normalize_place]
  exact ⟨c, walk_normalize_file walked found, found⟩

/-! ## Directories -/

/-- A directory stands at the place that its path means. -/
theorem isDirectory_iff : t.isDirectory p = true ↔
    t.walk [] (p.chars.splitOn '/') = .ok p.place ∧ t.node? p.place = some .directory := by
  rw [isDirectory, lookup]
  constructor
  · intro h
    cases walked : t.walk [] (p.chars.splitOn '/') with
    | error f => simp [walked] at h
    | ok q =>
      obtain rfl := walk_place walked
      cases found : t.node? p.place with
      | none => simp [walked, found] at h
      | some n =>
        cases n with
        | directory => exact ⟨rfl, rfl⟩
        | file c => simp [walked, found] at h
  · rintro ⟨walked, found⟩
    simp [walked, found]

/-- A walk that comes to a directory starts in one. -/
theorem walk_directory {place q : Place} {segments : List Text} (h : t.walk place segments = .ok q)
    (directory : t.node? q = some .directory) : t.node? place = some .directory := by
  cases segments with
  | nil =>
    obtain rfl : place = q := by simpa [walk] using h
    exact directory
  | cons s rest => exact (walk_cons_eq_ok.1 h).1

/-- What stands right below a place is listed there. -/
theorem mem_children {place : Place} {s : Text} {n : FileNode} (h : t.node? (place ++ [s]) = some n) :
    s ∈ t.children place := by
  obtain ⟨m, inside, more, split⟩ : ∃ m ∈ t.nodes, ∃ more, m.1 = place ++ s :: more := by
    rw [node?] at h
    split at h
    · rename_i m found
      obtain ⟨front, back, split, -⟩ := List.lookup_eq_some_iff.1 found
      exact ⟨(place ++ [s], m), by simp [split], [], rfl⟩
    · split_ifs at h with above
      rcases Bool.or_eq_true_iff.1 above with root | below
      · simp at root
      · obtain ⟨m, inside, below⟩ := List.any_eq_true.1 below
        rw [isStrictlyBelow, Bool.and_eq_true] at below
        obtain ⟨more, split⟩ := List.isPrefixOf_iff_prefix.1 below.2
        exact ⟨m, inside, more, by simp [← split]⟩
  rw [children, Sorting.mem_sort, List.mem_eraseDups]
  refine List.mem_filterMap.2 ⟨m, inside, ?_⟩
  rw [if_pos (by simp [isStrictlyBelow, split]), split]
  simp

/-- No file stands deeper than the tree is deep. -/
theorem length_le_depth {place : Place} {c : Content} (h : t.node? place = some (.file c)) :
    place.length ≤ t.depth := by
  have grows (ns : List (Place × FileNode)) : ∀ d, d ≤ ns.foldl (fun d n => max d n.1.length) d ∧
      ∀ n ∈ ns, n.1.length ≤ ns.foldl (fun d n => max d n.1.length) d := by
    induction ns with
    | nil => simp
    | cons n ns ih =>
      intro d
      obtain ⟨more, all⟩ := ih (max d n.1.length)
      rw [List.foldl_cons]
      refine ⟨Nat.le_trans (Nat.le_max_left ..) more, fun m member => ?_⟩
      rcases List.mem_cons.1 member with rfl | later
      · exact Nat.le_trans (Nat.le_max_right ..) more
      · exact all m later
  obtain ⟨n, inside, rfl⟩ := List.mem_map.1 (mem_nodes_of_file h)
  exact (grows t.nodes 0).2 n inside

/-- A walk goes on behind a directory. -/
theorem walk_join {place q : Place} {s : Text} (absolute : p.isAbsolute = true) (pure : '/' ∉ s)
    (here : t.walk [] (p.chars.splitOn '/') = .ok place) (onward : t.walk place [s] = .ok q) :
    t.walk [] ((p.join ⟨s⟩).chars.splitOn '/') = .ok q := by
  rw [Path.join, Path.relative_of_absent pure, if_neg (by simp)]
  split_ifs with ends
  · obtain ⟨front, split⟩ : ∃ front, p.chars = front ++ ['/'] := by
      rcases ends with none_ | slash
      · simp [Path.isAbsolute, none_] at absolute
      · exact List.getLast?_eq_some_iff.1 slash
    -- the walk to the directory takes the empty segment behind the slash, which stays where it is
    rw [split, Text.splitOn_append_cons] at here
    obtain ⟨middle, first, stay⟩ := walk_append_eq_ok.1 here
    obtain rfl : middle = place := by
      simpa [Path.Component.ofSegment?, walk] using (walk_cons_eq_ok.1 stay).2
    rw [split, List.append_assoc, List.singleton_append, Text.splitOn_append_cons, Text.splitOn_of_absent pure]
    exact walk_append_eq_ok.2 ⟨middle, first, onward⟩
  · rw [Text.splitOn_append_cons, Text.splitOn_of_absent pure]
    exact walk_append_eq_ok.2 ⟨place, here, onward⟩

/-- An absolute path that leads to a place. -/
def Leads (t : FileTree) (p : Path) (place : Place) : Prop :=
  p.isAbsolute = true ∧ t.walk [] (p.chars.splitOn '/') = .ok place

theorem Leads.join {place q : Place} {s : Text} (leads : t.Leads p place) (pure : '/' ∉ s)
    (onward : t.walk place [s] = .ok q) : t.Leads (p.join ⟨s⟩) q :=
  ⟨Path.join_absolute leads.1 _, walk_join leads.1 pure leads.2 onward⟩

theorem Leads.lookup {place : Place} {n : FileNode} (leads : t.Leads p place) (here : t.node? place = some n) :
    t.lookup p = .ok n := by
  rw [FileTree.lookup, leads.2]
  simp [here]

theorem Leads.isDirectory {place : Place} (leads : t.Leads p place) (here : t.node? place = some .directory) :
    t.isDirectory p = true := by
  simp [FileTree.isDirectory, leads.lookup here]

theorem Leads.isThere {place : Place} {n : FileNode} (leads : t.Leads p place) (here : t.node? place = some n) :
    t.isThere p = true := by
  simp [FileTree.isThere, leads.lookup here]

theorem Leads.list {place : Place} (leads : t.Leads p place) : t.list p = t.children place := by
  rw [FileTree.list, leads.2]

end ComponentLint.FileTree
