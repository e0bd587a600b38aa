import ComponentLint.TsConfig.Extends
import ComponentLint.Proofs.Fallible
import ComponentLint.Proofs.Path.Absolute
import ComponentLint.Proofs.Path.Normal

/-! Which project file a setting comes from. A file is asked before its bases, the last of them first, and each base
is asked with all that it extends before the next one is. -/
namespace ComponentLint.TsConfig

variable {tree : FileTree}

/-! ## The files that are asked -/

/-- The project file at a path as it is written, and its bases in the order in which they are asked. -/
def written? (tree : FileTree) (path : Path) : Option (TsConfig × List Path) :=
  match tree.read path with
  | .error _ => none
  | .ok contents =>
    match readRaw contents path with
    | .error _ => none
    | .ok raw =>
      some (ofRaw raw path, (raw.extending.getD []).reverse.filterMap (findBase tree (ofRaw raw path).root))

/-- The files that some paths lead to with all that they extend, in the order in which they are asked. -/
inductive Reached (tree : FileTree) : List Path → List TsConfig → Prop where
  | done : Reached tree [] []
  | next {path : Path} {own : TsConfig} {bases paths : List Path} {configs : List TsConfig}
      (here : written? tree path = some (own, bases)) (onward : Reached tree (bases ++ paths) configs) :
      Reached tree (path :: paths) (own :: configs)

theorem Reached.unique {paths : List Path} {first second : List TsConfig} (one : Reached tree paths first)
    (other : Reached tree paths second) : first = second := by
  induction one generalizing second with
  | done =>
    cases other
    rfl
  | @next path own bases paths configs here onward ih =>
    cases other with
    | @next _ again others _ rest found further =>
      obtain ⟨rfl, rfl⟩ := Prod.mk.inj (Option.some.inj (here.symm.trans found))
      rw [ih further]

theorem Reached.append {paths others : List Path} {first second : List TsConfig} (one : Reached tree paths first)
    (other : Reached tree others second) : Reached tree (paths ++ others) (first ++ second) := by
  induction one with
  | done => exact other
  | @next path own bases paths configs here onward ih =>
    apply Reached.next here
    simpa using ih

/-! ## Absolute directories -/

theorem baseCandidates_absolute {base candidate : Path} (h : base.isAbsolute = true)
    (member : candidate ∈ baseCandidates base) : candidate.isAbsolute = true := by
  simp only [baseCandidates, List.mem_cons, List.not_mem_nil, or_false] at member
  rcases member with rfl | rfl | rfl
  · exact h
  · obtain ⟨chars⟩ := base
    cases chars with
    | nil => simp [Path.isAbsolute] at h
    | cons c chars => exact h
  · exact Path.join_absolute h _

theorem findBase_absolute {root base : Path} {specifier : Text} (h : root.isAbsolute = true)
    (found : findBase tree root specifier = some base) : base.isAbsolute = true := by
  rw [findBase] at found
  split at found
  · apply baseCandidates_absolute _ (List.mem_of_find?_eq_some found)
    rw [Path.normalize_isAbsolute]
    exact Path.join_absolute h _
  · obtain ⟨directory, above, inside⟩ := List.exists_of_findSome?_eq_some found
    apply baseCandidates_absolute _ (List.mem_of_find?_eq_some inside)
    apply Path.join_absolute
    exact Path.join_absolute (Path.ancestors_absolute h above) _

theorem ofRaw_root_absolute (raw : Raw) {path : Path} (h : path.isAbsolute = true) :
    (ofRaw raw path).root.isAbsolute = true := by
  change (path.normalize.parent?.getD ⟨['/']⟩).isAbsolute = true
  cases above : path.normalize.parent? with
  | none => rfl
  | some root =>
    apply Path.parent?_absolute _ above
    rw [Path.normalize_isAbsolute]
    exact h

theorem written?_eq_some {path : Path} {own : TsConfig} {bases : List Path}
    (here : written? tree path = some (own, bases)) :
    ∃ contents raw, tree.read path = .ok contents ∧ readRaw contents path = .ok raw ∧ own = ofRaw raw path ∧
      bases = (raw.extending.getD []).reverse.filterMap (findBase tree own.root) := by
  rw [written?] at here
  split at here
  · contradiction
  · rename_i contents read
    split at here
    · contradiction
    · rename_i raw parsed
      obtain ⟨rfl, rfl⟩ := Prod.mk.inj (Option.some.inj here)
      exact ⟨contents, raw, read, parsed, rfl, rfl⟩

theorem Reached.absolute {paths : List Path} {configs : List TsConfig} (reached : Reached tree paths configs)
    (h : ∀ p ∈ paths, p.isAbsolute = true) : ∀ c ∈ configs, c.root.isAbsolute = true := by
  induction reached with
  | done => simp
  | @next path own bases paths configs here onward ih =>
    obtain ⟨contents, raw, -, -, rfl, rfl⟩ := written?_eq_some here
    have rooted := ofRaw_root_absolute raw (h path (by simp))
    intro c member
    rcases List.mem_cons.1 member with rfl | further
    · exact rooted
    · refine ih (fun p next => ?_) c further
      rcases List.mem_append.1 next with base | later
      · obtain ⟨specifier, -, found⟩ := List.mem_filterMap.1 base
        exact findBase_absolute rooted found
      · exact h p (by simp [later])

/-! ## Settings -/

/-- Patterns that are behind an absolute directory stay where they are. -/
theorem rebase_rebase {root : Path} (h : root.isAbsolute = true) (outer : Path) (patterns : List Text) :
    rebase outer (rebase root patterns) = rebase root patterns := by
  rw [rebase, rebase, List.map_map]
  apply List.map_congr_left
  intro pattern _
  simp [Path.join_of_absolute outer (Path.join_absolute h ⟨pattern⟩)]

/-- The patterns of a field: its own as they are written, or those of the first base that has some, behind the
directory of that base. -/
def patternsOf (field : TsConfig → Option (List Text)) (own : TsConfig) (bases : List TsConfig) :
    Option (List Text) :=
  (field own).or (bases.findSome? fun base => (field base).map (rebase base.root))

/-- Patterns that a base has taken itself are not moved again. -/
theorem map_rebase_patternsOf (field : TsConfig → Option (List Text)) (root : Path) (base : TsConfig)
    {below : List TsConfig} (absolute : ∀ c ∈ below, c.root.isAbsolute = true) :
    (patternsOf field base below).map (rebase root) =
      ((field base).map (rebase root)).or (below.findSome? fun c => (field c).map (rebase c.root)) := by
  have kept : (below.findSome? fun c => (field c).map (rebase c.root)).map (rebase root) =
      below.findSome? fun c => (field c).map (rebase c.root) := by
    induction below with
    | nil => rfl
    | cons c below ih =>
      cases own : field c with
      | none => simpa [own] using ih fun d member => absolute d (by simp [member])
      | some patterns => simp [own, rebase_rebase (absolute c (by simp))]
  rw [patternsOf, Option.map_or, kept]

theorem patternsOf_append (field : TsConfig → Option (List Text)) (own : TsConfig) (bases : List TsConfig)
    (base : TsConfig) {below : List TsConfig} (absolute : ∀ c ∈ below, c.root.isAbsolute = true) :
    patternsOf field own (bases ++ base :: below) =
      (patternsOf field own bases).or ((patternsOf field base below).map (rebase base.root)) := by
  rw [map_rebase_patternsOf field base.root base absolute, patternsOf, patternsOf, Option.or_assoc,
    List.findSome?_append, List.findSome?_cons]
  cases (field base).map (rebase base.root) <;> rfl

/-- `c` is what `own` becomes when it takes what it leaves out from `bases`, which are asked in turn. -/
structure Filled (own : TsConfig) (bases : List TsConfig) (c : TsConfig) : Prop where
  root : c.root = own.root
  target : c.target = (own :: bases).findSome? TsConfig.target
  paths : c.paths = (own :: bases).findSome? TsConfig.paths
  includes : c.includes = patternsOf TsConfig.includes own bases
  excludes : c.excludes = patternsOf TsConfig.excludes own bases
  files : c.files = patternsOf TsConfig.files own bases

theorem Filled.nothing (own : TsConfig) : Filled own [] own := by
  constructor <;> simp [patternsOf]

theorem findSome?_cons_append {α : Type} (field : TsConfig → Option α) (own : TsConfig) (bases below : List TsConfig) :
    (own :: (bases ++ below)).findSome? field = ((own :: bases).findSome? field).or (below.findSome? field) := by
  rw [← List.cons_append, List.findSome?_append]

/-- A base that is filled from what it extends is asked with all of it behind it. -/
theorem Filled.inherit {own base c b : TsConfig} {bases below : List TsConfig} (filled : Filled own bases c)
    (loaded : Filled base below b) (absolute : ∀ d ∈ below, d.root.isAbsolute = true) :
    Filled own (bases ++ base :: below) (c.inherit b) where
  root := filled.root
  target := by
    rw [findSome?_cons_append, ← filled.target, ← loaded.target]
    rfl
  paths := by
    rw [findSome?_cons_append, ← filled.paths, ← loaded.paths]
    rfl
  includes := by
    rw [patternsOf_append _ _ _ _ absolute, ← filled.includes, ← loaded.includes, ← loaded.root]
    rfl
  excludes := by
    rw [patternsOf_append _ _ _ _ absolute, ← filled.excludes, ← loaded.excludes, ← loaded.root]
    rfl
  files := by
    rw [patternsOf_append _ _ _ _ absolute, ← filled.files, ← loaded.files, ← loaded.root]
    rfl

/-! ## The directory of aliases -/

/-- A file among some leaves its aliases to the files it extends, and takes them there. -/
def Borrows (tree : FileTree) (configs : List TsConfig) : Prop :=
  ∃ front borrower below back path, configs = front ++ borrower :: below ++ back ∧
    Reached tree [path] (borrower :: below) ∧ borrower.paths = none ∧ ∃ d ∈ below, d.paths.isSome = true

/-- The directory of a file that declares aliases, among files of which one borrows its own. -/
def IsStray (tree : FileTree) (configs : List TsConfig) (directory : Path) : Prop :=
  Borrows tree configs ∧ ∃ d ∈ configs, d.paths.isSome = true ∧ directory = d.root

/-- The directory of the first file that declares aliases, or a stray one below this file. -/
def IsAnchor (tree : FileTree) (configs : List TsConfig) (directory : Path) : Prop :=
  ∃ front winner below back path, configs = front ++ winner :: below ++ back ∧ (∀ d ∈ front, d.paths = none) ∧
    winner.paths.isSome = true ∧ Reached tree [path] (winner :: below) ∧
    (directory = winner.root ∨ IsStray tree below directory)

section

variable {configs : List TsConfig} {directory : Path}

theorem IsStray.within (h : IsStray tree configs directory) (front back : List TsConfig) :
    IsStray tree (front ++ configs ++ back) directory := by
  obtain ⟨⟨most, borrower, below, rest, path, split, reached⟩, d, member, declares⟩ := h
  refine ⟨⟨front ++ most, borrower, below, rest ++ back, path, ?_, reached⟩, d, ?_, declares⟩
  · simp [split]
  · simp [member]

theorem IsAnchor.within (h : IsAnchor tree configs directory) (front : List TsConfig)
    (none_ : ∀ d ∈ front, d.paths = none) (back : List TsConfig) : IsAnchor tree (front ++ configs ++ back) directory := by
  obtain ⟨most, winner, below, rest, path, split, leave, declares⟩ := h
  refine ⟨front ++ most, winner, below, rest ++ back, path, by simp [split], ?_, declares⟩
  intro d member
  rcases List.mem_append.1 member with early | late
  · exact none_ d early
  · exact leave d late

theorem IsAnchor.declares (h : IsAnchor tree configs directory) :
    ∃ d ∈ configs, d.paths.isSome = true ∧ directory = d.root := by
  obtain ⟨most, winner, below, rest, path, rfl, -, declares, -, own | ⟨-, d, member, also⟩⟩ := h
  · exact ⟨winner, by simp, declares, own⟩
  · exact ⟨d, by simp [member], also⟩

end

/-- What is known of the directory of aliases while a file takes what it leaves out from `bases`, none of which sets
one. -/
structure Taking (tree : FileTree) (own : TsConfig) (bases : List TsConfig) (c : TsConfig) : Prop where
  declared : own.paths.isSome = true → ∀ directory, c.baseUrl = some directory → IsStray tree bases directory
  borrowed : own.paths = none → ∀ directory, c.baseUrl = some directory → IsAnchor tree bases directory
  placed : own.paths = none → c.paths.isSome = true → c.baseUrl.isSome = true

/-- What is known of it when the file has taken all. -/
structure Anchored (tree : FileTree) (configs : List TsConfig) (c : TsConfig) : Prop where
  strays : ∀ directory, c.baseUrl = some directory → IsStray tree configs directory
  anchors : c.paths.isSome = true → IsAnchor tree configs c.baseDirectory

theorem Taking.nothing {own : TsConfig} (unset : own.baseUrl = none) : Taking tree own [] own where
  declared _ directory set := by simp [unset] at set
  borrowed _ directory set := by simp [unset] at set
  placed leaves declares := by simp [leaves] at declares

section

variable {own base b c : TsConfig} {bases below : List TsConfig}

theorem Filled.leaves (filled : Filled own bases c) (none_ : c.paths = none) : ∀ d ∈ own :: bases, d.paths = none := by
  rw [filled.paths] at none_
  exact List.findSome?_eq_none_iff.1 none_

theorem Filled.declares (filled : Filled own bases c) {d : TsConfig} (member : d ∈ own :: bases)
    (declares : d.paths.isSome = true) : c.paths.isSome = true := by
  rw [Option.isSome_iff_ne_none]
  intro none_
  have leaves := filled.leaves none_ d member
  simp [leaves] at declares

/-- A directory is taken together with aliases, and otherwise only if the base has one. -/
theorem inherit_baseUrl (c b : TsConfig) (h : ¬(c.paths = none ∧ b.paths.isSome = true)) :
    (c.inherit b).baseUrl = c.baseUrl.or b.baseUrl := by
  have kept : (c.paths.isNone && b.paths.isSome) = false := by simpa using h
  simp [inherit, kept]

theorem inherit_baseUrl_taken (leaves : c.paths = none) (declares : b.paths.isSome = true) :
    (c.inherit b).baseUrl = c.baseUrl.or (some b.baseDirectory) := by
  simp [inherit, leaves, declares]

/-- A base without aliases has no directory of them either. -/
theorem Anchored.leaves (anchored : Anchored tree (base :: below) b) (loaded : Filled base below b)
    (none_ : b.paths = none) : b.baseUrl = none := by
  rw [Option.eq_none_iff_forall_ne_some]
  intro directory set
  obtain ⟨-, d, member, declares, -⟩ := anchored.strays directory set
  have some_ := loaded.declares member declares
  simp [none_] at some_

/-- Taking from one more base, which is anchored itself, keeps what is known. -/
theorem Taking.inherit (taking : Taking tree own bases c) (filled : Filled own bases c)
    (anchored : Anchored tree (base :: below) b) (loaded : Filled base below b) :
    Taking tree own (bases ++ base :: below) (c.inherit b) := by
  by_cases settled : c.paths.isSome = true
  · have url : (c.inherit b).baseUrl = c.baseUrl.or b.baseUrl := by
      apply inherit_baseUrl
      rintro ⟨none_, -⟩
      simp [none_] at settled
    constructor
    · intro declares directory set
      rw [url] at set
      rcases Option.or_eq_some_iff.1 set with before | ⟨-, further⟩
      · simpa using (taking.declared declares directory before).within [] (base :: below)
      · simpa using (anchored.strays directory further).within bases []
    · intro leaves directory set
      rw [url, Option.or_of_isSome (taking.placed leaves settled)] at set
      simpa using (taking.borrowed leaves directory set).within [] (by simp) (base :: below)
    · intro leaves _
      rw [url, Option.or_of_isSome (taking.placed leaves settled)]
      exact taking.placed leaves settled
  · have none_ : c.paths = none := by simpa using settled
    have before := filled.leaves none_
    -- nothing so far declares aliases, so no directory of them is taken yet, and the base brings one with its aliases
    have bare : c.baseUrl = none := by
      rw [Option.eq_none_iff_forall_ne_some]
      intro directory set
      obtain ⟨d, member, declares, -⟩ := (taking.borrowed (before own (by simp)) directory set).declares
      simp [before d (by simp [member])] at declares
    have shape : (c.inherit b).baseUrl = if b.paths.isSome = true then some b.baseDirectory else none := by
      split_ifs with declares
      · simp [inherit_baseUrl_taken none_ declares, bare]
      · rw [inherit_baseUrl c b fun both => declares both.2, bare, Option.none_or]
        exact anchored.leaves loaded (by simpa using declares)
    constructor
    · intro declares
      simp [before own (by simp)] at declares
    · intro _ directory set
      rw [shape] at set
      split_ifs at set with declares
      obtain rfl := Option.some.inj set
      simpa using (anchored.anchors declares).within bases (fun d member => before d (by simp [member])) []
    · intro _ declares
      have here : b.paths.isSome = true := by simpa [TsConfig.inherit, none_] using declares
      simp [shape, here]

/-- When a file has taken all, its directory is an anchor. -/
theorem Taking.anchored {path : Path} (taking : Taking tree own bases c) (filled : Filled own bases c)
    (reached : Reached tree [path] (own :: bases)) : Anchored tree (own :: bases) c := by
  by_cases declares : own.paths.isSome = true
  · constructor
    · intro directory set
      simpa using (taking.declared declares directory set).within [own] []
    · intro _
      refine ⟨[], own, bases, [], path, by simp, by simp, declares, reached, ?_⟩
      cases set : c.baseUrl with
      | none => exact .inl (by rw [baseDirectory, set, Option.getD_none, filled.root])
      | some directory => exact .inr (by simpa [baseDirectory, set] using taking.declared declares directory set)
  · have leaves : own.paths = none := by simpa using declares
    constructor
    · intro directory set
      obtain ⟨d, member, declares, here⟩ := (taking.borrowed leaves directory set).declares
      refine ⟨⟨[], own, bases, [], path, by simp, reached, leaves, d, member, declares⟩, d, ?_, declares, here⟩
      simp [member]
    · intro some_
      obtain ⟨directory, set⟩ := Option.isSome_iff_exists.1 (taking.placed leaves some_)
      have anchor := (taking.borrowed leaves directory set).within [own] (by simpa using leaves) []
      simpa [baseDirectory, set] using anchor

end

/-! ## Loading -/

/-- What a loaded file is: filled from all that is reached from its path, with an anchored directory of aliases if no
file sets one. -/
def Loaded (tree : FileTree) (path : Path) (c : TsConfig) : Prop :=
  ∃ own bases, Reached tree [path] (own :: bases) ∧ Filled own bases c ∧
    ((∀ d ∈ own :: bases, d.baseUrl = none) → Anchored tree (own :: bases) c)

/-- Taking the bases in turn, each loaded by itself, reaches them with all that they extend. -/
theorem inheritAll_loaded {load : Path → Except Fault TsConfig} {own c done : TsConfig} {bases : List TsConfig}
    (loads : ∀ base b, base.isAbsolute = true → load base = .ok b → Loaded tree base b)
    (absolute : own.root.isAbsolute = true) (filled : Filled own bases c)
    (taking : (∀ d ∈ own :: bases, d.baseUrl = none) → Taking tree own bases c) (specifiers : List Text)
    (h : inheritAll tree load c specifiers = .ok done) :
    ∃ further, Reached tree (specifiers.filterMap (findBase tree own.root)) further ∧
      Filled own (bases ++ further) done ∧
      ((∀ d ∈ own :: (bases ++ further), d.baseUrl = none) → Taking tree own (bases ++ further) done) := by
  induction specifiers generalizing bases c with
  | nil =>
    obtain rfl := Except.ok.inj h
    exact ⟨[], .done, by simpa using filled, by simpa using taking⟩
  | cons specifier rest ih =>
    rw [inheritAll, filled.root] at h
    rw [List.filterMap_cons]
    cases found : findBase tree own.root specifier with
    | none =>
      rw [found] at h
      exact ih filled taking h
    | some path =>
      rw [found] at h
      dsimp only at h
      have away := findBase_absolute absolute found
      cases read : load path with
      | error f => simp [read] at h
      | ok b =>
        rw [read] at h
        obtain ⟨base, below, reached, loaded, anchored⟩ := loads path b away read
        have rooted : ∀ d ∈ below, d.root.isAbsolute = true := by
          intro d member
          exact reached.absolute (by simpa using away) d (by simp [member])
        have taken : (∀ d ∈ own :: (bases ++ base :: below), d.baseUrl = none) →
            Taking tree own (bases ++ base :: below) (c.inherit b) := by
          intro unset
          have before : ∀ d ∈ own :: bases, d.baseUrl = none := by
            intro d member
            apply unset
            exact List.cons_subset_cons own (List.subset_append_left bases _) member
          have behind : ∀ d ∈ base :: below, d.baseUrl = none := by
            intro d member
            apply unset
            exact List.mem_cons_of_mem own (List.mem_append_right bases member)
          exact (taking before).inherit filled (anchored behind) loaded
        obtain ⟨further, onward, filled', taking'⟩ := ih (filled.inherit loaded rooted) taken h
        refine ⟨base :: below ++ further, ?_, by simpa using filled', by simpa using taking'⟩
        exact reached.append onward

/-- By induction on the depth to which files extend each other. -/
theorem loadWithin_loaded (fuel : Nat) {chain : List Path} {path : Path} {c : TsConfig}
    (absolute : path.isAbsolute = true) (h : loadWithin tree fuel chain path = .ok c) : Loaded tree path c := by
  induction fuel generalizing chain path c with
  | zero => contradiction
  | succ fuel ih =>
    rw [loadWithin] at h
    split_ifs at h
    split at h
    · contradiction
    · rename_i contents read
      split at h
      · contradiction
      · rename_i raw parsed
        have here : written? tree path = some (ofRaw raw path,
            (raw.extending.getD []).reverse.filterMap (findBase tree (ofRaw raw path).root)) := by
          simp [written?, read, parsed]
        obtain ⟨bases, onward, filled, taking⟩ := inheritAll_loaded (fun base b away read => ih away read)
          (ofRaw_root_absolute raw absolute) (.nothing _) (fun unset => .nothing (unset _ (by simp))) _ h
        have reached : Reached tree [path] (ofRaw raw path :: bases) := .next here (by simpa using onward)
        exact ⟨ofRaw raw path, bases, reached, by simpa using filled, fun unset =>
          (taking unset).anchored filled reached⟩

/-- A setting of a loaded file is that of the first file that has it, where the files are asked in the one order in
which they are reached. Patterns are kept as they are written in the file itself, and those of a base, however far away,
are behind the directory of that base. If no file sets a directory of aliases, it is that of the file whose aliases were
taken, unless a file below that one borrows the aliases of another. The path is absolute, as a project file is asked for
from the working directory. -/
theorem load_precedence {path : Path} {c : TsConfig} (absolute : path.isAbsolute = true) (h : load tree path = .ok c) :
    ∃ own bases, Reached tree [path] (own :: bases) ∧
      (∀ configs, Reached tree [path] configs → configs = own :: bases) ∧ Filled own bases c ∧
      ((∀ d ∈ own :: bases, d.baseUrl = none) → c.paths.isSome = true →
        IsAnchor tree (own :: bases) c.baseDirectory) := by
  obtain ⟨own, bases, reached, filled, anchored⟩ := loadWithin_loaded _ absolute h
  exact ⟨own, bases, reached, fun configs also => also.unique reached, filled, fun unset => (anchored unset).anchors⟩

theorem load_precedence_bases :
    let file (place : List String) (text : String) : Place × FileNode :=
      (place.map String.toList, .file (.text text.toList))
    let tree : FileTree := ⟨[
      file ["p", "tsconfig.json"] "\x7b\"extends\":[\"./configs/base\",\"./last.json\"],\"exclude\":[\"dist\"]\x7d",
      file ["p", "last.json"] "\x7b\"compilerOptions\":\x7b\"target\":\"es2020\"\x7d\x7d",
      file ["p", "configs", "base.json"]
        "\x7b\"compilerOptions\":\x7b\"target\":\"es2017\",\"paths\":\x7b\"@/*\":\"src/*\"\x7d\x7d,\"include\":[\"../lib\"]\x7d"]⟩
    ∃ c own bases, load tree (.ofString "/p/tsconfig.json") = .ok c ∧ Filled own bases c ∧
      IsAnchor tree (own :: bases) c.baseDirectory ∧ bases.map (·.path.toString) = ["/p/last.json", "/p/configs/base.json"] ∧
      c.target = some "es2020".toList ∧ c.includes = some ["/p/configs/../lib".toList] ∧
      c.excludes = some ["dist".toList] ∧ c.baseDirectory = .ofString "/p/configs" := by
  intro file tree
  let own : TsConfig := { path := .ofString "/p/tsconfig.json", root := .ofString "/p", excludes := some ["dist".toList] }
  let last : TsConfig := { path := .ofString "/p/last.json", root := .ofString "/p", target := some "es2020".toList }
  let base : TsConfig :=
    { path := .ofString "/p/configs/base.json", root := .ofString "/p/configs", target := some "es2017".toList,
      paths := some [⟨"@/*".toList, ["src/*".toList]⟩], includes := some ["../lib".toList] }
  let c : TsConfig :=
    { own with
      paths := base.paths, baseUrl := some base.root, target := last.target
      includes := some ["/p/configs/../lib".toList] }
  have start : written? tree own.path = some (own, [last.path, base.path]) := by decide +kernel
  have after : written? tree last.path = some (last, []) := by decide +kernel
  have lastly : written? tree base.path = some (base, []) := by decide +kernel
  have loaded : load tree own.path = .ok c := eq_ok_of_toOption (by decide +kernel)
  obtain ⟨own', bases, reached, unique, filled, anchored⟩ := load_precedence (by decide +kernel) loaded
  obtain ⟨rfl, rfl⟩ := List.cons.inj (unique _ (.next start (.next after (.next lastly .done))))
  exact ⟨c, own, [last, base], loaded, filled, anchored (by decide +kernel) rfl, by decide +kernel⟩

/-- The aliases that a file takes from its base need not be relative to the base that declares them. -/
theorem inherited_aliases_stray :
    ¬∀ (tree : FileTree) (path : Path) (c own winner : TsConfig) (bases : List TsConfig), path.isAbsolute = true →
      load tree path = .ok c → Reached tree [path] (own :: bases) → (∀ d ∈ own :: bases, d.baseUrl = none) →
      own.paths = none → bases.find? (·.paths.isSome) = some winner → c.baseDirectory = winner.root := by
  intro relative
  let file (place : List String) (text : String) : Place × FileNode :=
    (place.map String.toList, .file (.text text.toList))
  let tree : FileTree := ⟨[
    file ["p", "tsconfig.json"] "\x7b\"extends\":\"./b/b.json\"\x7d",
    file ["p", "b", "b.json"]
      "\x7b\"extends\":\"../m/m.json\",\"compilerOptions\":\x7b\"paths\":\x7b\"@/*\":[\"src/*\"]\x7d\x7d\x7d",
    file ["p", "m", "m.json"] "\x7b\"extends\":\"../z/z.json\"\x7d",
    file ["p", "z", "z.json"] "\x7b\"compilerOptions\":\x7b\"paths\":\x7b\"#/*\":[\"lib/*\"]\x7d\x7d\x7d"]⟩
  let own : TsConfig := { path := .ofString "/p/tsconfig.json", root := .ofString "/p" }
  let b : TsConfig :=
    { path := .ofString "/p/b/b.json", root := .ofString "/p/b", paths := some [⟨"@/*".toList, ["src/*".toList]⟩] }
  let m : TsConfig := { path := .ofString "/p/m/m.json", root := .ofString "/p/m" }
  let z : TsConfig :=
    { path := .ofString "/p/z/z.json", root := .ofString "/p/z", paths := some [⟨"#/*".toList, ["lib/*".toList]⟩] }
  have start : written? tree own.path = some (own, [b.path]) := by decide +kernel
  have onward : written? tree b.path = some (b, [m.path]) := by decide +kernel
  have further : written? tree m.path = some (m, [z.path]) := by decide +kernel
  have lastly : written? tree z.path = some (z, []) := by decide +kernel
  have reached : Reached tree [own.path] [own, b, m, z] := .next start (.next onward (.next further (.next lastly .done)))
  -- `m` borrows the aliases of `z` with their directory, and `b` takes the directory alone
  have loaded : load tree own.path = .ok { own with paths := b.paths, baseUrl := some z.root } :=
    eq_ok_of_toOption (by decide +kernel)
  have found := relative tree _ _ own b [b, m, z] (by decide +kernel) loaded reached (by decide +kernel) rfl rfl
  revert found
  decide +kernel

end ComponentLint.TsConfig
