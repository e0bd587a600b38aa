import ComponentLint.Proofs.Files.Places
import ComponentLint.Proofs.Glob.Walk

/-! How a walk spells what it finds. The names that it puts behind each other are those of the tree, and the segments of
its pattern that have no wildcard; so it finds files by their normal form, unless a segment of the pattern is or matches
`.` or `..`. -/
namespace ComponentLint

/-! ## Names in a tree -/

instance (s : Text) : Decidable (Path.IsName s) := inferInstanceAs (Decidable (_ ∧ _))

/-- Every segment of every place in the tree is a name. -/
def FileTree.Named (t : FileTree) : Prop := ∀ n ∈ t.nodes, ∀ s ∈ n.1, Path.IsName s

instance (t : FileTree) : Decidable t.Named := inferInstanceAs (Decidable (∀ n ∈ t.nodes, _))

theorem FileTree.Named.list {t : FileTree} (named : t.Named) {p : Path} {s : Text} (member : s ∈ t.list p) :
    Path.IsName s := by
  rw [FileTree.list] at member
  split at member
  · contradiction
  · rw [children, Sorting.mem_sort, List.mem_eraseDups] at member
    obtain ⟨n, inside, found⟩ := List.mem_filterMap.1 member
    split at found
    · exact named n inside s (List.mem_of_mem_drop (List.mem_of_mem_head? found))
    · contradiction

namespace Path

/-! ## Plain paths -/

/-- Names, each behind a slash; one more slash may stand at the end. -/
def IsPlain (p : Path) : Prop :=
  ∃ names, (∀ s ∈ names, IsName s) ∧
    (names ≠ [] ∧ p.chars = names.flatMap ('/' :: ·) ∨ p.chars = names.flatMap ('/' :: ·) ++ ['/'])

theorem IsPlain.root : IsPlain ⟨['/']⟩ := ⟨[], by simp, .inr rfl⟩

theorem IsName.relative {s : Text} (h : IsName s) : (⟨s⟩ : Path).isAbsolute = false := relative_of_absent h.2.2.2

/-- What is put together of names does not end in a slash. -/
theorem getLast?_names {names : List Text} (isNames : ∀ s ∈ names, IsName s) :
    (names.flatMap ('/' :: ·)).getLast? ≠ some '/' := by
  rcases List.eq_nil_or_concat' names with rfl | ⟨front, last, rfl⟩
  · simp
  · obtain ⟨some_, -, -, pure⟩ := isNames last (by simp)
    rw [List.flatMap_append, List.flatMap_singleton, List.getLast?_append_of_ne_nil _ (by simp)]
    intro slash
    rw [List.getLast?_cons_of_ne_nil some_] at slash
    exact pure (List.mem_of_mem_getLast? slash)

theorem IsPlain.join {p : Path} (h : p.IsPlain) {s : Text} (piece : s = [] ∨ IsName s) : (p.join ⟨s⟩).IsPlain := by
  obtain ⟨names, isNames, shape⟩ := h
  have relative : (⟨s⟩ : Path).isAbsolute = false := by
    rcases piece with rfl | isName
    · rfl
    · exact isName.relative
  have grown (isName : IsName s) : ∀ u ∈ names ++ [s], IsName u := by
    intro u member
    rcases List.mem_append.1 member with early | last
    · exact isNames u early
    · rwa [List.mem_singleton.1 last]
  rw [Path.join, relative, if_neg (by simp)]
  rcases shape with ⟨some_, chars⟩ | chars
  · have filled : p.chars ≠ [] := by
      obtain ⟨first, rest, rfl⟩ := List.exists_cons_of_ne_nil some_
      simp [chars]
    have last : p.chars.getLast? ≠ some '/' := by
      rw [chars]
      exact getLast?_names isNames
    rw [if_neg (not_or.2 ⟨filled, last⟩)]
    rcases piece with rfl | isName
    · exact ⟨names, isNames, .inr (by simp [chars])⟩
    · exact ⟨names ++ [s], grown isName, .inl ⟨by simp, by simp [chars]⟩⟩
  · rw [if_pos (.inr (by simp [chars]))]
    rcases piece with rfl | isName
    · exact ⟨names, isNames, .inr (by simp [chars])⟩
    · exact ⟨names ++ [s], grown isName, .inl ⟨by simp, by simp [chars]⟩⟩

theorem slash_join {names : List Text} (some_ : names ≠ []) : '/' :: Text.join ['/'] names = names.flatMap ('/' :: ·) := by
  induction names with
  | nil => contradiction
  | cons s names ih =>
    cases names with
    | nil => simp [Text.join]
    | cons u names =>
      rw [List.flatMap_cons, ← ih (by simp), Text.join]
      simp

/-- A plain path that is that of a file is in normal form. -/
theorem IsPlain.normalize_eq {p : Path} (h : p.IsPlain) {t : FileTree} (file : t.isFile p = true) : p.normalize = p := by
  obtain ⟨names, isNames, ⟨some_, chars⟩ | chars⟩ := h
  · have normal : Normal true (.root :: names.map .name) := ⟨names, isNames, .inl ⟨rfl, rfl⟩⟩
    have spelled : p = ofComponents (.root :: names.map .name) := by
      have same : (names.map Component.name).map Component.chars = names := by
        rw [List.map_map]
        exact List.map_id names
      rw [ofComponents, same, slash_join some_, ← chars]
    rw [normalize, spelled, normal.components_eq.1, normal.foldComponents_eq]
  · -- behind a slash the walk through the tree is at a directory
    obtain ⟨c, walked, found⟩ := FileTree.isFile_iff.1 file
    rw [chars, Text.splitOn_append_cons] at walked
    obtain ⟨middle, -, last⟩ := FileTree.walk_append_eq_ok.1 walked
    obtain ⟨directory, arrived⟩ := FileTree.walk_cons_eq_ok.1 last
    obtain rfl : middle = p.place := by simpa [Component.ofSegment?, FileTree.walk] using arrived
    rw [directory] at found
    simp at found

end Path

namespace Glob

/-! ## Patterns for the special directories -/

/-- Whether a segment of a pattern is or matches `.` or `..`, which stand in every directory. -/
def isSpecial (o : Options) (segment : Text) : Bool :=
  match Pattern.ofText segment with
  | .ok pattern => pattern.covers o ['.'] || pattern.covers o ['.', '.']
  | .error _ => false

theorem matchFrom_chars (o : Options) (name : Text) (fresh : Bool) : matchFrom o (name.map .char) fresh name = true := by
  induction name generalizing fresh with
  | nil => rfl
  | cons c name ih => simp [matchFrom, Token.accepts, ih]

namespace Pattern

theorem plain?_eq_some {pattern : Pattern} {name : Text} (h : pattern.plain? = some name) :
    pattern.tokens = name.map .char := by
  rw [plain?] at h
  generalize pattern.tokens = tokens at h
  induction tokens generalizing name with
  | nil =>
    obtain rfl : [] = name := by simpa using h
    rfl
  | cons token tokens ih =>
    rw [List.mapM_cons] at h
    obtain ⟨c, first, h⟩ := Option.bind_eq_some_iff.1 h
    obtain ⟨others, later, h⟩ := Option.bind_eq_some_iff.1 h
    obtain rfl := Option.some.inj h
    rw [ih later, List.map_cons]
    cases token <;> simp_all

theorem bracketed?_sublist {inside members rest : Text} (h : bracketed? inside = some (members, rest)) :
    rest.Sublist inside := by
  cases inside with
  | nil => simp [bracketed?] at h
  | cons first inside =>
    rw [bracketed?] at h
    split_ifs at h
    obtain ⟨-, rfl⟩ := Prod.mk.inj (Option.some.inj h)
    exact (((List.drop_sublist _ _).trans (List.dropWhile_sublist _))).cons _

/-- A class in brackets is no character. -/
theorem bracketClass?_cases {inside rest : Text} {token : Token} (h : bracketClass? inside = some (token, rest)) :
    (∀ c, token ≠ .char c) ∧ rest.Sublist inside := by
  rw [bracketClass?.eq_def] at h
  split at h
  · obtain ⟨⟨members, rest'⟩, cut, same⟩ := Option.map_eq_some_iff.1 h
    obtain ⟨rfl, rfl⟩ := Prod.mk.inj same
    exact ⟨by simp, (bracketed?_sublist cut).cons _⟩
  · obtain ⟨⟨members, rest'⟩, cut, same⟩ := Option.map_eq_some_iff.1 h
    obtain ⟨rfl, rfl⟩ := Prod.mk.inj same
    exact ⟨by simp, bracketed?_sublist cut⟩

theorem char_of_mem_addRecursive {p : Pattern} {c : Char} (member : .char c ∈ p.addRecursive.tokens) :
    .char c ∈ p.tokens := by
  rw [addRecursive] at member
  split_ifs at member
  · exact member
  · simpa using member

/-- The characters of a pattern that stand for themselves are those of its text. -/
theorem char_of_mem_read {p pattern : Pattern} {position : Nat} {previous : Option Char} {fuel : Nat} {t : Text}
    (h : read p position previous fuel t = .ok pattern) {c : Char} (member : .char c ∈ pattern.tokens) :
    .char c ∈ p.tokens ∨ c ∈ t := by
  have behind {p : Pattern} {token : Token} (other : token ≠ .char c) (inside : .char c ∈ p.tokens ++ [token]) :
      .char c ∈ p.tokens := by
    rcases List.mem_append.1 inside with early | last
    · exact early
    · exact absurd (List.mem_singleton.1 last).symm other
  fun_induction read p position previous fuel t with
  | case1 =>
    obtain rfl := Except.ok.inj h
    exact .inl member
  | case2 =>
    obtain rfl := Except.ok.inj h
    exact .inl member
  | case3 _ _ _ _ rest ih =>
    exact (ih h).imp (behind (by simp)) (List.mem_cons_of_mem _)
  | case4 _ _ _ _ t more rest stop none_ ih =>
    refine (ih h).imp (behind (by simp)) fun inRest => List.mem_cons_of_mem _ ?_
    exact (List.dropWhile_sublist _).subset inRest
  | case5 =>
    obtain rfl := Except.ok.inj h
    exact .inl (char_of_mem_addRecursive member)
  | case6 _ _ _ _ t more front stop one slash rest split ih =>
    refine (ih h).imp char_of_mem_addRecursive fun inRest => List.mem_cons_of_mem _ ?_
    have inFront : c ∈ front := by
      rw [split]
      exact List.mem_cons_of_mem _ inRest
    exact (List.dropWhile_sublist _).subset inFront
  | case7 => simp at h
  | case8 => simp at h
  | case9 => simp at h
  | case10 => simp at h
  | case11 _ _ _ _ inside token rest bracket ih =>
    obtain ⟨other, among⟩ := bracketClass?_cases bracket
    exact (ih h).imp (behind (other c)) fun inRest => List.mem_cons_of_mem _ (among.subset inRest)
  | case12 _ _ _ _ d rest _ _ _ ih =>
    rcases ih h with inside | inRest
    · rcases List.mem_append.1 inside with early | last
      · exact .inl early
      · obtain rfl := Token.char.inj (List.mem_singleton.1 last)
        exact .inr (List.mem_cons_self ..)
    · exact .inr (List.mem_cons_of_mem _ inRest)

/-- A segment without wildcards stands for a name, or for nothing where there are two slashes. -/
theorem isName_of_plain? {o : Options} {segment name : Text} {pattern : Pattern} (read : ofText segment = .ok pattern)
    (pure : '/' ∉ segment) (steady : isSpecial o segment = false) (plain : pattern.plain? = some name) :
    name = [] ∨ Path.IsName name := by
  have tokens := plain?_eq_some plain
  have covers : pattern.covers o name = true := by
    rw [Pattern.covers, tokens]
    exact matchFrom_chars o name true
  obtain ⟨dot, dots⟩ : pattern.covers o ['.'] = false ∧ pattern.covers o ['.', '.'] = false := by
    simpa [isSpecial, read] using steady
  by_cases some_ : name = []
  · exact .inl some_
  · refine .inr ⟨some_, ?_, ?_, fun slash => ?_⟩
    · rintro rfl
      rw [covers] at dot
      contradiction
    · rintro rfl
      rw [covers] at dots
      contradiction
    · have inside : .char '/' ∈ pattern.tokens := by
        rw [tokens]
        exact List.mem_map_of_mem slash
      rcases char_of_mem_read read inside with none_ | inSegment
      · simp at none_
      · exact pure inSegment

end Pattern

/-! ## What is found -/

theorem slash_not_mem_componentTexts {pattern segment : Text} (member : segment ∈ componentTexts pattern) :
    '/' ∉ segment := by
  have pieces (behind : Text) (inside : segment ∈ List.splitOn '/' behind) : '/' ∉ segment := by
    rw [Text.list_splitOn] at inside
    exact Text.absent_of_mem_splitOn inside
  rw [componentTexts] at member
  split_ifs at member
  all_goals first
    | exact pieces _ member
    | exact pieces _ ((List.dropLast_sublist _).subset member)

/-- A walk in a tree of names by a pattern without special components finds plain paths. -/
theorem paths_plain {tree : FileTree} {o : Options} {pattern : Text} {ps : List Path} (named : tree.Named)
    (steady : ∀ s ∈ componentTexts pattern, isSpecial o s = false) (h : paths tree o pattern = .ok ps) :
    ∀ p ∈ ps, p.IsPlain := by
  apply paths_forall (motive := Path.IsPlain) h .root
  intro patterns origin
  constructor
  · intro component member name plain p holds
    obtain ⟨s, inside, read⟩ := origin component member
    exact holds.join (Pattern.isName_of_plain? read (slash_not_mem_componentTexts inside) (steady s inside) plain)
  · intro component member p name special
    obtain ⟨s, inside, read⟩ := origin component member
    obtain ⟨dot, dots⟩ : component.covers o ['.'] = false ∧ component.covers o ['.', '.'] = false := by
      simpa [isSpecial, read] using steady s inside
    rw [Walk.specials] at special
    split_ifs at special
    · simp [dot, dots] at special
    · simp at special
  · intro p name entry holds
    rw [Walk.entries] at entry
    split_ifs at entry
    · exact holds.join (.inr (named.list (List.mem_filter.1 entry).1))
    · simp at entry

end Glob

end ComponentLint
