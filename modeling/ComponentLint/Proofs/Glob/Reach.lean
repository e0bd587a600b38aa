import ComponentLint.Proofs.Glob.Spelling

/-! What a walk does not miss. A segment of a pattern that matches its own text leads into the directory of that name,
and `**` with `*` behind it leads to every file below. -/
namespace ComponentLint

theorem Text.flatMap_splitOn {c : Char} (t : Text) : (splitOn c t).flatMap (c :: ·) = c :: t := by
  induction t with
  | nil => rfl
  | cons d t ih =>
    cases rest : splitOn c t with
    | nil => exact absurd rest (splitOn_ne_nil t)
    | cons piece pieces =>
      rw [rest] at ih
      by_cases same : d = c
      · simp [splitOn, rest, same, ← ih]
      · have behind : piece ++ pieces.flatMap (c :: ·) = t := by simpa using ih
        simp [splitOn, rest, same, behind]

/-- Behind a path one name after the other. -/
def Path.along (p : Path) (names : List Text) : Path := names.foldl (fun p s => p.join ⟨s⟩) p

theorem Path.along_append (p : Path) (a b : List Text) : p.along (a ++ b) = (p.along a).along b := List.foldl_append

theorem Path.IsPlain.along {p : Path} (h : p.IsPlain) {names : List Text}
    (pieces : ∀ s ∈ names, s = [] ∨ Path.IsName s) : (p.along names).IsPlain := by
  induction names generalizing p with
  | nil => exact h
  | cons s names ih => exact ih (h.join (pieces s (by simp))) fun u member => pieces u (by simp [member])

namespace Glob

variable {o : Options} {s : Text}

/-! ## Segments that match themselves -/

/-- A pattern finds the entry of a directory that has this name. -/
def Pattern.StandsFor (o : Options) (pattern : Pattern) (name : Text) : Prop :=
  pattern.isRecursive = false ∧ (pattern.plain? = some name ∨ pattern.plain? = none ∧ Path.IsName name ∧
    pattern.covers o name = true ∧ (o.leadingDot = true → name.head? ≠ some '.'))

/-- A segment that, read as a pattern, finds the entry of a directory that has it for its name. -/
def MatchesItself (o : Options) (s : Text) : Prop := ∃ pattern, Pattern.ofText s = .ok pattern ∧ pattern.StandsFor o s

/-- How a character is read where it opens no class and is no star. -/
def literal (c : Char) : Token := if c = '?' then .any else .char c

theorem read_char {c : Char} {p : Pattern} {position fuel : Nat} {previous : Option Char} {rest : Text}
    (question : c ≠ '?') (star : c ≠ '*') (bracket : c ≠ '[') :
    Pattern.read p position previous (fuel + 1) (c :: rest) =
      Pattern.read ⟨p.tokens ++ [.char c], p.isRecursive⟩ (position + 1) (some c) fuel rest := by
  rw [Pattern.read] <;> simp_all

theorem read_literal {p : Pattern} {position fuel : Nat} {previous : Option Char} (star : '*' ∉ s) (bracket : '[' ∉ s)
    (enough : s.length ≤ fuel) :
    Pattern.read p position previous fuel s = .ok ⟨p.tokens ++ s.map literal, p.isRecursive⟩ := by
  induction s generalizing p position previous fuel with
  | nil => cases fuel <;> simp [Pattern.read]
  | cons c s ih =>
    obtain ⟨fuel, rfl⟩ : ∃ k, fuel = k + 1 := ⟨fuel - 1, by simp at enough; omega⟩
    obtain ⟨notStar, noStar⟩ : '*' ≠ c ∧ '*' ∉ s := by simpa using star
    obtain ⟨notBracket, noBracket⟩ : '[' ≠ c ∧ '[' ∉ s := by simpa using bracket
    have less : s.length ≤ fuel := by simpa using enough
    by_cases question : c = '?'
    · subst question
      rw [Pattern.read, ih noStar noBracket less]
      simp [literal]
    · rw [read_char question notStar.symm notBracket.symm, ih noStar noBracket less]
      simp [literal, question]

theorem matchFrom_literal (fresh : Bool) : matchFrom o (s.map literal) fresh s = true := by
  induction s generalizing fresh with
  | nil => rfl
  | cons c s ih =>
    by_cases question : c = '?'
    · simp [literal, question, matchFrom, Token.accepts, ih]
    · simp [literal, question, matchFrom, Token.accepts, ih]

theorem plain?_literal {recursive : Bool} :
    Pattern.plain? ⟨s.map literal, recursive⟩ = if '?' ∈ s then none else some s := by
  rw [Pattern.plain?]
  dsimp only
  induction s with
  | nil => rfl
  | cons c s ih =>
    rw [List.map_cons, List.mapM_cons, ih]
    by_cases question : c = '?'
    · simp [literal, question]
    · by_cases later : '?' ∈ s <;> simp [literal, question, later, Ne.symm question]

/-- A segment without stars and brackets matches itself, unless it has a question mark and is the name of something
hidden. -/
theorem matchesItself_of_plain (pure : '/' ∉ s) (star : '*' ∉ s) (bracket : '[' ∉ s)
    (shown : o.leadingDot = true → '?' ∈ s → s.head? ≠ some '.') : MatchesItself o s := by
  refine ⟨⟨s.map literal, false⟩, read_literal star bracket (Nat.le_refl _), rfl, ?_⟩
  by_cases question : '?' ∈ s
  · have isName : Path.IsName s := by
      refine ⟨?_, ?_, ?_, pure⟩ <;>
        · rintro rfl
          simp at question
    refine .inr ⟨by rw [plain?_literal, if_pos question], isName, matchFrom_literal true, fun dots => ?_⟩
    exact shown dots question
  · exact .inl (by rw [plain?_literal, if_neg question])

/-- The token stands for one character. -/
def IsSingle (t : Token) : Prop := t ≠ .sequence ∧ t ≠ .recursive

/-- A class stands for one character, and is longer than that. -/
theorem bracketClass?_single {inside rest : Text} {token : Token} (h : bracketClass? inside = some (token, rest)) :
    IsSingle token ∧ rest.length < inside.length := by
  have shorter {inside members rest : Text} (cut : bracketed? inside = some (members, rest)) :
      rest.length < inside.length := by
    cases inside with
    | nil => simp [bracketed?] at cut
    | cons first inside =>
      rw [bracketed?] at cut
      split_ifs at cut
      obtain ⟨-, rfl⟩ := Prod.mk.inj (Option.some.inj cut)
      have kept := (List.dropWhile_sublist (l := inside) fun c => decide (c ≠ ']')).length_le
      simp only [List.length_drop, List.length_cons]
      omega
  rw [bracketClass?.eq_def] at h
  split at h
  · obtain ⟨⟨members, rest'⟩, cut, same⟩ := Option.map_eq_some_iff.1 h
    obtain ⟨rfl, rfl⟩ := Prod.mk.inj same
    exact ⟨by simp [IsSingle], Nat.lt_succ_of_lt (shorter cut)⟩
  · obtain ⟨⟨members, rest'⟩, cut, same⟩ := Option.map_eq_some_iff.1 h
    obtain ⟨rfl, rfl⟩ := Prod.mk.inj same
    exact ⟨by simp [IsSingle], shorter cut⟩

/-- From one pattern to another there are only tokens for one character, no more than a text is long; fewer, if there is
a bracket in it. -/
def AddsSingles (p r : Pattern) (s : Text) : Prop :=
  ∃ more, r.tokens = p.tokens ++ more ∧ (∀ t ∈ more, IsSingle t) ∧ more.length ≤ s.length ∧
    ('[' ∈ s → more.length < s.length)

/-- A token is read off the front of a text, of which a part may be left. -/
theorem AddsSingles.cons {p r : Pattern} {recursive : Bool} {token : Token} {t u : Text} {c : Char}
    (later : AddsSingles ⟨p.tokens ++ [token], recursive⟩ r t) (single : IsSingle token) (left : t.length ≤ u.length)
    (strict : '[' ∈ c :: u → '[' ∈ t ∨ t.length < u.length) : AddsSingles p r (c :: u) := by
  obtain ⟨more, tokens, singles, fits, fewer⟩ := later
  refine ⟨token :: more, by simp [tokens], List.forall_mem_cons.2 ⟨single, singles⟩, ?_, fun bracket => ?_⟩
  · simp only [List.length_cons]
    omega
  · simp only [List.length_cons]
    rcases strict bracket with inside | less
    · have short := fewer inside
      omega
    · omega

/-- Without stars each character, or several of a class, are read as a token for one character. -/
theorem read_singles {p r : Pattern} {position fuel : Nat} {previous : Option Char}
    (read : Pattern.read p position previous fuel s = .ok r) (enough : s.length ≤ fuel) (star : '*' ∉ s) :
    AddsSingles p r s := by
  fun_induction Pattern.read p position previous fuel s with
  | case1 =>
    obtain rfl := Except.ok.inj read
    obtain rfl := List.eq_nil_of_length_eq_zero (Nat.le_zero.1 enough)
    exact ⟨[], by simp⟩
  | case2 =>
    obtain rfl := Except.ok.inj read
    exact ⟨[], by simp⟩
  | case3 p position previous fuel t ih =>
    have later := ih read (by simpa using enough) fun inside => star (List.mem_cons_of_mem _ inside)
    exact later.cons (by simp [IsSingle]) (Nat.le_refl _) (by simp)
  | case4 => simp at star
  | case5 => simp at star
  | case6 => simp at star
  | case7 => simp at star
  | case8 => simp at star
  | case9 => simp at star
  | case10 => simp at read
  | case11 p position previous fuel inside token rest bracket ih =>
    obtain ⟨single, shorter⟩ := bracketClass?_single bracket
    have among := (Pattern.bracketClass?_cases bracket).2
    have later := ih read (by simp at enough; omega) fun inRest => star (List.mem_cons_of_mem _ (among.subset inRest))
    exact later.cons single (Nat.le_of_lt shorter) fun _ => .inr shorter
  | case12 p position previous fuel c t question star' bracket ih =>
    have later := ih read (by simpa using enough) fun inside => star (List.mem_cons_of_mem _ inside)
    refine later.cons (by simp [IsSingle]) (Nat.le_refl _) fun inside => .inl ?_
    exact (List.mem_cons.1 inside).resolve_left fun same => bracket same.symm

theorem length_of_matchFrom {tokens : List Token} {fresh : Bool} (singles : ∀ t ∈ tokens, IsSingle t)
    (covers : matchFrom o tokens fresh s = true) : tokens.length = s.length := by
  induction tokens generalizing fresh s with
  | nil =>
    obtain rfl : s = [] := by simpa [matchFrom] using covers
    rfl
  | cons token tokens ih =>
    obtain ⟨c, t, rfl, rest⟩ : ∃ c t, s = c :: t ∧ matchFrom o tokens (c = '/') t = true := by
      have single := singles token (by simp)
      cases s with
      | nil => cases token <;> simp [matchFrom, IsSingle] at covers single
      | cons c t => cases token <;> simp_all [matchFrom, IsSingle]
    simp [ih (fun u member => singles u (List.mem_cons_of_mem _ member)) rest]

/-- A segment without stars matches itself exactly if it has no bracket, and no question mark if it is the name of
something hidden. -/
theorem matchesItself_iff (pure : '/' ∉ s) (star : '*' ∉ s) :
    MatchesItself o s ↔ '[' ∉ s ∧ (o.leadingDot = true → '?' ∈ s → s.head? ≠ some '.') := by
  constructor
  · rintro ⟨pattern, read, -, stands⟩
    obtain ⟨more, tokens, singles, -, fewer⟩ := read_singles read (Nat.le_refl _) star
    rw [List.nil_append] at tokens
    have same : more.length = s.length := by
      rcases stands with plain | ⟨-, -, covers, -⟩
      · rw [← tokens, Pattern.plain?_eq_some plain, List.length_map]
      · rw [Pattern.covers, tokens] at covers
        exact length_of_matchFrom singles covers
    have bracket : '[' ∉ s := fun inside => absurd same (Nat.ne_of_lt (fewer inside))
    refine ⟨bracket, fun dots question => ?_⟩
    obtain rfl := Except.ok.inj ((read_literal star bracket (Nat.le_refl _)).symm.trans read)
    rcases stands with plain | ⟨-, -, -, shown⟩
    · rw [List.nil_append, plain?_literal, if_pos question] at plain
      contradiction
    · exact shown dots
  · rintro ⟨bracket, shown⟩
    exact matchesItself_of_plain pure star bracket shown

/-! ## Reading the whole pattern -/

/-- A text that can be read behind any other, as far as wildcards go. -/
def Readable (t : Text) : Prop :=
  ∀ p position previous fuel, t.length ≤ fuel → ∃ r, Pattern.read p position previous fuel t = .ok r

theorem readable_everything : Readable "/**/*".toList := by
  intro p position previous fuel enough
  obtain ⟨fuel, rfl⟩ : ∃ k, fuel = k + 5 := ⟨fuel - 5, by simp at enough; omega⟩
  simp [Pattern.read]

theorem takeWhile_star {t : Text} : (t.takeWhile (· = '*')).length = 0 ↔ t.head? ≠ some '*' := by
  cases t with
  | nil => simp
  | cons c t => by_cases star : c = '*' <;> simp [star]

theorem dropWhile_star {t : Text} (alone : t.head? ≠ some '*') : t.dropWhile (· = '*') = t := by
  have whole := List.takeWhile_append_dropWhile (p := fun c => decide (c = '*')) (l := t)
  rwa [List.eq_nil_of_length_eq_zero (takeWhile_star.2 alone), List.nil_append] at whole

theorem read_star {t : Text} {p : Pattern} {position fuel : Nat} {previous : Option Char} (alone : t.head? ≠ some '*') :
    Pattern.read p position previous (fuel + 1) ('*' :: t) =
      Pattern.read ⟨p.tokens ++ [.sequence], p.isRecursive⟩ (position + 1) (some '*') fuel t := by
  rw [Pattern.read]
  simp [takeWhile_star.2 alone, dropWhile_star alone]

theorem bracketed?_append {inside members rest : Text} (h : bracketed? inside = some (members, rest)) (more : Text) :
    bracketed? (inside ++ more) = some (members, rest ++ more) := by
  cases inside with
  | nil => simp [bracketed?] at h
  | cons first inside =>
    rw [bracketed?] at h
    split_ifs at h with closed
    obtain ⟨rfl, rfl⟩ := Prod.mk.inj (Option.some.inj h)
    obtain ⟨front, back, rfl, open_⟩ := List.eq_append_cons_of_mem (List.contains_iff_mem.1 closed)
    have passed : ∀ c ∈ front, (decide (c ≠ ']')) = true := fun c member =>
      decide_eq_true fun same => open_ (same ▸ member)
    rw [List.cons_append, bracketed?, if_pos (by simp), List.append_assoc, List.takeWhile_append_of_pos passed,
      List.takeWhile_append_of_pos passed, List.dropWhile_append_of_pos passed, List.dropWhile_append_of_pos passed]
    simp

theorem bracketClass?_append {inside rest : Text} {token : Token} (h : bracketClass? inside = some (token, rest))
    (more : Text) : bracketClass? (inside ++ more) = some (token, rest ++ more) := by
  rw [bracketClass?.eq_def] at h
  split at h
  · obtain ⟨⟨members, rest'⟩, cut, same⟩ := Option.map_eq_some_iff.1 h
    obtain ⟨rfl, rfl⟩ := Prod.mk.inj same
    rw [List.cons_append, bracketClass?, bracketed?_append cut]
    rfl
  · rename_i other
    obtain ⟨⟨members, rest'⟩, cut, same⟩ := Option.map_eq_some_iff.1 h
    obtain ⟨rfl, rfl⟩ := Prod.mk.inj same
    cases inside with
    | nil => simp [bracketed?] at cut
    | cons c inside =>
      have first : c ≠ '!' := by
        rintro rfl
        exact other inside rfl
      rw [List.cons_append, bracketClass?, ← List.cons_append, bracketed?_append cut]
      · rfl
      · simp [first]

/-- A segment that can be read by itself, and is not recursive, can be read in front of a slash. -/
theorem Readable.behind {rest : Text} (onward : Readable ('/' :: rest)) {p r : Pattern} {position fuel : Nat}
    {previous : Option Char} (read : Pattern.read p position previous fuel s = .ok r) (enough : s.length ≤ fuel)
    (pure : '/' ∉ s) (single : r.isRecursive = false) (first : previous.all (· = '/') = true → p.tokens = []) :
    Readable (s ++ '/' :: rest) := by
  intro p' position' previous' fuel' enough'
  have step {c : Char} {t : Text} {n : Nat} (longer : (c :: t ++ '/' :: rest).length ≤ n) :
      ∃ k, n = k + 1 ∧ (t ++ '/' :: rest).length ≤ k := ⟨n - 1, by simp at longer ⊢; omega⟩
  fun_induction Pattern.read p position previous fuel s generalizing p' position' previous' fuel' with
  | case1 =>
    obtain rfl := List.eq_nil_of_length_eq_zero (Nat.le_zero.1 enough)
    exact onward p' position' previous' fuel' enough'
  | case2 => exact onward p' position' previous' fuel' enough'
  | case3 p position previous fuel t ih =>
    obtain ⟨k, rfl, less⟩ := step enough'
    rw [List.cons_append, Pattern.read]
    exact ih read (by simpa using enough) (fun slash => pure (by simp [slash])) (by simp) _ _ _ _ less
  | case4 p position previous fuel t more behind stop none_ ih =>
    obtain ⟨k, rfl, less⟩ := step enough'
    have alone : t.head? ≠ some '*' := takeWhile_star.1 none_
    have all : behind = t := dropWhile_star alone
    rw [List.cons_append, read_star (by cases t <;> simp_all)]
    rw [all] at ih read
    exact ih read (by simpa using enough) (fun slash => pure (by simp [slash])) (by simp) _ _ _ _ less
  | case5 p position previous fuel t more front one start ended =>
    obtain rfl := Except.ok.inj read
    simp [Pattern.addRecursive, first start] at single
  | case6 _ _ _ _ t more front stop one slash behind split ih =>
    have inside : '/' ∈ t := (List.dropWhile_sublist _).subset (show '/' ∈ front by rw [split]; simp)
    exact absurd (List.mem_cons_of_mem _ inside) pure
  | case7 => simp at read
  | case8 => simp at read
  | case9 => simp at read
  | case10 => simp at read
  | case11 _ _ _ _ inside token behind bracket ih =>
    obtain ⟨k, rfl, less⟩ := step enough'
    rw [List.cons_append, Pattern.read, bracketClass?_append bracket]
    have among := (Pattern.bracketClass?_cases bracket).2
    have shorter := among.length_le
    refine ih read (by simp at enough; omega) (fun slash => pure (by simp [among.subset slash])) (by simp) _ _ _ _ ?_
    simp at less ⊢
    omega
  | case12 _ _ _ _ d t question star bracket ih =>
    obtain ⟨k, rfl, less⟩ := step enough'
    rw [List.cons_append, read_char question star bracket]
    have other : d ≠ '/' := fun same => pure (by simp [same])
    exact ih read (by simpa using enough) (fun slash => pure (by simp [slash])) (by simp [other]) _ _ _ _ less

theorem Readable.slash {t : Text} (onward : Readable t) : Readable ('/' :: t) := by
  intro p position previous fuel enough
  obtain ⟨fuel, rfl⟩ : ∃ k, fuel = k + 1 := ⟨fuel - 1, by simp at enough; omega⟩
  rw [read_char (by decide) (by decide) (by decide)]
  exact onward _ _ _ _ (by simpa using enough)

theorem readable_segments {segments : List Text} (pure : ∀ s ∈ segments, '/' ∉ s)
    (literal : ∀ s ∈ segments, MatchesItself o s) : Readable (segments.flatMap ('/' :: ·) ++ "/**/*".toList) := by
  induction segments with
  | nil => exact readable_everything
  | cons s segments ih =>
    obtain ⟨pattern, read, single, -⟩ := literal s (by simp)
    have later := ih (fun u member => pure u (by simp [member])) fun u member => literal u (by simp [member])
    obtain ⟨rest, split⟩ : ∃ rest, segments.flatMap ('/' :: ·) ++ "/**/*".toList = '/' :: rest := by
      cases segments with
      | nil => exact ⟨_, rfl⟩
      | cons u segments => exact ⟨_, rfl⟩
    rw [split] at later
    rw [List.flatMap_cons, List.append_assoc, split, List.cons_append]
    exact (later.behind read (Nat.le_refl _) (pure s (by simp)) single fun _ => rfl).slash

/-! ## The segments of a directory include -/

/-- The segments of an absolute path as a pattern are its pieces; a slash at its end adds none. -/
theorem splitOn_componentTexts {p : Path} (absolute : p.isAbsolute = true) : ∃ behind, p.chars = '/' :: behind ∧
    (Text.splitOn '/' behind = componentTexts p.chars ++ [[]] ∨
      Text.splitOn '/' behind = componentTexts p.chars ∧ behind ≠ [] ∧ behind.getLast? ≠ some '/') := by
  obtain ⟨chars⟩ := p
  cases chars with
  | nil => simp [Path.isAbsolute] at absolute
  | cons c behind =>
    obtain rfl : c = '/' := by simpa [Path.isAbsolute] using absolute
    refine ⟨behind, rfl, ?_⟩
    have segments : componentTexts ('/' :: behind) =
        if (Text.splitOn '/' behind).getLast? = some [] then (Text.splitOn '/' behind).dropLast
        else Text.splitOn '/' behind := by
      simp [componentTexts, Text.list_splitOn]
    dsimp only
    rw [segments]
    split_ifs with ends
    · obtain ⟨front, split⟩ := List.getLast?_eq_some_iff.1 ends
      exact .inl (by rw [split, List.dropLast_concat])
    · refine .inr ⟨rfl, ?_, fun slash => ends ?_⟩
      · rintro rfl
        exact ends rfl
      · obtain ⟨front, rfl⟩ := List.getLast?_eq_some_iff.1 slash
        rw [Text.splitOn_append_cons]
        exact List.getLast?_concat

/-- The pattern for everything below a directory has the segments of the directory, each behind a slash. -/
theorem join_everything {p : Path} (absolute : p.isAbsolute = true) : (p.join (.ofString "**/*")).chars =
    (componentTexts p.chars ++ ["**".toList, "*".toList]).flatMap ('/' :: ·) := by
  obtain ⟨behind, chars, pieces⟩ := splitOn_componentTexts absolute
  have spelled := Text.flatMap_splitOn (c := '/') behind
  generalize componentTexts p.chars = segments at pieces ⊢
  rw [← chars] at spelled
  rw [List.flatMap_append, Path.join, if_neg (by decide)]
  rcases pieces with pieces | ⟨pieces, some_, noSlash⟩
  · have front : segments.flatMap ('/' :: ·) ++ ['/'] = p.chars := by simpa [pieces] using spelled
    rw [if_pos (.inr (by rw [← front, List.getLast?_concat])), ← front, List.append_assoc]
    rfl
  · rw [pieces] at spelled
    have noSlash' : ¬(p.chars = [] ∨ p.chars.getLast? = some '/') := by
      rw [chars, List.getLast?_cons_of_ne_nil some_]
      simp [noSlash]
    rw [if_neg noSlash', ← spelled]
    rfl

theorem componentTexts_flatMap {segments : List Text} (some_ : segments ≠ []) (pure : ∀ s ∈ segments, '/' ∉ s)
    (last : segments.getLast? ≠ some []) : componentTexts (segments.flatMap ('/' :: ·)) = segments := by
  rw [← Path.slash_join some_, componentTexts]
  simp [Text.list_splitOn, Text.splitOn_join some_ pure, last]

/-! ## Following a pattern -/

namespace Walk

variable {w : Walk} {base : Path} {place q : Place}

theorem mem_entries {n : FileNode} (leads : w.tree.Leads base place) (directory : w.tree.node? place = some .directory)
    (there : w.tree.node? (place ++ [s]) = some n) (shown : w.options.leadingDot = true → s.head? ≠ some '.') :
    s ∈ w.entries base := by
  rw [entries, if_pos (leads.isDirectory directory), leads.list]
  refine List.mem_filter.2 ⟨FileTree.mem_children there, ?_⟩
  cases dots : w.options.leadingDot with
  | false => rfl
  | true => simp [shown dots]

/-- A walk follows segments that match themselves. By induction on the segments. -/
theorem mem_expand {patterns tail : List Pattern} {segments : List Text} {found : Path}
    (stands : List.Forall₂ (Pattern.StandsFor w.options) patterns segments) (pure : ∀ s ∈ segments, '/' ∉ s)
    (some_ : tail ≠ []) (leads : w.tree.Leads base place) (walked : w.tree.walk place segments = .ok q)
    (directory : w.tree.node? q = some .directory) (onward : found ∈ w.expand tail (base.along segments)) :
    found ∈ w.expand (patterns ++ tail) base := by
  induction stands generalizing base place with
  | nil => exact onward
  | @cons pattern s patterns segments here _ ih =>
    have top := FileTree.walk_directory walked directory
    obtain ⟨middle, first, rest⟩ := FileTree.walk_append_eq_ok (a := [s]).1 walked
    have below := FileTree.walk_directory rest directory
    have leads' := leads.join (pure s (by simp)) first
    have later : found ∈ w.expand (patterns ++ tail) (base.join ⟨s⟩) :=
      ih (fun u member => pure u (by simp [member])) leads' rest onward
    have more : patterns ++ tail ≠ [] := by simp [some_]
    rw [List.cons_append, expand.eq_def]
    dsimp only
    obtain ⟨single, plain | ⟨wild, isName, covers, shown⟩⟩ := here
    · simp only [plain, if_neg more, leads.isDirectory top, leads'.isThere below, if_true]
      split_ifs
      · exact later
      · exact later
    · obtain rfl : place ++ [s] = middle := Except.ok.inj ((FileTree.walk_name_eq_ok isName).1 first).2
      simp only [wild, single, if_neg more, Bool.false_eq_true, if_false]
      refine List.mem_append_right _ (List.mem_flatMap.2 ⟨s, mem_entries leads top below shown, ?_⟩)
      rw [enter, if_pos covers, if_neg (by simp [more])]
      exact later

/-- The pattern `*`. -/
def anyName : Pattern := ⟨[.sequence], false⟩

theorem take_name (shown : fresh = true → o.leadingDot = true → s.head? ≠ some '.') (pure : '/' ∉ s) (some_ : s ≠ []) :
    take o false (matchFrom o []) fresh s = true := by
  induction s generalizing fresh with
  | nil => contradiction
  | cons c s ih =>
    obtain ⟨other, later⟩ : '/' ≠ c ∧ '/' ∉ s := by simpa using pure
    have visible : (fresh && o.leadingDot && decide (c = '.')) = false := by
      simpa [Bool.and_assoc] using shown
    have slash : decide (c = '/') = false := decide_eq_false other.symm
    rw [take, if_neg (by simp [visible])]
    simp only [slash]
    cases s with
    | nil => simp [matchFrom]
    | cons d s =>
      have onward : take o false (matchFrom o []) false (d :: s) = true := ih (by simp) later (by simp)
      simp [onward]

theorem anyName_covers (isName : Path.IsName s) (shown : o.leadingDot = true → s.head? ≠ some '.') :
    anyName.covers o s = true := by
  rw [Pattern.covers, anyName, matchFrom, take_name (fun _ => shown) isName.2.2.2 isName.1, Bool.or_true]

/-- Going through all directories below one comes to each entry. By induction on the names that lead to it. -/
theorem mem_descend {follow : Path → List Path} {below : List Text} {n : FileNode} {levels : Nat}
    (all : w.directoriesOnly = false) (some_ : below ≠ []) (isNames : ∀ s ∈ below, Path.IsName s)
    (shown : w.options.leadingDot = true → ∀ s ∈ below, s.head? ≠ some '.') (leads : w.tree.Leads base place)
    (walked : w.tree.walk place below = .ok q) (there : w.tree.node? q = some n) (enough : below.length ≤ levels) :
    base.along below ∈ w.descend (w.enter follow anyName true) base levels := by
  induction below generalizing base place levels with
  | nil => contradiction
  | cons s below ih =>
    obtain ⟨levels, rfl⟩ : ∃ k, levels = k + 1 := ⟨levels - 1, by simp at enough; omega⟩
    have isName := isNames s (by simp)
    obtain ⟨directory, onward⟩ := (FileTree.walk_name_eq_ok isName).1 walked
    have first : w.tree.walk place [s] = .ok (place ++ [s]) := (FileTree.walk_name_eq_ok isName).2 ⟨directory, rfl⟩
    have leads' := leads.join isName.2.2.2 first
    have shown' (dots : w.options.leadingDot = true) := shown dots s (by simp)
    rw [descend]
    cases below with
    | nil =>
      obtain rfl : place ++ [s] = q := Except.ok.inj onward
      refine List.mem_flatMap.2 ⟨s, mem_entries leads directory there shown', List.mem_append_left _ ?_⟩
      rw [enter, if_pos (anyName_covers isName shown'), if_pos rfl, yields, all]
      exact List.mem_singleton.2 rfl
    | cons u below =>
      have lower := ((FileTree.walk_name_eq_ok (isNames u (by simp))).1 onward).1
      refine List.mem_flatMap.2 ⟨s, mem_entries leads directory lower shown', List.mem_append_right _ ?_⟩
      exact ih (by simp) (fun v member => isNames v (List.mem_cons_of_mem _ member))
        (fun dots v member => shown dots v (List.mem_cons_of_mem _ member)) leads' onward (by simpa using enough)

end Walk

/-! ## Everything below a directory -/

theorem read_segments {segments : List Text} (literal : ∀ s ∈ segments, MatchesItself o s) :
    ∃ patterns, segments.mapM Pattern.ofText = .ok patterns ∧ List.Forall₂ (Pattern.StandsFor o) patterns segments := by
  induction segments with
  | nil => exact ⟨[], rfl, .nil⟩
  | cons s segments ih =>
    obtain ⟨pattern, read, stands⟩ := literal s (by simp)
    obtain ⟨patterns, others, all⟩ := ih fun u member => literal u (by simp [member])
    exact ⟨pattern :: patterns, by rw [List.mapM_cons, read, others]; rfl, .cons stands all⟩

/-- The walk along the segments of a directory comes to it. -/
theorem walk_componentTexts {tree : FileTree} {p : Path} (absolute : p.isAbsolute = true)
    (directory : tree.isDirectory p = true) : tree.walk [] (componentTexts p.chars) = .ok p.place := by
  obtain ⟨walked, -⟩ := FileTree.isDirectory_iff.1 directory
  obtain ⟨behind, chars, pieces⟩ := splitOn_componentTexts absolute
  generalize componentTexts p.chars = segments at pieces ⊢
  have split : Text.splitOn '/' p.chars = [[]] ++ Text.splitOn '/' behind := by
    rw [chars]
    exact Text.splitOn_append_cons [] behind
  rw [split] at walked
  obtain ⟨top, start, onward⟩ := FileTree.walk_append_eq_ok.1 walked
  obtain rfl : [] = top := Except.ok.inj (FileTree.walk_cons_eq_ok.1 start).2
  rcases pieces with pieces | ⟨pieces, -, -⟩
  · rw [pieces] at onward
    obtain ⟨middle, along, stay⟩ := FileTree.walk_append_eq_ok.1 onward
    obtain rfl : middle = p.place := Except.ok.inj (FileTree.walk_cons_eq_ok.1 stay).2
    exact along
  · rwa [pieces] at onward

theorem leads_along {tree : FileTree} {p : Path} {place q : Place} {segments : List Text} (leads : tree.Leads p place)
    (pure : ∀ s ∈ segments, '/' ∉ s) (walked : tree.walk place segments = .ok q) : tree.Leads (p.along segments) q := by
  induction segments generalizing p place with
  | nil =>
    obtain rfl : place = q := Except.ok.inj walked
    exact leads
  | cons s segments ih =>
    obtain ⟨middle, first, rest⟩ := FileTree.walk_append_eq_ok (a := [s]).1 walked
    exact ih (leads.join (pure s (by simp)) first) (fun u member => pure u (by simp [member])) rest

theorem leads_root {tree : FileTree} (root : tree.node? [] = some .directory) : tree.Leads ⟨['/']⟩ [] := by
  refine ⟨rfl, ?_⟩
  have split : Text.splitOn '/' ['/'] = [[], []] := rfl
  simp [split, FileTree.walk, root]

theorem expand_everything {w : Walk} {base : Path} : w.expand [⟨[.recursive], true⟩, Walk.anyName] base =
    w.descend (w.enter (w.expand []) Walk.anyName true) base (w.tree.depth + 1) := by
  rw [Walk.expand.eq_def]
  rfl

/-- If all segments of a directory match themselves, the pattern for everything below it can be read, and finds each
file below that is not behind a hidden name. -/
theorem paths_everything {tree : FileTree} {p : Path} (absolute : p.isAbsolute = true)
    (directory : tree.isDirectory p = true) (literal : ∀ s ∈ componentTexts p.chars, MatchesItself o s) :
    ∃ found, paths tree o (p.join (.ofString "**/*")).chars = .ok found ∧ ∀ below c,
      tree.walk p.place below = .ok (p.place ++ below) → tree.node? (p.place ++ below) = some (.file c) →
        (∀ s ∈ below, Path.IsName s) → (o.leadingDot = true → ∀ s ∈ below, s.head? ≠ some '.') →
          (⟨['/']⟩ : Path).along (componentTexts p.chars ++ below) ∈ found := by
  have pure : ∀ s ∈ componentTexts p.chars, '/' ∉ s := fun s => slash_not_mem_componentTexts
  have walked := walk_componentTexts absolute directory
  have here := (FileTree.isDirectory_iff.1 directory).2
  have spelled := join_everything absolute
  generalize componentTexts p.chars = segments at *
  obtain ⟨patterns, read, stands⟩ := read_segments literal
  generalize (p.join (.ofString "**/*")).chars = whole at *
  have shape : whole = segments.flatMap ('/' :: ·) ++ "/**/*".toList := by
    rw [spelled, List.flatMap_append]
    rfl
  have pieces : componentTexts whole = segments ++ ["**".toList, "*".toList] := by
    rw [spelled]
    refine componentTexts_flatMap (by simp) (fun s member => ?_) (by simp)
    rcases List.mem_append.1 member with early | late
    · exact pure s early
    · rcases List.mem_pair.1 late with rfl | rfl <;> decide
  obtain ⟨r, readable⟩ := readable_segments pure literal ⟨[], false⟩ 0 none _ (Nat.le_refl _)
  have root := leads_root (FileTree.walk_directory walked here)
  have everything : (segments ++ ["**".toList, "*".toList]).mapM Pattern.ofText =
      .ok (patterns ++ [⟨[.recursive], true⟩, Walk.anyName]) := by
    rw [List.mapM_append, read]
    rfl
  have last : whole.getLast? = some '*' := by
    rw [shape]
    exact List.getLast?_append_of_ne_nil _ (by simp)
  refine ⟨(⟨tree, o, false⟩ : Walk).expand (patterns ++ [⟨[.recursive], true⟩, Walk.anyName]) ⟨['/']⟩, ?_, ?_⟩
  · rw [← shape] at readable
    refine bind_eq_ok_iff.2 ⟨r, readable, bind_eq_ok_iff.2 ⟨_, by rw [pieces, everything], ?_⟩⟩
    rw [last]
    rfl
  · intro below c onward file isNames shown
    have some_ : below ≠ [] := by
      rintro rfl
      rw [List.append_nil, here] at file
      simp at file
    have bound := FileTree.length_le_depth file
    rw [List.length_append] at bound
    refine Walk.mem_expand stands pure (by simp) root walked here ?_
    rw [expand_everything, Path.along_append]
    exact Walk.mem_descend rfl some_ isNames shown (leads_along root pure walked) onward file (by simp; omega)

end Glob

end ComponentLint
