import ComponentLint.Lint.UnusedImports
import ComponentLint.Proofs.Lint.Splicing
import ComponentLint.Proofs.Text.Split
import ComponentLint.Text.Blank
import Mathlib.Data.List.TakeWhile

/-! What the fix of one import declaration replaces. With nothing left it is the declaration, and the line break behind it
if only spaces and tabs are before that; otherwise it is a part of the declaration, whatever braces its comments have.
The names that are left are written as they were, the named ones behind the others. -/
namespace ComponentLint.UnusedImports

open TypeScript

/-! ## How a declaration stands in its text -/

/-- A declaration begins with a character that is no white space. Its bindings stand in it one behind the other, each with
its local name inside, and the named ones between braces. -/
structure LaidOut (source : Text) (d : ImportDeclaration) : Prop where
  begins : ∃ piece ∈ source.slice? d.span, piece ≠ [] ∧ piece.head?.any Text.isBlank = false
  inside : ∀ b ∈ d.bindings, d.span.start ≤ b.span.start ∧ b.span.stop ≤ d.span.stop ∧
    ∃ piece ∈ source.slice? b.span, piece ≠ []
  ordered : d.bindings.Pairwise fun a b => a.span.stop ≤ b.span.start
  names : ∀ b ∈ d.bindings, b.span.start ≤ b.localSpan.start ∧ b.localSpan.start < b.localSpan.stop ∧
    b.localSpan.stop ≤ b.span.stop
  braces : ∀ b ∈ d.bindings, isNamed b = true →
    '\x7b' ∈ source.slice ⟨d.span.start, b.span.start⟩ ∧ '\x7d' ∈ source.slice ⟨b.span.stop, d.span.stop⟩

instance (source : Text) (d : ImportDeclaration) : Decidable (LaidOut source d) :=
  decidable_of_iff
    ((∃ piece ∈ source.slice? d.span, piece ≠ [] ∧ piece.head?.any Text.isBlank = false) ∧
      (∀ b ∈ d.bindings, d.span.start ≤ b.span.start ∧ b.span.stop ≤ d.span.stop ∧
        ∃ piece ∈ source.slice? b.span, piece ≠ []) ∧
      (d.bindings.Pairwise fun a b => a.span.stop ≤ b.span.start) ∧
      (∀ b ∈ d.bindings, b.span.start ≤ b.localSpan.start ∧ b.localSpan.start < b.localSpan.stop ∧
        b.localSpan.stop ≤ b.span.stop) ∧
      ∀ b ∈ d.bindings, isNamed b = true →
        '\x7b' ∈ source.slice ⟨d.span.start, b.span.start⟩ ∧ '\x7d' ∈ source.slice ⟨b.span.stop, d.span.stop⟩)
    ⟨fun ⟨begins, inside, ordered, names, braces⟩ => ⟨begins, inside, ordered, names, braces⟩,
      fun laid => ⟨laid.begins, laid.inside, laid.ordered, laid.names, laid.braces⟩⟩

variable {source : Text} {d : ImportDeclaration}

/-- A piece that is not empty takes room. -/
theorem span_of_slice? {piece : Text} {s : Span} (h : source.slice? s = some piece) :
    s.stop = s.start + piece.byteSize := by
  obtain ⟨before, after, -, start, stop⟩ := Text.slice?_eq_some_iff.1 h
  rw [← stop, Text.byteSize_append, start]

theorem LaidOut.span_pos (laid : LaidOut source d) : d.span.start < d.span.stop := by
  obtain ⟨piece, cut, some_, -⟩ := laid.begins
  have room := span_of_slice? cut
  have positive : Text.byteSize piece ≠ 0 := fun empty => some_ (Text.byteSize_eq_zero_iff.1 empty)
  omega

theorem LaidOut.binding_pos (laid : LaidOut source d) {b : ImportBinding} (member : b ∈ d.bindings) :
    b.span.start < b.span.stop := by
  obtain ⟨-, -, piece, cut, some_⟩ := laid.inside b member
  have room := span_of_slice? cut
  have positive : Text.byteSize piece ≠ 0 := fun empty => some_ (Text.byteSize_eq_zero_iff.1 empty)
  omega

/-! ## The part between the names -/

/-- The last of a character in front of an offset is not in front of another one of it. -/
theorem lastOffset?_behind {c : Char} {start stop : Nat} (member : c ∈ source.slice ⟨start, stop⟩) :
    ∃ n, (source.slice ⟨0, stop⟩).lastOffset? c = some n ∧ start ≤ n ∧ n ≤ stop ∧ source.isBoundary n = true := by
  obtain ⟨piece, cut, inside⟩ := Text.slice?_of_mem member
  obtain ⟨before, after, rfl, rfl, stops⟩ := Text.slice?_eq_some_iff.1 cut
  dsimp only at stops
  obtain ⟨late, early, split, absent⟩ := List.eq_append_cons_of_mem (List.mem_reverse.2 inside)
  have parts : piece = early.reverse ++ c :: late.reverse := by
    rw [← List.reverse_reverse piece, split]
    simp
  have front : Text.slice (before ++ (piece ++ after)) ⟨0, stop⟩ = (before ++ early.reverse) ++ c :: late.reverse := by
    have whole : Text.slice? (before ++ (piece ++ after)) ⟨0, stop⟩ = some (before ++ piece) :=
      Text.slice?_eq_some_iff.2 ⟨[], after, by simp, rfl, stops⟩
    rw [Text.slice, whole, parts]
    simp
  have found : Text.lastOffset? c ((before ++ early.reverse) ++ c :: late.reverse) =
      some (Text.byteSize (before ++ early.reverse)) := Text.lastOffset?_append (by simpa using absent)
  have boundary : Text.splitAt? (Text.byteSize (before ++ early.reverse)) (before ++ (piece ++ after)) =
      some (before ++ early.reverse, c :: late.reverse ++ after) :=
    Text.splitAt?_eq_some_iff.2 ⟨by simp [parts], rfl⟩
  refine ⟨_, by rw [front, found], ?_, ?_, by rw [Text.isBoundary, boundary]; rfl⟩
  · rw [Text.byteSize_append]
    omega
  · rw [← stops, parts]
    simp only [Text.byteSize_append]
    omega

/-- The first of a character behind an offset is not behind another one of it. -/
theorem offsetBehind?_before {c : Char} {start stop : Nat} (member : c ∈ source.slice ⟨start, stop⟩) :
    ∃ n, (source.slice ⟨start, source.byteSize⟩).offsetBehind? c = some n ∧ start + n ≤ stop ∧
      source.isBoundary (start + n) = true := by
  obtain ⟨piece, cut, inside⟩ := Text.slice?_of_mem member
  obtain ⟨before, after, rfl, rfl, stops⟩ := Text.slice?_eq_some_iff.1 cut
  dsimp only at stops
  obtain ⟨early, late, rfl, absent⟩ := List.eq_append_cons_of_mem inside
  have behind : Text.slice (before ++ (early ++ c :: late ++ after)) ⟨Text.byteSize before,
      Text.byteSize (before ++ (early ++ c :: late ++ after))⟩ = early ++ c :: (late ++ after) := by
    have whole : Text.slice? (before ++ (early ++ c :: late ++ after)) ⟨Text.byteSize before,
        Text.byteSize (before ++ (early ++ c :: late ++ after))⟩ = some (early ++ c :: (late ++ after)) :=
      Text.slice?_eq_some_iff.2 ⟨before, [], by simp, rfl, by simp⟩
    rw [Text.slice, whole]
    rfl
  have boundary : Text.splitAt? (Text.byteSize before + (Text.byteSize early + c.utf8Size))
      (before ++ (early ++ c :: late ++ after)) = some (before ++ (early ++ [c]), late ++ after) :=
    Text.splitAt?_eq_some_iff.2 ⟨by simp, by simp⟩
  refine ⟨_, by rw [behind, Text.offsetBehind?_append absent], ?_, by rw [Text.isBoundary, boundary]; rfl⟩
  rw [← stops]
  simp only [Text.byteSize_append, Text.byteSize_cons]
  omega

theorem LaidOut.clauseStart (laid : LaidOut source d) {first : ImportBinding} (member : first ∈ d.bindings) :
    d.span.start ≤ clauseStart source first ∧ clauseStart source first ≤ first.span.start ∧
      source.isBoundary (clauseStart source first) = true := by
  obtain ⟨start, -, piece, cut, -⟩ := laid.inside first member
  rw [UnusedImports.clauseStart]
  by_cases named : isNamed first = true
  · obtain ⟨n, found, low, high, boundary⟩ := lastOffset?_behind (laid.braces first member named).1
    simp only [named, if_true, found, Option.getD_some]
    exact ⟨low, high, boundary⟩
  · simp only [named, Bool.false_eq_true, if_false]
    exact ⟨start, Nat.le_refl _, (Text.isBoundary_of_slice? cut).1⟩

theorem LaidOut.clauseStop (laid : LaidOut source d) {last : ImportBinding} (member : last ∈ d.bindings) :
    last.span.stop ≤ clauseStop source last ∧ clauseStop source last ≤ d.span.stop ∧
      source.isBoundary (clauseStop source last) = true := by
  obtain ⟨-, stop, piece, cut, -⟩ := laid.inside last member
  rw [UnusedImports.clauseStop]
  by_cases named : isNamed last = true
  · obtain ⟨n, found, high, boundary⟩ := offsetBehind?_before (laid.braces last member named).2
    simp only [named, if_true, found, Option.getD_some]
    exact ⟨by omega, high, boundary⟩
  · simp only [named, Bool.false_eq_true, if_false]
    exact ⟨Nat.le_refl _, stop, (Text.isBoundary_of_slice? cut).2⟩

/-! ## The rest of the line -/

/-- The rest of a line that goes with a declaration: nothing, or spaces and tabs and the line break behind them. -/
inductive IsLineRest : Text → Prop where
  | none : IsLineRest []
  | feed {blanks : Text} (plain : ∀ c ∈ blanks, c = ' ' ∨ c = '\t') : IsLineRest (blanks ++ ['\n'])
  | return_ {blanks : Text} (plain : ∀ c ∈ blanks, c = ' ' ∨ c = '\t') : IsLineRest (blanks ++ ['\r', '\n'])

theorem IsLineRest.blank {gap : Text} (h : IsLineRest gap) {c : Char} (member : c ∈ gap) : Text.isBlank c = true := by
  have inBlanks {blanks : Text} (plain : ∀ c ∈ blanks, c = ' ' ∨ c = '\t') (inside : c ∈ blanks) :
      Text.isBlank c = true := by
    rcases plain c inside with rfl | rfl <;> decide
  cases h with
  | none => contradiction
  | feed plain =>
    rcases List.mem_append.1 member with before | last
    · exact inBlanks plain before
    · obtain rfl := List.mem_singleton.1 last
      decide
  | return_ plain =>
    rcases List.mem_append.1 member with before | last
    · exact inBlanks plain before
    · simp only [List.mem_cons, List.not_mem_nil, or_false] at last
      rcases last with rfl | rfl <;> decide

theorem lineRest_eq (after : Text) :
    ∃ gap rest, after = gap ++ rest ∧ lineRest after = Text.byteSize gap ∧ IsLineRest gap := by
  let isPlain : Char → Bool := fun c => c = ' ' || c = '\t'
  obtain ⟨blanks, behind, split, stops, plain⟩ : ∃ blanks behind, after = blanks ++ behind ∧
      after.dropWhile isPlain = behind ∧ ∀ c ∈ blanks, c = ' ' ∨ c = '\t' :=
    ⟨after.takeWhile isPlain, _, List.takeWhile_append_dropWhile.symm, rfl, fun c member => by
      simpa [isPlain] using List.mem_takeWhile_imp member⟩
  have size : Text.byteSize after - Text.byteSize behind = Text.byteSize blanks := by
    rw [split, Text.byteSize_append]
    omega
  have value : lineRest after =
      if Text.startsWith behind ['\r', '\n'] then Text.byteSize blanks + 2
      else if Text.startsWith behind ['\n'] then Text.byteSize blanks + 1 else 0 := by
    rw [← size, ← stops]
    rfl
  rw [value]
  by_cases returns : Text.startsWith behind ['\r', '\n'] = true
  · obtain ⟨rest, cut⟩ := Option.isSome_iff_exists.1 returns
    obtain rfl := Text.after?_eq_some_iff.1 cut
    refine ⟨blanks ++ ['\r', '\n'], rest, by simp [split], ?_, .return_ plain⟩
    rw [if_pos returns, Text.byteSize_append]
    rfl
  · by_cases feeds : Text.startsWith behind ['\n'] = true
    · obtain ⟨rest, cut⟩ := Option.isSome_iff_exists.1 feeds
      obtain rfl := Text.after?_eq_some_iff.1 cut
      refine ⟨blanks ++ ['\n'], rest, by simp [split], ?_, .feed plain⟩
      rw [if_neg returns, if_pos feeds, Text.byteSize_append]
      rfl
    · refine ⟨[], after, rfl, ?_, .none⟩
      rw [if_neg returns, if_neg feeds]
      rfl

/-! ## The names that are left -/

/-- Pieces that stand in a text one behind the other, with nothing around them but commas, spaces and braces. -/
inductive Listed : List Text → Text → Prop where
  | done {gap : Text} (marks : ∀ c ∈ gap, c ∈ [',', ' ', '\x7b', '\x7d']) : Listed [] gap
  | more {pieces : List Text} {gap rest : Text} (marks : ∀ c ∈ gap, c ∈ [',', ' ', '\x7b', '\x7d']) (piece : Text) :
      Listed pieces rest → Listed (piece :: pieces) (gap ++ (piece ++ rest))

variable {pieces others : List Text} {listed behind : Text}

theorem Listed.of_marks {gap : Text} (marks : ∀ c ∈ gap, c ∈ [',', ' ', '\x7b', '\x7d']) (h : Listed pieces listed) :
    Listed pieces (gap ++ listed) := by
  cases h with
  | done marks' =>
    exact .done fun c member => (List.mem_append.1 member).elim (marks c) (marks' c)
  | more marks' piece rest =>
    rw [← List.append_assoc]
    exact .more (fun c member => (List.mem_append.1 member).elim (marks c) (marks' c)) piece rest

theorem Listed.append (h : Listed pieces listed) (h' : Listed others behind) :
    Listed (pieces ++ others) (listed ++ behind) := by
  induction h with
  | done marks => exact h'.of_marks marks
  | more marks piece _ ih =>
    rw [List.append_assoc, List.append_assoc]
    exact .more marks piece ih

theorem Listed.single (piece : Text) : Listed [piece] piece := by
  have listed : Listed [piece] ([] ++ (piece ++ [])) := .more (by simp) piece (.done (by simp))
  simpa using listed

/-- Pieces with commas between them, the last of them itself a list of pieces. -/
theorem Listed.join (outside : List Text) (h : Listed pieces listed) :
    Listed (outside ++ pieces) (Text.join ", ".toList (outside ++ [listed])) := by
  induction outside with
  | nil => simpa [Text.join] using h
  | cons piece outside ih =>
    rw [List.cons_append, List.cons_append, Text.join_concat]
    exact (Listed.single piece).append (ih.of_marks (by simp))

theorem listed_join (pieces : List Text) : Listed pieces (Text.join ", ".toList pieces) := by
  rcases List.eq_nil_or_concat' pieces with rfl | ⟨front, last, rfl⟩
  · exact .done (by simp [Text.join])
  · exact (Listed.single last).join front

/-- The kept names are written as they were, and those that are not between braces come first. -/
theorem listed_clause (source : Text) (kept : List ImportBinding) :
    Listed ((kept.filter (fun b => !isNamed b) ++ kept.filter isNamed).map fun b => source.slice b.span)
      (clause source kept) := by
  rw [List.map_append]
  generalize plain : ((kept.filter fun b => !isNamed b).map fun b => source.slice b.span) = outside
  generalize named : ((kept.filter isNamed).map fun b => source.slice b.span) = inside
  have value : clause source kept = Text.join ", ".toList (outside ++
      if inside = [] then [] else ["\x7b ".toList ++ Text.join ", ".toList inside ++ " \x7d".toList]) := by
    rw [← plain, ← named]
    rfl
  rw [value]
  by_cases none_ : inside = []
  · rw [if_pos none_, none_, List.append_nil]
    exact listed_join outside
  · have closed : Listed (inside ++ []) (Text.join ", ".toList inside ++ " \x7d".toList) :=
      (listed_join inside).append (.done (by simp))
    have braced : Listed (inside ++ []) ("\x7b ".toList ++ (Text.join ", ".toList inside ++ " \x7d".toList)) :=
      closed.of_marks (by simp)
    rw [if_neg none_, List.append_assoc]
    simpa using braced.join outside

end ComponentLint.UnusedImports
