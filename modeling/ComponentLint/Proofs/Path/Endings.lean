import ComponentLint.Proofs.Path.Joining
import Mathlib.Data.List.Basic

/-! What a path ends in. A path with a file name is spelled with this name and nothing that means anything behind it,
and the extension is what is behind the last dot of the name. -/
namespace ComponentLint.Path

variable {p : Path} {name extension : Text}

theorem steps_append (a b : Text) : (⟨a ++ '/' :: b⟩ : Path).steps = (⟨a⟩ : Path).steps ++ (⟨b⟩ : Path).steps := by
  simp only [steps, Text.splitOn_append_cons, List.filterMap_append]

theorem steps_name (isName : IsName name) : (⟨name⟩ : Path).steps = [.name name] := by
  rw [steps, Text.splitOn_of_absent isName.2.2.2, List.filterMap_cons_some (Component.ofSegment?_name isName),
    List.filterMap_nil]

theorem fileName?_eq_some_iff : p.fileName? = some name ↔ p.steps.getLast? = some (.name name) := by
  have last : p.fileName? = some name ↔ p.components.getLast? = some (.name name) := by
    rw [fileName?]
    split
    · rename_i s isLast
      rw [isLast]
      simp
    · rename_i other
      exact ⟨fun found => by contradiction, fun found => absurd found (other name)⟩
  obtain ⟨steps, -, steps_, shape⟩ := components_cases p
  rw [last, Path.steps, ← steps_]
  rcases shape with ⟨-, shape⟩ | ⟨-, shape | shape⟩
  · rw [shape]
    cases steps <;> simp
  · rw [shape]
    cases steps <;> simp
  · rw [shape]

/-! ## Tails -/

/-- The end of a path in which there are no further steps: slashes, each with a dot behind it or without. -/
inductive Silent : Text → Prop where
  | nil : Silent []
  | slash {tail : Text} (h : Silent tail) : Silent (tail ++ ['/'])
  | dot {tail : Text} (h : Silent tail) : Silent (tail ++ ['/', '.'])

theorem steps_silent {tail : Text} (silent : Silent tail) (front : Text) :
    (⟨front ++ tail⟩ : Path).steps = (⟨front⟩ : Path).steps := by
  induction silent with
  | nil => rw [List.append_nil]
  | slash _ ih =>
    rw [← List.append_assoc, steps_append, ih]
    exact List.append_nil _
  | dot _ ih =>
    rw [← List.append_assoc, steps_append, ih]
    exact List.append_nil _

theorem trimTail_silent {tail : Text} (silent : Silent tail) (front : Text) :
    trimTail (tail.reverse ++ front) = trimTail front := by
  induction silent with
  | nil => rfl
  | slash _ ih => simpa [trimTail] using ih
  | dot _ ih => simpa [trimTail] using ih

/-- What is dropped from the end of a path is silent. -/
theorem trimTail_dropped (reversed : Text) :
    ∃ tail, Silent tail ∧ reversed.reverse = (trimTail reversed).reverse ++ tail := by
  fun_induction trimTail reversed with
  | case1 rest ih =>
    obtain ⟨tail, silent, split⟩ := ih
    exact ⟨_, .slash silent, by rw [List.reverse_cons, split, List.append_assoc]⟩
  | case2 => exact ⟨[], .nil, rfl⟩
  | case3 rest ih =>
    obtain ⟨tail, silent, split⟩ := ih
    exact ⟨_, .dot silent, by simp [split]⟩
  | case4 => exact ⟨[], .nil, by rw [List.append_nil]⟩

/-! ## File names -/

/-- A path that is spelled with a name, with a slash or nothing in front of it and a silent tail behind it. -/
structure EndsIn (p : Path) (front name tail : Text) : Prop where
  chars : p.chars = front ++ name ++ tail
  bounded : front = [] ∨ front.getLast? = some '/'
  isName : IsName name
  silent : Silent tail

theorem EndsIn.fileName? {front tail : Text} (h : p.EndsIn front name tail) : p.fileName? = some name := by
  obtain ⟨chars, bounded, isName, silent⟩ := h
  have whole : p = ⟨front ++ name ++ tail⟩ := by rw [← chars]
  rw [fileName?_eq_some_iff, whole, steps_silent silent]
  rcases bounded with rfl | slash
  · rw [List.nil_append, steps_name isName]
    rfl
  · obtain ⟨above, rfl⟩ := List.getLast?_eq_some_iff.1 slash
    rw [List.append_assoc, List.singleton_append, steps_append, steps_name isName, List.getLast?_concat]

/-- Nothing of the name is dropped. -/
theorem EndsIn.trimTail {front tail : Text} (h : p.EndsIn front name tail) :
    trimTail p.chars.reverse = (front ++ name).reverse := by
  obtain ⟨chars, -, ⟨some_, noDot, -, pure⟩, silent⟩ := h
  rw [chars, List.reverse_append, trimTail_silent silent, List.reverse_append]
  cases last : name.reverse with
  | nil => exact absurd (List.reverse_eq_nil_iff.1 last) some_
  | cons c others =>
    have noSlash : '/' ∉ c :: others := by rwa [← last, List.mem_reverse]
    rw [List.cons_append, Path.trimTail]
    · rintro rest split
      exact noSlash (by simp [(List.cons.inj split).1])
    · intro split
      obtain ⟨rfl, none_⟩ := List.cons.inj split
      obtain ⟨rfl, -⟩ := List.append_eq_nil_iff.1 none_
      exact noDot (by simpa using congrArg List.reverse last)
    · rintro rest split
      obtain ⟨rfl, behind⟩ := List.cons.inj split
      cases others with
      | nil => exact noDot (by simpa using congrArg List.reverse last)
      | cons d others => exact noSlash (by simp [(List.cons.inj behind).1])

/-- A path with a file name ends in it. -/
theorem exists_endsIn (named : p.fileName? = some name) : ∃ front tail, p.EndsIn front name tail := by
  obtain ⟨tail, silent, split⟩ := trimTail_dropped p.chars.reverse
  rw [List.reverse_reverse] at split
  have whole : p = ⟨(Path.trimTail p.chars.reverse).reverse ++ tail⟩ := by rw [← split]
  rw [fileName?_eq_some_iff, whole, steps_silent silent] at named
  have some_ : Path.trimTail p.chars.reverse ≠ [] := by
    intro empty
    simp [empty, steps, Text.splitOn, Component.ofSegment?] at named
  have more : Path.trimTail p.chars.reverse ≠ ['.'] := by
    intro dot
    simp [dot, steps, Text.splitOn, Component.ofSegment?] at named
  obtain ⟨s, back, left, bounded, pure, nonempty, noDot⟩ := trimTail_last some_ more
  obtain ⟨c, isStep⟩ := ofSegment?_eq_some nonempty noDot
  have single : (⟨s⟩ : Path).steps = [c] := by
    rw [steps, Text.splitOn_of_absent pure, List.filterMap_cons_some isStep, List.filterMap_nil]
  rw [left, List.reverse_append, List.reverse_reverse] at named split
  have last : c = .name name := by
    rcases bounded with rfl | slash
    · rw [List.reverse_nil, List.nil_append, single] at named
      exact Option.some.inj named
    · obtain ⟨above, rfl⟩ := List.head?_eq_some_iff.1 slash
      rw [List.reverse_cons, List.append_assoc, List.singleton_append, steps_append, single,
        List.getLast?_concat] at named
      exact Option.some.inj named
  subst last
  rcases Component.ofSegment?_cases pure isStep with ⟨other, -⟩ | ⟨same, isName⟩
  · contradiction
  · obtain rfl := Component.name.inj same
    refine ⟨back.reverse, tail, split, ?_, isName, silent⟩
    rcases bounded with rfl | slash
    · exact .inl rfl
    · exact .inr (by rwa [List.getLast?_reverse])

/-- A text that does not end in a slash ends in a segment. -/
theorem exists_lastSegment {t : Text} (some_ : t ≠ []) (noSlash : t.getLast? ≠ some '/') :
    ∃ front last, t = front ++ last ∧ (front = [] ∨ front.getLast? = some '/') ∧ '/' ∉ last ∧ last ≠ [] := by
  obtain ⟨reversed, back, split, bounded, pure⟩ := upToSlash t.reverse
  have whole : t = back.reverse ++ reversed.reverse := by rw [← List.reverse_append, ← split, List.reverse_reverse]
  refine ⟨back.reverse, reversed.reverse, whole, ?_, by simpa using pure, ?_⟩
  · rw [List.reverse_eq_nil_iff, List.getLast?_reverse]
    exact bounded
  · intro none_
    rw [none_, List.append_nil] at whole
    rcases bounded with rfl | slash
    · exact some_ whole
    · exact noSlash (by rwa [whole, List.getLast?_reverse])

/-! ## Extensions -/

theorem extensionOfName_eq_some_iff :
    extensionOfName name = some extension ↔ ∃ base, base ≠ [] ∧ '.' ∉ extension ∧ name = base ++ '.' :: extension := by
  have split := List.takeWhile_append_dropWhile (p := (· ≠ '.')) (l := name.reverse)
  constructor
  · intro found
    rw [extensionOfName] at found
    split at found
    · contradiction
    · contradiction
    · rename_i d front more shape
      obtain rfl := Option.some.inj found
      have dot : d = '.' := by
        have fails := List.head_dropWhile_not (p := (· ≠ '.')) (l := name.reverse) (by rw [shape]; simp)
        simp only [shape, List.head_cons] at fails
        simpa using fails
      refine ⟨front.reverse, fun none_ => ?_, ?_, ?_⟩
      · obtain rfl := List.reverse_eq_nil_iff.1 none_
        exact more rfl
      · intro member
        have passed := List.all_eq_true.1 List.all_takeWhile _ (List.mem_reverse.1 member)
        simp at passed
      · rw [shape, dot] at split
        have whole := congrArg List.reverse split
        simpa using whole.symm
  · rintro ⟨base, some_, absent, rfl⟩
    have passed : ∀ c ∈ extension.reverse, decide (c ≠ '.') = true := by
      intro c member
      rw [decide_eq_true_iff]
      rintro rfl
      exact absent (List.mem_reverse.1 member)
    rw [extensionOfName, List.reverse_append, List.reverse_cons, List.append_assoc, List.singleton_append,
      List.dropWhile_append_of_pos passed, List.takeWhile_append_of_pos passed]
    cases front : base.reverse with
    | nil => exact absurd (List.reverse_eq_nil_iff.1 front) some_
    | cons c front => simp

/-- A name with an extension that means something is not one of dots only. -/
theorem isName_of_extension {basis : Text} (pure : '/' ∉ basis) (within : '/' ∉ extension) (some_ : extension ≠ [])
    (noDot : '.' ∉ extension) : IsName (basis ++ '.' :: extension) := by
  have last : (basis ++ '.' :: extension).getLast? = extension.getLast? := by
    rw [List.getLast?_append_of_ne_nil _ (by simp), ← List.singleton_append, List.getLast?_append_of_ne_nil _ some_]
  have dotless : (basis ++ '.' :: extension).getLast? ≠ some '.' := by
    rw [last]
    exact fun dot => noDot (List.mem_of_getLast? dot)
  refine ⟨by simp, ?_, ?_, by simp [pure, within]⟩
  · intro dot
    exact dotless (by rw [dot]; rfl)
  · intro dots
    exact dotless (by rw [dots]; rfl)

/-- What is in front of the dot of the name that a path ends in. -/
theorem EndsIn.stem {front basis tail : Text} (ends : p.EndsIn front (basis ++ '.' :: extension) tail) :
    ((Path.trimTail p.chars.reverse).drop (extension.length + 1)).reverse = front ++ basis := by
  have reversed : (front ++ (basis ++ '.' :: extension)).reverse =
      (extension.reverse ++ ['.']) ++ (front ++ basis).reverse := by simp
  rw [ends.trimTail, reversed, List.drop_left' (by simp), List.reverse_reverse]

end ComponentLint.Path
