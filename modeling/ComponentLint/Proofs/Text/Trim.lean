import ComponentLint.Text.Blank
import Mathlib.Data.List.DropRight
import Mathlib.Data.List.Infix

/-! Trimming. A trimmed text is a piece of the text, and it is found again between blanks. -/
namespace ComponentLint.Text

theorem trimStart_suffix (t : Text) : trimStart t <:+ t := List.dropWhile_suffix _

theorem trimEnd_begins (t : Text) : trimEnd t <+: t := by
  have reversed : (t.reverse.dropWhile isBlank).reverse <+: t.reverse.reverse :=
    List.reverse_prefix.2 (List.dropWhile_suffix _)
  rwa [List.reverse_reverse] at reversed

theorem trim_infix (t : Text) : t.trim <:+: t :=
  (trimEnd_begins _).isInfix.trans (trimStart_suffix t).isInfix

theorem trimStart_trim (t : Text) : trimStart t.trim = t.trim := by
  obtain ⟨rest, split⟩ := trimEnd_begins (trimStart t)
  change t.trim ++ rest = trimStart t at split
  cases trimmed : t.trim with
  | nil => rfl
  | cons c m =>
    rw [trimmed, List.cons_append] at split
    have first := List.head?_dropWhile_not isBlank t
    rw [show t.dropWhile isBlank = c :: (m ++ rest) from split.symm] at first
    have sharp : ¬isBlank c = true := by simpa using first
    rw [trimStart, List.dropWhile_cons_of_neg sharp]

theorem trimEnd_trim (t : Text) : trimEnd t.trim = t.trim := by
  rw [trim, trimEnd, trimEnd, List.reverse_reverse, List.dropWhile_idempotent isBlank]

/-- Blanks around a trimmed text are all that is trimmed. -/
theorem trim_between {start finish : Text} (before : ∀ c ∈ start, isBlank c = true)
    (behind : ∀ c ∈ finish, isBlank c = true) (t : Text) : (start ++ t.trim ++ finish).trim = t.trim := by
  have left : trimStart (start ++ t.trim ++ finish) = trimStart (t.trim ++ finish) := by
    rw [trimStart, List.append_assoc, List.dropWhile_append_of_pos before, trimStart]
  rw [trim, left]
  cases trimmed : t.trim with
  | nil =>
    have none_ : trimStart finish = [] := List.dropWhile_eq_nil_iff.2 behind
    rw [List.nil_append, none_]
    rfl
  | cons c m =>
    have sharp : ¬isBlank c = true := by
      have fixed := trimStart_trim t
      rw [trimmed] at fixed
      intro blank
      rw [trimStart, List.dropWhile_cons_of_pos blank] at fixed
      have shorter := (List.dropWhile_suffix (l := m) isBlank).length_le
      rw [fixed] at shorter
      simp only [List.length_cons] at shorter
      omega
    have start_ : trimStart (c :: m ++ finish) = c :: m ++ finish := List.dropWhile_cons_of_neg sharp
    have blanks : ∀ d ∈ finish.reverse, isBlank d = true := fun d member => behind d (List.mem_reverse.1 member)
    have fixed := trimEnd_trim t
    rw [trimmed, trimEnd] at fixed
    rw [start_, trimEnd, List.reverse_append, List.dropWhile_append_of_pos blanks, fixed]

end ComponentLint.Text
