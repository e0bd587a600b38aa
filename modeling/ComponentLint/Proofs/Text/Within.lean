import ComponentLint.Proofs.Text.Slice

/-! The longest beginning of a text of at most so many bytes: all that stands in front of an offset, without the
character that the offset is inside of. -/
namespace ComponentLint.Text

theorem within_zero (t : Text) : within 0 t = [] := by
  cases t with
  | nil => rfl
  | cons c t =>
    have positive := Char.utf8Size_pos c
    rw [within, if_neg (by omega)]

/-- Behind a beginning the rest is cut at what is left of the offset. -/
theorem within_append (a b : Text) (n : Nat) : within (byteSize a + n) (a ++ b) = a ++ within n b := by
  induction a with
  | nil => simp
  | cons c a ih =>
    have left : byteSize (c :: a) + n - c.utf8Size = byteSize a + n := by
      rw [byteSize_cons]
      omega
    rw [List.cons_append, within, if_pos (by rw [byteSize_cons]; omega), left, ih, List.cons_append]

/-- An offset inside a character counts as its start. -/
theorem within_inside (a b : Text) {c : Char} {n : Nat} (inside : n < c.utf8Size) :
    within (byteSize a + n) (a ++ c :: b) = a := by
  rw [within_append, within, if_neg (by omega), List.append_nil]

theorem within_boundary (a b : Text) : within (byteSize a) (a ++ b) = a := by
  have cut := within_append a b 0
  rwa [within_zero, Nat.add_zero, List.append_nil] at cut

/-- An offset past the end counts as the end. -/
theorem within_all {t : Text} {n : Nat} (past : byteSize t ≤ n) : within n t = t := by
  obtain ⟨more, rfl⟩ := Nat.exists_eq_add_of_le past
  have cut := within_append t [] more
  rw [List.append_nil] at cut
  exact cut.trans (by rw [within, List.append_nil])

/-- What stands behind a text does not matter for the offsets in it. -/
theorem within_front {a : Text} {n : Nat} (inside : n ≤ byteSize a) (b : Text) : within n (a ++ b) = within n a := by
  induction a generalizing n with
  | nil =>
    obtain rfl := Nat.le_zero.1 inside
    rw [within_zero, within_zero]
  | cons c a ih =>
    rw [byteSize_cons] at inside
    rw [List.cons_append, within, within]
    by_cases fits : c.utf8Size ≤ n
    · rw [if_pos fits, if_pos fits, ih (by omega)]
    · rw [if_neg fits, if_neg fits]

theorem byteSize_within_le (t : Text) (n : Nat) : byteSize (within n t) ≤ byteSize t := by
  induction t generalizing n with
  | nil => simp [within]
  | cons c t ih =>
    rw [within]
    split
    · have shorter := ih (n - c.utf8Size)
      rw [byteSize_cons, byteSize_cons]
      omega
    · simp

theorem length_le_byteSize (t : Text) : t.length ≤ byteSize t := by
  induction t with
  | nil => simp
  | cons c t ih =>
    have positive := Char.utf8Size_pos c
    rw [List.length_cons, byteSize_cons]
    omega

/-- The boundaries of a text are where it can be cut. -/
theorem isBoundary_iff {t : Text} {n : Nat} : isBoundary n t = true ↔ ∃ a b, t = a ++ b ∧ byteSize a = n := by
  rw [isBoundary, Option.isSome_iff_exists]
  simp only [Prod.exists, splitAt?_eq_some_iff]

end ComponentLint.Text
