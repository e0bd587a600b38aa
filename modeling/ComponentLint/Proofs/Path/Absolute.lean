import ComponentLint.Path.Basic
import Mathlib.Tactic.SplitIfs

/-! What is put behind an absolute path, and what is above it, is absolute; and an absolute path stands for itself
wherever it is put. -/
namespace ComponentLint.Path

theorem join_of_absolute (p : Path) {q : Path} (h : q.isAbsolute = true) : p.join q = q := by rw [join, if_pos h]

theorem join_absolute {p : Path} (h : p.isAbsolute = true) (q : Path) : (p.join q).isAbsolute = true := by
  obtain ⟨chars⟩ := p
  cases chars with
  | nil => simp [isAbsolute] at h
  | cons c chars =>
    rw [join]
    split_ifs with absolute ends
    · exact absolute
    · exact h
    · exact h

/-- Dropping what a path ends in comes to its root at most. -/
theorem trimTail_rooted {reversed : Text} (h : reversed.getLast? = some '/') :
    trimTail reversed = [] ∨ (trimTail reversed).getLast? = some '/' := by
  fun_induction trimTail reversed with
  | case1 rest ih =>
    cases rest with
    | nil => exact .inl rfl
    | cons c rest => exact ih (by simpa using h)
  | case2 => simp at h
  | case3 rest ih =>
    cases rest with
    | nil => exact .inl rfl
    | cons c rest => exact ih (by simpa using h)
  | case4 => exact .inr h

theorem parent?_absolute {p q : Path} (h : p.isAbsolute = true) (above : p.parent? = some q) : q.isAbsolute = true := by
  have rooted (n : Nat) : trimTail ((trimTail p.chars.reverse).drop n) = [] ∨
      (trimTail ((trimTail p.chars.reverse).drop n)).getLast? = some '/' := by
    have start : p.chars.reverse.getLast? = some '/' := by
      rw [List.getLast?_reverse]
      exact of_decide_eq_true h
    rcases trimTail_rooted start with empty | ends
    · rw [empty, List.drop_nil]
      exact .inl rfl
    · by_cases short : (trimTail p.chars.reverse).length ≤ n
      · rw [List.drop_eq_nil_of_le short]
        exact .inl rfl
      · apply trimTail_rooted
        rw [List.getLast?_drop, if_neg short, ends]
  rw [parent?] at above
  split at above
  · contradiction
  · contradiction
  · rename_i last _ _
    dsimp only at above
    split_ifs at above with root
    · obtain rfl := Option.some.inj above
      rfl
    · obtain rfl := Option.some.inj above
      rcases rooted last.chars.length with empty | ends
      · exact absurd ⟨h, empty⟩ root
      · simp [isAbsolute, ends]

/-- What passes from a path to the one above it holds of all paths above. -/
theorem ancestors_forall {motive : Path → Prop} (above : ∀ {p q : Path}, motive p → p.parent? = some q → motive q)
    {p q : Path} (h : motive p) (member : q ∈ p.ancestors) : motive q := by
  have climbs (n : Nat) : ∀ p : Path, motive p → ∀ q ∈ ancestors.go n p, motive q := by
    induction n with
    | zero =>
      intro p h q member
      obtain rfl := List.mem_singleton.1 member
      exact h
    | succ n ih =>
      intro p h q member
      rw [ancestors.go] at member
      rcases List.mem_cons.1 member with rfl | further
      · exact h
      · cases next : p.parent? with
        | none => simp [next] at further
        | some up =>
          rw [next] at further
          exact ih up (above h next) q further
  exact climbs p.chars.length p h q member

theorem ancestors_absolute {p q : Path} (h : p.isAbsolute = true) (member : q ∈ p.ancestors) :
    q.isAbsolute = true :=
  ancestors_forall (motive := fun p => p.isAbsolute = true) parent?_absolute h member

end ComponentLint.Path
