/-! Stable sorting by insertion. -/
namespace ComponentLint.Sorting

/-- Puts an element before the first one that it may stand before. -/
def insert (le : α → α → Bool) (x : α) : List α → List α
  | [] => [x]
  | y :: ys => if le x y then x :: y :: ys else y :: insert le x ys

/-- Elements that may stand either way keep their order. -/
def sort (le : α → α → Bool) : List α → List α
  | [] => []
  | x :: xs => insert le x (sort le xs)

theorem insert_perm (le : α → α → Bool) (x : α) (xs : List α) : (insert le x xs).Perm (x :: xs) := by
  induction xs with
  | nil => exact .refl _
  | cons y ys ih =>
    simp only [insert]
    split
    · exact .refl _
    · exact (ih.cons y).trans (.swap x y ys)

theorem sort_perm (le : α → α → Bool) (xs : List α) : (sort le xs).Perm xs := by
  induction xs with
  | nil => exact .refl _
  | cons x xs ih => exact (insert_perm le x _).trans (ih.cons x)

@[simp] theorem mem_sort {le : α → α → Bool} {x : α} {xs : List α} : x ∈ sort le xs ↔ x ∈ xs :=
  (sort_perm le xs).mem_iff

/-- An element that is put in stands before what it may stand before, and behind the rest. -/
theorem insert_pairwise {le : α → α → Bool} (total : ∀ a b, le a b = true ∨ le b a = true)
    (trans : ∀ a b c, le a b = true → le b c = true → le a c = true) (x : α) {xs : List α}
    (sorted : xs.Pairwise fun a b => le a b = true) : (insert le x xs).Pairwise fun a b => le a b = true := by
  induction xs with
  | nil => simp [insert]
  | cons y ys ih =>
    obtain ⟨first, rest⟩ := List.pairwise_cons.1 sorted
    by_cases here : le x y = true
    · simp only [insert, here, if_true]
      apply List.pairwise_cons.2
      refine ⟨fun z member => ?_, sorted⟩
      rcases List.mem_cons.1 member with rfl | later
      · exact here
      · exact trans x y z here (first z later)
    · simp only [insert, here, Bool.false_eq_true, if_false]
      apply List.pairwise_cons.2
      refine ⟨fun z member => ?_, ih rest⟩
      rcases List.mem_cons.1 ((insert_perm le x ys).mem_iff.1 member) with rfl | later
      · exact (total z y).resolve_left here
      · exact first z later

theorem sort_pairwise {le : α → α → Bool} (total : ∀ a b, le a b = true ∨ le b a = true)
    (trans : ∀ a b c, le a b = true → le b c = true → le a c = true) (xs : List α) :
    (sort le xs).Pairwise fun a b => le a b = true := by
  induction xs with
  | nil => exact .nil
  | cons x xs ih => exact insert_pairwise total trans x ih

/-- Of elements that may stand either way, the one that is put in comes first. -/
theorem insert_filter {le : α → α → Bool} {tied : α → Bool}
    (ties : ∀ a b, tied a = true → tied b = true → le a b = true) (x : α) (xs : List α) :
    (insert le x xs).filter tied = (x :: xs).filter tied := by
  induction xs with
  | nil => rfl
  | cons y ys ih =>
    by_cases here : le x y = true
    · simp only [insert, here, if_true]
    · simp only [insert, here, Bool.false_eq_true, if_false]
      by_cases isTied : tied x = true
      · have other : ¬tied y = true := fun also => here (ties x y isTied also)
        simp [ih, isTied, other]
      · simp [List.filter_cons, ih, isTied]

/-- Sorting is stable: elements that may stand either way keep their order. -/
theorem sort_filter {le : α → α → Bool} {tied : α → Bool}
    (ties : ∀ a b, tied a = true → tied b = true → le a b = true) (xs : List α) :
    (sort le xs).filter tied = xs.filter tied := by
  induction xs with
  | nil => rfl
  | cons x xs ih =>
    rw [sort, insert_filter ties, List.filter_cons, List.filter_cons, ih]

theorem map_insert {f : α → β} {le : α → α → Bool} {le' : β → β → Bool} (same : ∀ a b, le' (f a) (f b) = le a b)
    (x : α) (xs : List α) : (insert le x xs).map f = insert le' (f x) (xs.map f) := by
  induction xs with
  | nil => rfl
  | cons y ys ih =>
    by_cases here : le x y = true
    · simp only [insert, same, here, if_true, List.map_cons]
    · simp only [insert, same, here, Bool.false_eq_true, if_false, List.map_cons, ih]

/-- What the order does not look at may be changed before sorting or after it. -/
theorem map_sort {f : α → β} {le : α → α → Bool} {le' : β → β → Bool} (same : ∀ a b, le' (f a) (f b) = le a b)
    (xs : List α) : (sort le xs).map f = sort le' (xs.map f) := by
  induction xs with
  | nil => rfl
  | cons x xs ih => rw [sort, map_insert same, ih, List.map_cons, sort]

/-- In front of what it may stand before, an element is put first. -/
theorem insert_eq_cons {le : α → α → Bool} {x : α} {xs : List α} (before : ∀ y ∈ xs, le x y = true) :
    insert le x xs = x :: xs := by
  cases xs with
  | nil => rfl
  | cons y ys => rw [insert, if_pos (before y (List.mem_cons_self ..))]

theorem filter_insert {le : α → α → Bool} (trans : ∀ a b c, le a b = true → le b c = true → le a c = true)
    (keep : α → Bool) (x : α) {xs : List α} (sorted : xs.Pairwise fun a b => le a b = true) :
    (insert le x xs).filter keep = if keep x then insert le x (xs.filter keep) else xs.filter keep := by
  induction xs with
  | nil => cases kept : keep x <;> simp [insert, kept]
  | cons y ys ih =>
    obtain ⟨first, rest⟩ := List.pairwise_cons.1 sorted
    by_cases here : le x y = true
    · -- it stands before all that is kept, whether or not that begins with the same element
      have before : ∀ z ∈ (y :: ys).filter keep, le x z = true := by
        intro z member
        rcases List.mem_cons.1 (List.mem_filter.1 member).1 with rfl | later
        · exact here
        · exact trans x y z here (first z later)
      rw [insert, if_pos here, List.filter_cons, insert_eq_cons before]
    · rw [insert, if_neg here, List.filter_cons, ih rest, List.filter_cons]
      cases keep x <;> cases keep y <;> simp [insert, here]

/-- Elements may be left out before sorting or after it. -/
theorem filter_sort {le : α → α → Bool} (total : ∀ a b, le a b = true ∨ le b a = true)
    (trans : ∀ a b c, le a b = true → le b c = true → le a c = true) (keep : α → Bool) (xs : List α) :
    (sort le xs).filter keep = sort le (xs.filter keep) := by
  induction xs with
  | nil => rfl
  | cons x xs ih =>
    rw [sort, filter_insert trans keep x (sort_pairwise total trans xs), ih, List.filter_cons]
    cases keep x <;> rfl

end ComponentLint.Sorting
