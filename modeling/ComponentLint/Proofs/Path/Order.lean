import ComponentLint.Proofs.Path.Normal
import ComponentLint.Sorting
import Mathlib.Data.Char
import Mathlib.Data.List.Lex
import Mathlib.Data.List.Sort
import Mathlib.Data.Prod.Lex

/-! The order of paths is strict, and decides between any two paths that differ in their components. So a list of
normal paths in strictly ascending order is determined by what is in it. -/
namespace ComponentLint

/-- Texts are ordered as lists of characters. -/
theorem Text.before_iff {s t : Text} : s.before t = true ↔ s < t := by
  induction s generalizing t with
  | nil => cases t <;> simp [Text.before]
  | cons a s ih =>
    cases t with
    | nil => simp [Text.before]
    | cons b t => simp [Text.before, ih, List.cons_lt_cons_iff]

namespace Path

/-- What a component is compared by: its kind, then its text. -/
def Component.key (c : Component) : ℕ ×ₗ List Char := toLex (c.rank, c.chars)

theorem Component.before_iff {a b : Component} : a.before b = true ↔ a.key < b.key := by
  simp [Component.before, Component.key, Prod.Lex.toLex_lt_toLex, Text.before_iff]

theorem Component.key_injective : Function.Injective Component.key := by
  intro a b same
  obtain ⟨kind, text⟩ := Prod.mk.inj (toLex.injective same)
  cases a <;> cases b <;> simp_all [Component.rank, Component.chars]

/-- What a path is compared by. -/
def key (p : Path) : List (ℕ ×ₗ List Char) := p.components.map Component.key

theorem componentsBefore_iff {s t : List Component} :
    componentsBefore s t = true ↔ s.map Component.key < t.map Component.key := by
  induction s generalizing t with
  | nil => cases t <;> simp [componentsBefore]
  | cons a s ih =>
    cases t with
    | nil => simp [componentsBefore]
    | cons b t =>
      simp [componentsBefore, ih, List.cons_lt_cons_iff, Component.before_iff, Component.key_injective.eq_iff]

variable {p q : Path}

theorem before_iff : p.before q = true ↔ p.key < q.key := componentsBefore_iff

/-- Normal paths that are compared by the same are the same. -/
theorem eq_of_key (normal : p.normalize = p) (normal' : q.normalize = q) (same : p.key = q.key) : p = q := by
  have components : p.components = q.components := List.map_injective_iff.2 Component.key_injective same
  rw [← normal, ← normal', normalize, normalize, components]

instance : Std.Irrefl fun p q : Path => p.before q = true where
  irrefl p := by simp [before_iff]

instance : Std.Asymm fun p q : Path => p.before q = true where
  asymm p q h := by
    rw [before_iff] at h ⊢
    exact h.asymm

/-- A path that is not behind another stands before it, or is compared by the same. -/
theorem not_before_iff : (!q.before p) = true ↔ p.key ≤ q.key := by
  rw [Bool.not_eq_true', Bool.eq_false_iff, Ne, before_iff, not_lt]

/-- Sorting leaves no path behind one that it stands before. -/
theorem sort_ascending (ps : List Path) :
    (Sorting.sort (fun p q => !q.before p) ps).Pairwise fun p q => p.key ≤ q.key := by
  refine (Sorting.sort_pairwise ?_ ?_ ps).imp not_before_iff.1
  · intro p q
    rw [not_before_iff, not_before_iff]
    exact le_total _ _
  · intro p q r first second
    rw [not_before_iff] at first second ⊢
    exact first.trans second

end Path

end ComponentLint
