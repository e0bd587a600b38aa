import Mathlib.Data.List.Induction
import Mathlib.Data.List.Nodup

/-! Lists without repetitions: what is left of a list when its repetitions are taken out, and the look-up of a key that
no two elements have in common. -/
namespace ComponentLint

theorem nodup_eraseDups {α : Type} [BEq α] [LawfulBEq α] (l : List α) : l.eraseDups.Nodup := by
  induction size : l.length using Nat.strongRecOn generalizing l with
  | ind n ih =>
    subst size
    cases l with
    | nil => simp
    | cons a l =>
      have shorter := List.length_filter_le (fun b => !b == a) l
      rw [List.eraseDups_cons, List.nodup_cons]
      refine ⟨by simp [List.mem_eraseDups], ih _ (by simp; omega) _ rfl⟩

theorem eraseDups_sublist {α : Type} [BEq α] [LawfulBEq α] (l : List α) : l.eraseDups.Sublist l := by
  induction size : l.length using Nat.strongRecOn generalizing l with
  | ind n ih =>
    subst size
    cases l with
    | nil => simp
    | cons a l =>
      have shorter := List.length_filter_le (fun b => !b == a) l
      rw [List.eraseDups_cons]
      exact ((ih _ (by simp; omega) _ rfl).trans List.filter_sublist).cons_cons a

/-- The last element is kept if it has not come before. -/
theorem eraseDups_concat {α : Type} [BEq α] [LawfulBEq α] (l : List α) (a : α) :
    (l ++ [a]).eraseDups = if a ∈ l then l.eraseDups else l.eraseDups ++ [a] := by
  rw [List.eraseDups_append]
  by_cases before : a ∈ l
  · simp [List.removeAll, before]
  · simp [List.removeAll, before, List.eraseDups_cons]

/-- Taking out repetitions and taking out other elements do not disturb each other. -/
theorem eraseDups_filter {α : Type} [BEq α] [LawfulBEq α] (keep : α → Bool) (l : List α) :
    (l.filter keep).eraseDups = l.eraseDups.filter keep := by
  induction l using List.reverseRecOn with
  | nil => rfl
  | append_singleton l a ih =>
    rw [eraseDups_concat, List.filter_append]
    cases kept : keep a with
    | false =>
      have dropped : [a].filter keep = [] := by simp [kept]
      rw [dropped, List.append_nil, ih]
      split
      · rfl
      · rw [List.filter_append, dropped, List.append_nil]
    | true =>
      have stays : [a].filter keep = [a] := by simp [kept]
      rw [stays, eraseDups_concat, ih]
      by_cases before : a ∈ l
      · simp [before, kept]
      · simp [before, kept, List.filter_append]

/-- Behind a list come the elements of another one that it does not have. -/
theorem eraseDups_append_filter {α : Type} [BEq α] [LawfulBEq α] (a b : List α) :
    (a ++ b).eraseDups = a.eraseDups ++ b.eraseDups.filter fun x => !a.eraseDups.contains x := by
  rw [List.eraseDups_append, List.removeAll, eraseDups_filter]
  congr 2
  funext x
  rw [Bool.eq_iff_iff]
  simp [List.mem_eraseDups]

/-- Of elements with keys of their own, the one with a key is found. -/
theorem find?_key_eq_some_iff {α β : Type} [DecidableEq β] {key : α → β} {l : List α} (distinct : (l.map key).Nodup)
    {k : β} {a : α} : l.find? (fun b => key b = k) = some a ↔ a ∈ l ∧ key a = k := by
  constructor
  · intro found
    exact ⟨List.mem_of_find?_eq_some found, by simpa using List.find?_some found⟩
  · rintro ⟨member, rfl⟩
    cases found : l.find? (fun b => key b = key a) with
    | none =>
      have absent := List.find?_eq_none.1 found a member
      simp at absent
    | some b =>
      have same : key b = key a := by simpa using List.find?_some found
      rw [List.inj_on_of_nodup_map distinct (List.mem_of_find?_eq_some found) member same]

/-- The order of the elements does not matter for the look-up. -/
theorem find?_key_perm {α β : Type} [DecidableEq β] {key : α → β} {l l' : List α} (perm : l'.Perm l)
    (distinct : (l.map key).Nodup) (k : β) : l'.find? (fun b => key b = k) = l.find? (fun b => key b = k) := by
  have distinct' : (l'.map key).Nodup := (perm.map key).nodup_iff.2 distinct
  ext a
  rw [find?_key_eq_some_iff distinct', find?_key_eq_some_iff distinct, perm.mem_iff]

end ComponentLint
