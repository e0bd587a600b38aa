import ComponentLint.Text.Basic

/-! Splitting at a character and joining with it are inverse on texts that do not have it. -/
namespace ComponentLint.Text

variable {c : Char}

theorem splitOn_ne_nil (t : Text) : splitOn c t ≠ [] := by
  cases t with
  | nil => simp [splitOn]
  | cons d t =>
    cases rest : splitOn c t with
    | nil => simp [splitOn, rest]
    | cons piece pieces =>
      by_cases same : d = c <;> simp [splitOn, rest, same]

theorem list_splitOn (t : Text) : List.splitOn c t = splitOn c t := by
  induction t with
  | nil => rfl
  | cons d t ih =>
    rw [List.splitOn] at ih
    rw [List.splitOn, List.splitOnP_cons_eq_if_modifyHead, ih, splitOn]
    cases rest : splitOn c t with
    | nil => exact absurd rest (splitOn_ne_nil t)
    | cons piece pieces => by_cases same : d = c <;> simp [same]

theorem splitOn_append_cons (a b : Text) : splitOn c (a ++ c :: b) = splitOn c a ++ splitOn c b := by
  induction a with
  | nil =>
    cases rest : splitOn c b with
    | nil => exact absurd rest (splitOn_ne_nil b)
    | cons piece pieces => simp [splitOn, rest]
  | cons d a ih =>
    cases front : splitOn c a with
    | nil => exact absurd front (splitOn_ne_nil a)
    | cons piece pieces =>
      rw [front, List.cons_append] at ih
      by_cases same : d = c <;> simp [splitOn, ih, front, same]

theorem splitOn_of_absent {t : Text} (h : c ∉ t) : splitOn c t = [t] := by
  induction t with
  | nil => rfl
  | cons d t ih =>
    obtain ⟨other, absent⟩ : c ≠ d ∧ c ∉ t := by simpa using h
    simp [splitOn, ih absent, other.symm]

theorem absent_of_mem_splitOn {t piece : Text} (h : piece ∈ splitOn c t) : c ∉ piece := by
  induction t generalizing piece with
  | nil =>
    obtain rfl : piece = [] := by simpa [splitOn] using h
    simp
  | cons d t ih =>
    cases rest : splitOn c t with
    | nil => exact absurd rest (splitOn_ne_nil t)
    | cons first pieces =>
      have fresh : c ∉ first := ih (by rw [rest]; simp)
      rw [splitOn, rest] at h
      by_cases same : d = c
      · simp only [same, if_true, List.mem_cons] at h
        rcases h with rfl | rfl | member
        · simp
        · exact fresh
        · exact ih (by rw [rest]; simp [member])
      · simp only [same, if_false, List.mem_cons] at h
        rcases h with rfl | member
        · simp [fresh, Ne.symm same]
        · exact ih (by rw [rest]; simp [member])

theorem mem_of_mem_splitOn {t piece : Text} {d : Char} (h : piece ∈ splitOn c t) (inside : d ∈ piece) : d ∈ t := by
  induction t generalizing piece with
  | nil =>
    obtain rfl : piece = [] := by simpa [splitOn] using h
    exact inside
  | cons e t ih =>
    cases rest : splitOn c t with
    | nil => exact absurd rest (splitOn_ne_nil t)
    | cons first pieces =>
      rw [rest] at ih
      by_cases same : e = c
      · simp only [splitOn, rest, same, if_true, List.mem_cons] at h
        rcases h with rfl | other
        · simp at inside
        · exact List.mem_cons_of_mem _ (ih (List.mem_cons.2 other) inside)
      · simp only [splitOn, rest, same, if_false, List.mem_cons] at h
        rcases h with rfl | other
        · rcases List.mem_cons.1 inside with rfl | later
          · simp
          · exact List.mem_cons_of_mem _ (ih (by simp) later)
        · exact List.mem_cons_of_mem _ (ih (by simp [other]) inside)

theorem join_cons (separator t : Text) (ts : List Text) :
    join separator (t :: ts) = t ++ ts.flatMap (separator ++ ·) := by
  induction ts generalizing t with
  | nil => simp [join]
  | cons u ts ih => simp [join, ih]

theorem mem_join {separator : Text} {ts : List Text} {d : Char} (h : d ∈ join separator ts) :
    d ∈ separator ∨ ∃ t ∈ ts, d ∈ t := by
  cases ts with
  | nil => simp [join] at h
  | cons t ts =>
    rw [join_cons, List.mem_append, List.mem_flatMap] at h
    rcases h with first | ⟨u, member, inside⟩
    · exact .inr ⟨t, by simp, first⟩
    · rcases List.mem_append.1 inside with between | inside
      · exact .inl between
      · exact .inr ⟨u, by simp [member], inside⟩

theorem join_concat (separator t last : Text) (ts : List Text) :
    join separator (t :: (ts ++ [last])) = t ++ (separator ++ join separator (ts ++ [last])) := by
  cases ts <;> simp [join]

theorem splitOn_join {ts : List Text} (some_ : ts ≠ []) (absent : ∀ t ∈ ts, c ∉ t) :
    splitOn c (join [c] ts) = ts := by
  induction ts with
  | nil => contradiction
  | cons t ts ih =>
    have first : c ∉ t := absent t (by simp)
    cases ts with
    | nil => exact splitOn_of_absent first
    | cons u ts =>
      have later := ih (by simp) fun v member => absent v (by simp [List.mem_cons.1 member])
      have regroup : join [c] (t :: u :: ts) = t ++ c :: join [c] (u :: ts) := by simp [join]
      rw [regroup, splitOn_append_cons, later, splitOn_of_absent first]
      rfl

end ComponentLint.Text
