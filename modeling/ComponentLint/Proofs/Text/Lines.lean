import ComponentLint.Text.Basic
import Mathlib.Data.List.Basic
import Mathlib.Data.List.Pairwise

/-! Lines. Each is some text without a line feed and then one, except for the last, which may have none; and a list of
such lines is what its texts in a row are split into. -/
namespace ComponentLint.Text

/-- A line that is not empty and has no line feed but at its end. -/
def IsLine (line : Text) : Prop := line ≠ [] ∧ '\n' ∉ line.dropLast

/-- Lines as a text is split into: only the last may go without a line feed. -/
structure AreLines (ls : List Text) : Prop where
  each : ∀ line ∈ ls, IsLine line
  ended : ls.Pairwise fun line _ => line.getLast? = some '\n'

theorem AreLines.sublist {few ls : List Text} (h : AreLines ls) (among : few.Sublist ls) : AreLines few where
  each line member := h.each line (among.subset member)
  ended := h.ended.sublist among

/-- A text that goes on to its end without a line feed but has one there. -/
def IsEnded (line : Text) : Prop := ∃ body, line = body ++ ['\n'] ∧ '\n' ∉ body

theorem AreLines.of_ended {ls : List Text} (ended : ∀ line ∈ ls, IsEnded line) : AreLines ls where
  each line member := by
    obtain ⟨body, rfl, flat⟩ := ended line member
    exact ⟨by simp, by simpa using flat⟩
  ended := List.pairwise_of_forall_mem_list fun line member next _ => by
    obtain ⟨body, rfl, -⟩ := ended line member
    simp

theorem lines_newline (rest : Text) : lines ('\n' :: rest) = ['\n'] :: lines rest := by simp [lines]

theorem lines_cons {c : Char} (other : c ≠ '\n') (rest : Text) :
    lines (c :: rest) = (c :: ((lines rest).headD [])) :: (lines rest).tail := by
  rw [lines, if_neg other]
  cases lines rest <;> rfl

theorem lines_are (t : Text) : AreLines (lines t) := by
  induction t with
  | nil => exact ⟨by simp [lines], by simp [lines]⟩
  | cons c t ih =>
    by_cases newline : c = '\n'
    · subst newline
      rw [lines_newline]
      refine ⟨?_, List.pairwise_cons.2 ⟨fun _ _ => rfl, ih.ended⟩⟩
      intro line member
      rcases List.mem_cons.1 member with rfl | later
      · exact ⟨by simp, by simp⟩
      · exact ih.each line later
    · rw [lines_cons newline]
      cases rest : lines t with
      | nil =>
        refine ⟨?_, List.pairwise_singleton ..⟩
        intro line member
        obtain rfl := List.mem_singleton.1 member
        exact ⟨by simp, by simp⟩
      | cons first more =>
        rw [rest] at ih
        obtain ⟨some_, inner⟩ := ih.each first (by simp)
        obtain ⟨ends, later⟩ := List.pairwise_cons.1 ih.ended
        constructor
        · intro line member
          rcases List.mem_cons.1 member with rfl | other
          · refine ⟨by simp, ?_⟩
            rw [List.headD_cons, List.dropLast_cons_of_ne_nil some_]
            simpa [Ne.symm newline] using inner
          · exact ih.each line (by simpa using Or.inr other)
        · refine List.pairwise_cons.2 ⟨fun next member => ?_, later⟩
          rw [List.headD_cons, List.getLast?_cons, ends next member]
          rfl

/-- A text without a line feed, then one, is the first line. -/
theorem lines_ended {body : Text} (inner : '\n' ∉ body) (rest : Text) :
    lines (body ++ '\n' :: rest) = (body ++ ['\n']) :: lines rest := by
  induction body with
  | nil => exact lines_newline rest
  | cons c body ih =>
    obtain ⟨other, absent⟩ : '\n' ≠ c ∧ '\n' ∉ body := by simpa using inner
    rw [List.cons_append, lines_cons other.symm, ih absent]
    rfl

theorem lines_of_absent {t : Text} (some_ : t ≠ []) (inner : '\n' ∉ t) : lines t = [t] := by
  induction t with
  | nil => contradiction
  | cons c t ih =>
    obtain ⟨other, absent⟩ : '\n' ≠ c ∧ '\n' ∉ t := by simpa using inner
    rw [lines_cons other.symm]
    cases t with
    | nil => rfl
    | cons d t =>
      rw [ih (by simp) absent]
      rfl

/-- Lines in a row are split again where they were joined. -/
theorem AreLines.lines_flatten {ls : List Text} (h : AreLines ls) : lines ls.flatten = ls := by
  induction ls with
  | nil => rfl
  | cons line rest ih =>
    obtain ⟨some_, inner⟩ := h.each line (by simp)
    obtain ⟨ends, -⟩ := List.pairwise_cons.1 h.ended
    have split : line = line.dropLast ++ [line.getLast some_] := (List.dropLast_append_getLast some_).symm
    by_cases newline : line.getLast some_ = '\n'
    · rw [newline] at split
      have whole : (line :: rest).flatten = line.dropLast ++ '\n' :: rest.flatten := by
        rw [List.flatten_cons]
        conv_lhs => rw [split]
        simp
      rw [whole, lines_ended inner, ih (h.sublist (List.sublist_cons_self ..)), ← split]
    · -- a line without a line feed is the last one
      cases rest with
      | cons next more =>
        have feed := ends next (by simp)
        rw [List.getLast?_eq_some_getLast some_] at feed
        exact absurd (Option.some.inj feed) newline
      | nil =>
        have absent : '\n' ∉ line := by
          rw [split]
          simpa [inner] using Ne.symm newline
        rw [List.flatten_singleton]
        exact lines_of_absent some_ absent

end ComponentLint.Text
