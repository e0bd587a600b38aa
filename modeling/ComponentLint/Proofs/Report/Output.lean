import ComponentLint.Proofs.Report.Lines

/-! What is printed of a report: the form that was asked for, or the fixed files where that form is silent, or the word of
success. The word is said if there is nothing else to say, and what else is printed is never that word. -/
namespace ComponentLint

namespace Report

variable {r : Report} {base : Path}

/-- What is printed where there is nothing to say. -/
def success : Text := "No lint errors found.\n".toList

/-! ## How the forms start and end -/

theorem fixedLine_opens (base : Path) (result : FileResult) : ∃ more, (fixedLine base result).toList = 'F' :: more := by
  simp only [fixedLine, String.toList_append]
  exact ⟨_, rfl⟩

theorem failureLine_opens (base : Path) (result : FileResult) (f : Failure) :
    ∃ c more, (failureLine base result f).toList = c :: more ∧ (c = 'E' ∨ c = 'W') := by
  simp only [failureLine, String.toList_append]
  cases f.severity with
  | error => exact ⟨_, _, rfl, .inl rfl⟩
  | warning => exact ⟨_, _, rfl, .inr rfl⟩

/-- There are neither failures nor fixes. -/
def IsQuiet (r : Report) : Prop := ∀ result ∈ r.results, result.failures = [] ∧ result.fixesApplied = 0

/-- Prose starts with the capital of a line, unless there is nothing to say. -/
theorem prose_cases (r : Report) (base : Path) :
    r.IsQuiet ∧ r.prose base = [] ∨ ¬r.IsQuiet ∧ ∃ c more, r.prose base = c :: more ∧ (c = 'F' ∨ c = 'E' ∨ c = 'W') := by
  have quiet_iff : r.IsQuiet ↔ fixedLines base r.results = [] ∧ failureLines base r.results = [] := by
    simp only [IsQuiet, fixedLines, failureLines, List.map_eq_nil_iff, List.filter_eq_nil_iff, decide_eq_true_eq,
      List.flatMap_eq_nil_iff, Nat.not_lt, Nat.le_zero_eq]
    exact ⟨fun h => ⟨fun result member => (h result member).2, fun result member => (h result member).1⟩,
      fun h result member => ⟨h.2 result member, h.1 result member⟩⟩
  rw [prose_eq, quiet_iff]
  cases fixed : fixedLines base r.results with
  | cons line lines =>
    have member : line ∈ fixedLines base r.results := by simp [fixed]
    obtain ⟨result, -, rfl⟩ := List.mem_map.1 member
    obtain ⟨more, opens⟩ := fixedLine_opens base result
    refine .inr ⟨by simp, ?_⟩
    rw [List.cons_append, List.cons_append, List.flatten_cons, opens, List.cons_append]
    exact ⟨'F', _, rfl, .inl rfl⟩
  | nil =>
    cases failed : failureLines base r.results with
    | nil => exact .inl ⟨by simp, rfl⟩
    | cons line lines =>
      have member : line ∈ failureLines base r.results := by simp [failed]
      obtain ⟨result, -, here⟩ := List.mem_flatMap.1 member
      obtain ⟨f, -, rfl⟩ := List.mem_map.1 here
      obtain ⟨c, more, opens, capital⟩ := failureLine_opens base result f
      refine .inr ⟨by simp, ?_⟩
      rw [gap, if_pos (.inl rfl), List.nil_append, List.nil_append, List.flatten_cons, opens, List.cons_append]
      exact ⟨c, _, rfl, .inr capital⟩

/-- What is shown on a terminal ends in the number of files. -/
theorem text_closes (some_ : r.hasFailures = true) (base : Path) :
    ∃ front c, r.text base = front ++ [c, '\n'] ∧ (c = 'e' ∨ c = 's') := by
  have files (n : Nat) : ∃ front c, (Summary.counted n "file").toList = front ++ [c] ∧ (c = 'e' ∨ c = 's') := by
    rw [Summary.counted]
    split
    · exact ⟨(toString n).toList ++ " fil".toList, 'e', by simp; rfl, .inl rfl⟩
    · exact ⟨(toString n).toList ++ " file".toList, 's', by simp; rfl, .inr rfl⟩
  obtain ⟨front, c, closes, letter⟩ := files r.summary.files
  have sentence : ∃ start, r.summary.sentence.toList = start ++ (Summary.counted r.summary.files "file").toList := by
    have has : r.summary.hasFailures = true := some_
    simp only [Summary.sentence, has, if_true, String.toList_append]
    exact ⟨_, rfl⟩
  obtain ⟨start, ends⟩ := sentence
  obtain ⟨shown, whole⟩ : ∃ shown, r.text base = shown ++ r.summary.sentence.toList ++ ['\n'] :=
    ⟨_, by rw [text, if_pos some_]⟩
  refine ⟨shown ++ start ++ front, c, ?_, letter⟩
  rw [whole, ends, closes]
  simp only [List.append_assoc, List.cons_append, List.nil_append]

theorem json_opens (r : Report) (base : Path) : ∃ more, r.json base = '[' :: more := by
  rw [json, value, Json.Value.pretty, Json.bracketed]
  split <;> exact ⟨_, rfl⟩

/-! ## What is to be seen -/

theorem not_isAllBlank {t : Text} {c : Char} (member : c ∈ t) (sharp : Text.isBlank c = false) :
    t.isAllBlank = false := by
  rw [Text.isAllBlank, List.all_eq_false]
  exact ⟨c, member, by simp [sharp]⟩

/-- What has something to see is printed. -/
theorem output_of_seen {format : ReportFormat} {c : Char} (member : c ∈ r.render base format)
    (sharp : Text.isBlank c = false) : r.output base format = r.render base format := by
  simp [output, not_isAllBlank member sharp]

/-- Where nothing is to be seen, the fixed files are told, or the word of success is said. -/
theorem output_of_blank {format : ReportFormat} (blank : (r.render base format).isAllBlank = true)
    (clean : r.hasFailures = false) :
    r.output base format = if 0 < r.summary.fixed then r.prose base else success := by
  simp only [output, blank, clean, Bool.not_true, Bool.not_false, Bool.false_eq_true, if_false, if_true]
  rfl

theorem Tallies.isQuiet_iff (h : r.Tallies) : r.IsQuiet ↔ r.hasFailures = false ∧ ¬0 < r.summary.fixed := by
  rw [← Bool.not_eq_true, h.hasFailures_iff, h.fixed_pos_iff]
  simp [IsQuiet, FileResult.hasFailures, forall₂_and]

/-- The word of success ends in a period, what is shown on a terminal does not. -/
theorem text_ne_success (some_ : r.hasFailures = true) (base : Path) : r.text base ≠ success := by
  obtain ⟨front, c, closes, letter⟩ := text_closes some_ base
  intro same
  have period : success = "No lint errors found".toList ++ ['.', '\n'] := by decide
  rw [closes, period] at same
  obtain rfl : c = '.' := (List.cons.inj (List.append_inj_right' same rfl)).1
  revert letter
  decide

/-! ## The word of success -/

/-- What else is printed starts with another capital than the word of success. -/
theorem ne_success_of_opens {t more : Text} {c : Char} (opens : t = c :: more) (other : c ≠ 'N') : t ≠ success := by
  intro same
  rw [opens] at same
  exact other (List.cons.inj same).1

theorem output_json_ne (r : Report) (base : Path) : r.output base .json ≠ success := by
  obtain ⟨more, opens⟩ := json_opens r base
  have seen : r.output base .json = r.json base := output_of_seen (c := '[') (by simp [render, opens]) (by decide)
  rw [seen]
  exact ne_success_of_opens opens (by decide)

theorem Tallies.output_of_quiet (h : r.Tallies) (quiet : r.IsQuiet) (base : Path) {format : ReportFormat}
    (other : format ≠ .json) : r.output base format = success := by
  obtain ⟨clean, unfixed⟩ := h.isQuiet_iff.1 quiet
  have silent : r.render base format = [] := by
    cases format with
    | json => contradiction
    | text => rw [render, text, if_neg (by simp [clean])]
    | prose =>
      rcases prose_cases r base with ⟨-, nothing⟩ | ⟨loud, -⟩
      · exact nothing
      · contradiction
  rw [output_of_blank (by rw [silent]; rfl) clean, if_neg unfixed]

theorem Tallies.output_of_loud (h : r.Tallies) (loud : ¬r.IsQuiet) (base : Path) (format : ReportFormat) :
    r.output base format ≠ success := by
  obtain ⟨quiet, -⟩ | ⟨-, c, more, opens, capital⟩ := prose_cases r base
  · contradiction
  have sharp : Text.isBlank c = false ∧ c ≠ 'N' := by rcases capital with rfl | rfl | rfl <;> decide
  cases format with
  | json => exact output_json_ne r base
  | prose =>
    have seen : r.output base .prose = r.prose base := output_of_seen (c := c) (by simp [render, opens]) sharp.1
    rw [seen]
    exact ne_success_of_opens opens sharp.2
  | text =>
    cases has : r.hasFailures with
    | true =>
      obtain ⟨front, d, closes, letter⟩ := text_closes has base
      have visible : Text.isBlank d = false := by rcases letter with rfl | rfl <;> decide
      have seen : r.output base .text = r.text base := output_of_seen (c := d) (by simp [render, closes]) visible
      rw [seen]
      exact text_ne_success has base
    | false =>
      -- the terminal is silent about fixes, so the prose is printed
      have fixed : 0 < r.summary.fixed := by
        by_contra unfixed
        exact loud (h.isQuiet_iff.2 ⟨has, unfixed⟩)
      have silent : r.render base .text = [] := by rw [render, text, if_neg (by simp [has])]
      rw [output_of_blank (by rw [silent]; rfl) has, if_pos fixed]
      exact ne_success_of_opens opens sharp.2

/-- The word of success is said if there is nothing else to say. -/
theorem Tallies.output_eq_success_iff (h : r.Tallies) (base : Path) (format : ReportFormat) :
    r.output base format = success ↔ r.IsQuiet ∧ format ≠ .json := by
  constructor
  · intro said
    refine ⟨?_, ?_⟩
    · by_contra loud
      exact h.output_of_loud loud base format said
    · rintro rfl
      exact output_json_ne r base said
  · rintro ⟨quiet, other⟩
    exact h.output_of_quiet quiet base other

end Report

end ComponentLint
