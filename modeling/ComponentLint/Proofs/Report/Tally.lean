import ComponentLint.Report.Basic
import Mathlib.Algebra.GroupWithZero.Nat

/-! The counts of a report. They are kept while results are pushed, and what carries them is that each push adds what the
pushed result has: the counts of a report are always those of its results. -/
namespace ComponentLint

namespace Summary

theorem foldl_addFailure (failures : List Failure) (s : Summary) :
    failures.foldl addFailure s = { s with
      errors := s.errors + failures.countP (·.severity = .error)
      warnings := s.warnings + failures.countP (·.severity = .warning) } := by
  induction failures generalizing s with
  | nil => rfl
  | cons f failures ih =>
    rw [List.foldl_cons, ih, addFailure]
    cases severity : f.severity <;> simp [severity] <;> omega

end Summary

namespace Report

/-- The failures of all results in order. -/
def allFailures (results : List FileResult) : List Failure := results.flatMap (·.failures)

/-- The counts are those of the results. -/
structure Tallies (r : Report) : Prop where
  errors : r.summary.errors = (allFailures r.results).countP (·.severity = .error)
  warnings : r.summary.warnings = (allFailures r.results).countP (·.severity = .warning)
  fixed : r.summary.fixed = (r.results.map (·.fixesApplied)).sum
  files : r.summary.files = r.results.length

theorem empty_tallies : Tallies {} := ⟨rfl, rfl, rfl, rfl⟩

theorem Tallies.push {r : Report} (h : r.Tallies) (result : FileResult) : (r.push result).Tallies := by
  constructor <;>
    simp [Report.push, Summary.addResult, Summary.foldl_addFailure, allFailures, h.errors, h.warnings, h.fixed, h.files]

theorem foldl_push_tallies {r : Report} (h : r.Tallies) (results : List FileResult) :
    (results.foldl Report.push r).Tallies := by
  induction results generalizing r with
  | nil => exact h
  | cons result results ih => exact ih (h.push result)

theorem ofResults_tallies (results : List FileResult) : (ofResults results).Tallies :=
  foldl_push_tallies empty_tallies results

theorem foldl_push (results : List FileResult) (r : Report) :
    (results.foldl Report.push r).results = r.results ++ results := by
  induction results generalizing r with
  | nil => simp
  | cons result results ih =>
    rw [List.foldl_cons, ih]
    simp [Report.push]

theorem ofResults_results (results : List FileResult) : (ofResults results).results = results := foldl_push results {}

section Views

variable {r : Report}

/-- Every failure is an error or a warning. -/
theorem Tallies.length_eq (h : r.Tallies) : r.summary.errors + r.summary.warnings = (allFailures r.results).length := by
  have others (f : Failure) : decide (f.severity = .warning) = !decide (f.severity = .error) := by
    cases f.severity <;> rfl
  rw [h.errors, h.warnings, List.length_eq_countP_add_countP fun f : Failure => decide (f.severity = .error)]
  simp only [others, Bool.not_eq_true, Bool.decide_eq_false]

theorem Tallies.hasFailures_iff (h : r.Tallies) :
    r.hasFailures = true ↔ ∃ result ∈ r.results, result.hasFailures = true := by
  rw [Report.hasFailures, Summary.hasFailures, decide_eq_true_eq, h.length_eq, List.length_pos_iff, allFailures]
  simp [FileResult.hasFailures]

theorem Tallies.fixed_pos_iff (h : r.Tallies) :
    0 < r.summary.fixed ↔ ∃ result ∈ r.results, 0 < result.fixesApplied := by
  rw [h.fixed, List.sum_pos_iff_exists_pos_nat]
  constructor
  · rintro ⟨_, among, positive⟩
    obtain ⟨result, member, rfl⟩ := List.mem_map.1 among
    exact ⟨result, member, positive⟩
  · rintro ⟨result, member, positive⟩
    exact ⟨_, List.mem_map_of_mem member, positive⟩

end Views

end Report

end ComponentLint
