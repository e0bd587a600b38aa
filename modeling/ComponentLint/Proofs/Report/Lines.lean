import ComponentLint.Report.Format
import ComponentLint.Proofs.Path.Normal
import ComponentLint.Proofs.Report.Tally
import ComponentLint.Proofs.Text.Lines

/-! The lines of a report in prose: one for each result with fixes, an empty one, and one for each failure. They come
apart again at the line feeds, for there is none in what is shown of a path, in a number or in a message. -/
namespace ComponentLint

namespace Path

variable {p : Path} {x : Component} {c : Char}

theorem mem_chars_of_component (member : x ∈ p.components) (inside : c ∈ x.chars) :
    c ∈ p.chars ∨ c = '.' ∨ c = '/' := by
  obtain ⟨steps, -, rfl, forms⟩ := components_cases p
  have cases : x = .root ∨ x = .current ∨ x ∈ (p.chars.splitOn '/').filterMap Component.ofSegment? := by
    rcases forms with ⟨-, rooted⟩ | ⟨-, dotted | plain⟩
    · rw [rooted, List.mem_cons] at member
      exact member.imp_right .inr
    · rw [dotted, List.mem_cons] at member
      exact .inr member
    · exact .inr (.inr (plain ▸ member))
  rcases cases with rfl | rfl | among
  · exact .inr (.inr (by simpa [Component.chars] using inside))
  · exact .inr (.inl (by simpa [Component.chars] using inside))
  · obtain ⟨s, piece, segment⟩ := List.mem_filterMap.1 among
    rcases Component.ofSegment?_cases (Text.absent_of_mem_splitOn piece) segment with ⟨rfl, -⟩ | ⟨rfl, -⟩
    · exact .inr (.inl (by simpa [Component.chars] using inside))
    · exact .inl (Text.mem_of_mem_splitOn piece inside)

theorem mem_chars_of_ofComponents {cs : List Component} (inside : c ∈ (ofComponents cs).chars) :
    c = '/' ∨ ∃ x ∈ cs, c ∈ x.chars := by
  have joined {steps : List Component} (among : c ∈ Text.join ['/'] (steps.map Component.chars)) :
      c = '/' ∨ ∃ x ∈ steps, c ∈ x.chars := by
    simpa using Text.mem_join among
  rw [ofComponents.eq_def] at inside
  split at inside
  · rcases List.mem_cons.1 inside with slash | among
    · exact .inl slash
    · rcases joined among with slash | ⟨x, member, here⟩
      · exact .inl slash
      · exact .inr ⟨x, by simp [member], here⟩
  · exact joined inside

end Path

/-- There is no line feed in the path and in the messages. -/
structure FileResult.IsFlat (r : FileResult) : Prop where
  path : '\n' ∉ r.path.chars
  messages : ∀ f ∈ r.failures, '\n' ∉ f.message.toList

instance (r : FileResult) : Decidable r.IsFlat :=
  decidable_of_iff ('\n' ∉ r.path.chars ∧ ∀ f ∈ r.failures, '\n' ∉ f.message.toList)
    ⟨fun ⟨path, messages⟩ => ⟨path, messages⟩, fun ⟨path, messages⟩ => ⟨path, messages⟩⟩

namespace Report

variable {base : Path} {r : FileResult} {f : Failure}

theorem shownPath_flat {p : Path} (flat : '\n' ∉ p.chars) : '\n' ∉ (shownPath base p).toList := by
  rw [shownPath, Path.relativeTo?]
  split
  · intro feed
    have inside : '\n' ∈ (Path.ofComponents (p.components.drop base.components.length)).chars := by
      simpa [Path.toString] using feed
    obtain ⟨x, member, here⟩ := (Path.mem_chars_of_ofComponents inside).resolve_left (by decide)
    rcases Path.mem_chars_of_component (List.mem_of_mem_drop member) here with among | other
    · exact flat among
    · exact absurd other (by decide)
  · simpa [Path.toString] using flat

theorem repr_flat (n : Nat) : '\n' ∉ (toString n).toList := by
  intro member
  have digits : '\n' ∈ Nat.toDigits 10 n := by rwa [← Nat.toList_repr]
  exact absurd (Nat.isDigit_of_mem_toDigits (by decide) (by decide) digits) (by decide)

theorem isEnded_flatten {pieces : List Text} (flat : ∀ piece ∈ pieces, '\n' ∉ piece) :
    Text.IsEnded (pieces.flatten ++ ['\n']) := by
  refine ⟨pieces.flatten, rfl, fun feed => ?_⟩
  obtain ⟨piece, member, here⟩ := List.mem_flatten.1 feed
  exact flat piece member here

theorem fixedLine_ended (flat : r.IsFlat) : Text.IsEnded (fixedLine base r).toList := by
  have pieces : (fixedLine base r).toList = ["Fixed ".toList, (toString r.fixesApplied).toList, " error(s) in ".toList,
      (shownPath base r.path).toList].flatten ++ ['\n'] := by
    simp only [fixedLine, String.toList_append, List.flatten_cons, List.flatten_nil, List.append_assoc]
    rfl
  rw [pieces]
  refine isEnded_flatten ?_
  simp only [List.forall_mem_cons]
  exact ⟨by decide, repr_flat _, by decide, shownPath_flat flat.path, by simp⟩

theorem failureLine_ended (flat : r.IsFlat) (member : f ∈ r.failures) :
    Text.IsEnded (failureLine base r f).toList := by
  have pieces : (failureLine base r f).toList = [(severityWord f.severity).toList, ": ".toList,
      (shownPath base r.path).toList, "[".toList, (toString f.first.line).toList, ", ".toList,
      (toString f.first.column).toList, "]: ".toList, f.message.toList].flatten ++ ['\n'] := by
    simp only [failureLine, String.toList_append, List.flatten_cons, List.flatten_nil, List.append_assoc]
    rfl
  have word : '\n' ∉ (severityWord f.severity).toList := by cases f.severity <;> decide
  rw [pieces]
  refine isEnded_flatten ?_
  simp only [List.forall_mem_cons]
  exact ⟨word, by decide, shownPath_flat flat.path, by decide, repr_flat _, by decide, repr_flat _, by decide,
    flat.messages f member, by simp⟩

/-- The lines of the results with fixes. -/
def fixedLines (base : Path) (results : List FileResult) : List Text :=
  (results.filter fun r => 0 < r.fixesApplied).map fun r => (fixedLine base r).toList

/-- The lines of all failures. -/
def failureLines (base : Path) (results : List FileResult) : List Text :=
  results.flatMap fun r => r.failures.map fun f => (failureLine base r f).toList

/-- The empty line between two groups of lines. -/
def gap (above below : List Text) : List Text := if above = [] ∨ below = [] then [] else [['\n']]

theorem map_gap (above below : List String) :
    (if above = [] || below = [] then [] else ["\n"]).map String.toList =
      gap (above.map String.toList) (below.map String.toList) := by
  by_cases none_ : above = [] ∨ below = []
  · rw [gap, if_pos (by simpa using none_), if_pos (by simpa using none_)]
    rfl
  · rw [gap, if_neg (by simpa using none_), if_neg (by simpa using none_)]
    rfl

theorem prose_eq (r : Report) (base : Path) :
    r.prose base = (fixedLines base r.results ++ gap (fixedLines base r.results) (failureLines base r.results) ++
      failureLines base r.results).flatten := by
  let failed := r.failures.map fun found => failureLine base found.1 found.2
  let fixed := (r.results.filter fun result => 0 < result.fixesApplied).map (fixedLine base)
  have below : failed.map String.toList = failureLines base r.results := by
    simp [failed, failures, failureLines, List.map_flatMap, Function.comp_def]
  have above : fixed.map String.toList = fixedLines base r.results := List.map_map
  change (String.join (fixed ++ (if fixed = [] || failed = [] then [] else ["\n"]) ++ failed)).toList = _
  rw [String.toList_join, List.flatMap_def, List.map_append, List.map_append, map_gap, below, above]

theorem lines_prose {r : Report} (flat : ∀ result ∈ r.results, result.IsFlat) (base : Path) :
    Text.lines (r.prose base) = fixedLines base r.results ++
      gap (fixedLines base r.results) (failureLines base r.results) ++ failureLines base r.results := by
  rw [prose_eq]
  refine (Text.AreLines.of_ended fun line member => ?_).lines_flatten
  rcases List.mem_append.1 member with front | failure
  · rcases List.mem_append.1 front with fixed | between
    · obtain ⟨result, among, rfl⟩ := List.mem_map.1 fixed
      exact fixedLine_ended (flat result (List.mem_filter.1 among).1)
    · rw [gap] at between
      split at between
      · simp at between
      · obtain rfl := List.mem_singleton.1 between
        exact ⟨[], rfl, by simp⟩
  · obtain ⟨result, among, here⟩ := List.mem_flatMap.1 failure
    obtain ⟨f, inside, rfl⟩ := List.mem_map.1 here
    exact failureLine_ended (flat result among) inside

end Report

end ComponentLint
