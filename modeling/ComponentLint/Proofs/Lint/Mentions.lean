import ComponentLint.Proofs.Lint.ImportRepair
import ComponentLint.Proofs.Text.Words
import ComponentLint.Lint.Linter

/-! Imports that the markup mentions. They are not reported, neither by name nor with the whole of their declaration. What
the search passes over, though, is no mention: an import is taken away even if its name stands in the markup as a word
of its own, where it begins within another occurrence of the name. -/
namespace ComponentLint.UnusedImports

open TypeScript

variable {uses : List Text} {parts : List Text} {source : Text} {d : ImportDeclaration} {a b : ImportBinding}
  {r : Remark} {s : Subject}

def wholeMessage : String := "All imports in import declaration are unused."

theorem message_chars (b : ImportBinding) :
    (message b).toList = "'".toList ++ b.localName ++ "' is declared but its value is never read.".toList := by
  simp [message, toString]

theorem message_injective (same : message a = message b) : a.localName = b.localName := by
  have chars := congrArg String.toList same
  rw [message_chars, message_chars] at chars
  exact List.append_cancel_left (List.append_cancel_right chars)

theorem message_ne_wholeMessage (b : ImportBinding) : message b ≠ wholeMessage := by
  intro same
  have chars := congrArg String.toList same
  rw [message_chars] at chars
  simp [wholeMessage] at chars

theorem isUsed_congr (same : a.localName = b.localName) : isUsed uses parts a = isUsed uses parts b := by
  rw [isUsed, isUsed, same]

theorem isUsed_of_mentions (uses : List Text) {part : Text} (inMarkup : part ∈ parts)
    (mentioned : Text.mentions b.localName part = true) : isUsed uses parts b = true := by
  rw [isUsed, Bool.or_eq_true]
  exact .inr (List.any_eq_true.2 ⟨part, inMarkup, mentioned⟩)

/-- A remark on a declaration is on the whole of it, with nothing used, or names a binding that is not used. -/
theorem message_of_mem_remarks {used : ImportBinding → Bool} (member : r ∈ remarks source used d) :
    (r.message = wholeMessage ∧ ∀ b ∈ d.bindings, used b = false) ∨
      ∃ b ∈ d.bindings, used b = false ∧ r.message = message b := by
  rcases remarks_cases source used d with ⟨-, none_⟩ | ⟨all, -, whole⟩ | ⟨first, rest, unused, each⟩
  · simp [none_] at member
  · rw [whole, List.mem_singleton] at member
    exact .inl ⟨by rw [member]; rfl, all⟩
  · right
    have named : ∃ b ∈ first :: rest, r.message = message b := by
      rw [each] at member
      rcases List.mem_cons.1 member with rfl | later
      · exact ⟨first, List.mem_cons_self .., rfl⟩
      · obtain ⟨b, inside, rfl⟩ := List.mem_map.1 later
        exact ⟨b, List.mem_cons_of_mem _ inside, rfl⟩
    obtain ⟨b, inside, text⟩ := named
    rw [← unused] at inside
    obtain ⟨inD, free⟩ := List.mem_filter.1 inside
    exact ⟨b, inD, by simpa using free, text⟩

theorem not_whole_of_used {used : ImportBinding → Bool} (inD : b ∈ d.bindings) (isUsed : used b = true)
    (member : r ∈ remarks source used d) : r.message ≠ wholeMessage := by
  rcases message_of_mem_remarks member with ⟨-, all⟩ | ⟨a, -, -, names⟩
  · rw [all b inD] at isUsed
    contradiction
  · rw [names]
    exact message_ne_wholeMessage a

theorem not_named_of_used (used : isUsed s.script.outline.uses (markup s.unit) b = true) (member : r ∈ check s) :
    r.message ≠ message b := by
  obtain ⟨d, -, inRemarks⟩ := List.mem_flatMap.1 member
  rcases message_of_mem_remarks inRemarks with ⟨whole, -⟩ | ⟨a, -, free, names⟩
  · rw [whole]
    exact (message_ne_wholeMessage b).symm
  · rw [names]
    intro same
    rw [isUsed_congr (message_injective same), used] at free
    contradiction

/-- The search finds a word where it stands apart and does not begin within an occurrence that was found before. Whatever
the text, it finds the word if it stands there, exactly if the word does not begin anew: a name of word characters does
not, and its hyphenated spelling does exactly if a part of the name, from a capital on, is spelled as the name begins. A
name is mentioned where it or that spelling is found, so wherever one of them stands that does not begin anew. Then
nothing reports the import, by its name or with its declaration. -/
theorem mentioned_unreported (word : Text) :
    (∀ text, Text.containsWord word text = true ↔
      ∃ before after, text = before ++ (word ++ after) ∧ Text.Found word text before ∧ Text.Apart before after) ∧
    ((∀ text, Text.containsWord word text = true ↔ Text.Stands word text) ↔ ¬Text.Restarts word) ∧
    ((∀ c ∈ word, Text.isWordChar c = true) → ¬Text.Restarts word ∧
      (Text.Restarts (Text.kebab word) ↔ ∃ front back, word = front ++ back ∧ front ≠ [] ∧
        back.head?.any Char.isUpper = true ∧ Text.kebab back <+: Text.kebab word)) ∧
    (∀ text, Text.mentions word text = true ↔
      ∃ spelling ∈ [word, Text.kebab word], Text.containsWord spelling text = true) ∧
    (∀ text, ∀ spelling ∈ [word, Text.kebab word], Text.Stands spelling text → ¬Text.Restarts spelling →
      Text.mentions word text = true) ∧
    ∀ s : Subject, ∀ d ∈ s.script.imports, ∀ b ∈ d.bindings, b.localName = word →
      (∃ part ∈ markup s.unit, Text.mentions word part = true) →
        (∀ r ∈ remarks s.source (isUsed s.script.outline.uses (markup s.unit)) d, r.message ≠ wholeMessage) ∧
          ∀ r ∈ check s, r.message ≠ message b := by
  refine ⟨fun text => Text.containsWord_iff, Text.misses_nothing_iff,
    fun all => ⟨Text.not_restarts_of_wordChars all, Text.restarts_kebab_iff all⟩, fun text => Text.mentions_iff,
    fun text spelling among stands whole => ?_, ?_⟩
  · exact Text.mentions_iff.2 ⟨spelling, among, Text.containsWord_of_stands whole stands⟩
  · rintro s d - b inD rfl ⟨part, inMarkup, mentioned⟩
    have used := isUsed_of_mentions s.script.outline.uses inMarkup mentioned
    exact ⟨fun r member => not_whole_of_used inD used member, fun r member => not_named_of_used used member⟩

/-- The markup has the hyphenated name behind a letter and then on its own. It begins anew, and still it is found. -/
theorem mentioned_unreported_component :
    let name : Text := "TabTab".toList
    let front : Text := "<template>\n<subtab-tab/> <tab-tab/>\n</template>\n<script lang=\"ts\">".toList
    let text : Text := "\nimport TabTab, \x7b ref \x7d from './m'\n".toList
    let u : SourceUnit :=
      ⟨⟨"/a.vue".toList⟩, text, .ts, some ⟨front ++ text ++ "</script>\n".toList, front.byteSize⟩⟩
    let s : Subject := ⟨text, u, none, .ofText .ts text⟩
    ¬Text.Restarts name ∧ Text.Restarts (Text.kebab name) ∧
      Text.Stands name "<TabTab/>".toList ∧ Text.mentions name "<TabTab/>".toList = true ∧
      (∃ before after, front = before ++ (Text.kebab name ++ after) ∧ Text.Found (Text.kebab name) front before ∧
        Text.Apart before after) ∧
      front ∈ markup s.unit ∧ Text.mentions name front = true ∧
      (s.script.imports.map fun d => d.bindings.map (·.localName)) = [[name, "ref".toList]] ∧
      (∀ d ∈ s.script.imports, ∀ b ∈ d.bindings, b.localName = name →
        (∀ r ∈ remarks s.source (isUsed s.script.outline.uses (markup s.unit)) d, r.message ≠ wholeMessage) ∧
          ∀ r ∈ check s, r.message ≠ message b) ∧
      (check s).map (·.message) = ["'ref' is declared but its value is never read."] := by
  intro name front text u s
  obtain ⟨-, -, spelled, mentions, stood, unreported⟩ := mentioned_unreported name
  obtain ⟨found, -⟩ := mentioned_unreported (Text.kebab name)
  obtain ⟨plain, hyphenated⟩ := spelled (List.all_eq_true.1 (by decide +kernel))
  have stands : Text.Stands name "<TabTab/>".toList := ⟨['<'], "/>".toList, by decide +kernel, by decide +kernel⟩
  have inMarkup : front ∈ markup s.unit := by decide +kernel
  have hit : Text.containsWord (Text.kebab name) front = true := by decide +kernel
  have mentioned : Text.mentions name front = true := (mentions front).2 ⟨_, by simp, hit⟩
  refine ⟨plain, hyphenated.2 ⟨"Tab".toList, "Tab".toList, by decide +kernel⟩, stands,
    stood _ name (List.mem_cons_self ..) stands plain, (found front).1 hit, inMarkup, mentioned,
    by decide +kernel, fun d inS b inD same => ?_, by decide +kernel⟩
  exact unreported s d inS b inD same ⟨front, inMarkup, mentioned⟩

/-- A word of its own that begins within another occurrence is passed over, and the import that it mentions is deleted. -/
theorem standing_word_passed_over :
    let name : Text := "TabTab".toList
    let front : Text := "<template>\n<subtab-tab-tab/>\n</template>\n<script lang=\"ts\">".toList
    let text : Text := "\nimport TabTab from './TabTab.vue'\nexport default \x7b\x7d\n".toList
    let u : SourceUnit :=
      ⟨⟨"/a.vue".toList⟩, text, .ts, some ⟨front ++ text ++ "</script>\n".toList, front.byteSize⟩⟩
    let l : Linter := { rules := [rule] }
    (¬∀ word text : Text, word ≠ [] → (Text.containsWord word text = true ↔ Text.Stands word text)) ∧
      front ∈ markup u ∧ Text.Stands (Text.kebab name) front ∧ Text.mentions name front = false ∧
      (check ⟨text, u, none, .ofText .ts text⟩).map (·.message) =
        ["'TabTab' is declared but its value is never read."] ∧
      (l.lintUnit none u).written = some "\nexport default \x7b\x7d\n".toList := by
  intro name front text u l
  have stands : Text.Stands (Text.kebab name) front :=
    ⟨"<template>\n<subtab-".toList, "/>\n</template>\n<script lang=\"ts\">".toList, by decide +kernel, by decide +kernel⟩
  have missed : Text.containsWord (Text.kebab name) front = false := by decide +kernel
  refine ⟨fun whole => ?_, by decide +kernel, stands, by decide +kernel, by decide +kernel, by decide +kernel⟩
  rw [(whole (Text.kebab name) front (by decide +kernel)).2 stands] at missed
  contradiction

end ComponentLint.UnusedImports
