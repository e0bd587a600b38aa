import ComponentLint.Lint.Diagnostic
import ComponentLint.Proofs.Text.Within

/-! Lines and columns. Positions grow along a text, and the position in a text that stands behind another one is found
from the position in it and the position where the other one ends. -/
namespace ComponentLint

namespace Position

variable {a b : Text}

/-- Line first, then column. -/
def Before (p q : Position) : Prop := p.line < q.line ∨ p.line = q.line ∧ p.column < q.column

/-- Where a position of a text is once the text starts at another position. -/
def beyond (start p : Position) : Position :=
  ⟨start.line + p.line - 1, if p.line = 1 then start.column + p.column - 1 else p.column⟩

theorem Before.ne {p q : Position} (h : p.Before q) : p ≠ q := by
  rintro rfl
  rcases h with line | ⟨-, column⟩ <;> omega

/-! ## Right after a text -/

theorem after_line (a : Text) : (after a).line = a.count '\n' + 1 := rfl

theorem after_line_eq_one_iff : (after a).line = 1 ↔ '\n' ∉ a := by
  rw [after_line, Nat.add_eq_right, List.count_eq_zero]

theorem reverse_ne_newline (absent : '\n' ∉ b) : ∀ c ∈ b.reverse, decide (c ≠ '\n') = true := by
  intro c member
  rw [decide_eq_true_eq]
  rintro rfl
  exact absent (List.mem_reverse.1 member)

/-- Within a line each character is one column. -/
theorem column_of_absent (absent : '\n' ∉ b) (a : Text) : (after (a ++ b)).column = (after a).column + b.length := by
  simp only [after]
  rw [List.reverse_append, List.takeWhile_append_of_pos (reverse_ne_newline absent), List.length_append,
    List.length_reverse]
  omega

/-- A line starts behind its line feed. -/
theorem column_behind (absent : '\n' ∉ b) (a : Text) : (after (a ++ '\n' :: b)).column = b.length + 1 := by
  simp only [after]
  rw [List.reverse_append, List.reverse_cons, List.append_assoc, List.singleton_append,
    List.takeWhile_append_of_pos (reverse_ne_newline absent), List.takeWhile_cons_of_neg (by simp), List.append_nil,
    List.length_reverse]

/-- Behind one text and another the position is that behind the other one, counted from where the first ends. -/
theorem after_append (a b : Text) : after (a ++ b) = (after a).beyond (after b) := by
  have lines : (after (a ++ b)).line = (after a).line + (after b).line - 1 := by
    rw [after_line, after_line, after_line, List.count_append]
    omega
  have columns : (after (a ++ b)).column =
      if (after b).line = 1 then (after a).column + (after b).column - 1 else (after b).column := by
    by_cases member : '\n' ∈ b
    · obtain ⟨late, early, split, absent⟩ := List.eq_append_cons_of_mem (List.mem_reverse.2 member)
      have last : '\n' ∉ late.reverse := by simpa using absent
      have parts : b = early.reverse ++ '\n' :: late.reverse := by
        rw [← List.reverse_reverse b, split]
        simp
      rw [if_neg fun first => after_line_eq_one_iff.1 first member, parts, column_behind last, ← List.append_assoc,
        column_behind last]
    · have first := column_of_absent member []
      rw [List.nil_append] at first
      have start : (after []).column = 1 := rfl
      rw [if_pos (after_line_eq_one_iff.2 member), column_of_absent member, first, start]
      omega
  rw [beyond, ← lines, ← columns]

/-- A line feed begins a line, and any other character takes a column. -/
theorem after_concat (a : Text) (c : Char) :
    after (a ++ [c]) = if c = '\n' then ⟨(after a).line + 1, 1⟩ else ⟨(after a).line, (after a).column + 1⟩ := by
  rw [after_append]
  by_cases newline : c = '\n'
  · subst newline
    rfl
  · have absent : '\n' ∉ [c] := by simpa using Ne.symm newline
    have one : after [c] = ⟨1, 2⟩ := by simp [after, newline]
    rw [if_neg newline, one]
    rfl

/-- Some more text is further on. -/
theorem after_before (a : Text) (some_ : b ≠ []) : (after a).Before (after (a ++ b)) := by
  rw [after_append]
  by_cases member : '\n' ∈ b
  · left
    have more : 0 < b.count '\n' := List.count_pos_iff.2 member
    rw [beyond, after_line b]
    dsimp only
    omega
  · right
    have first := column_of_absent member []
    have longer : 0 < b.length := List.length_pos_iff.2 some_
    have start : (after []).column = 1 := rfl
    rw [List.nil_append, start] at first
    have one := after_line_eq_one_iff.2 member
    rw [beyond, if_pos one, one, first]
    dsimp only
    omega

/-- No number of a position exceeds the size of the text by more than one. -/
theorem after_le (a : Text) : (after a).line ≤ a.byteSize + 1 ∧ (after a).column ≤ a.byteSize + 1 := by
  have size := Text.length_le_byteSize a
  have lines := List.count_le_length (a := '\n') (l := a)
  have columns := (a.reverse.takeWhile_prefix (· ≠ '\n')).length_le
  rw [List.length_reverse] at columns
  exact ⟨by rw [after_line]; omega, by simp only [after]; omega⟩

/-! ## At an offset -/

theorem ofOffset_boundary (a b : Text) : ofOffset (a ++ b) a.byteSize = after a := by
  rw [ofOffset, Text.within_boundary]

theorem ofOffset_past {text : Text} {offset : Nat} (past : text.byteSize ≤ offset) : ofOffset text offset = after text := by
  rw [ofOffset, Text.within_all past]

theorem ofOffset_inside (a b : Text) {c : Char} {k : Nat} (inside : k < c.utf8Size) :
    ofOffset (a ++ c :: b) (a.byteSize + k) = after a := by
  rw [ofOffset, Text.within_inside a b inside]

theorem ofOffset_append (a b : Text) (offset : Nat) :
    ofOffset (a ++ b) (a.byteSize + offset) = (after a).beyond (ofOffset b offset) := by
  rw [ofOffset, Text.within_append, after_append, ofOffset]

theorem ofOffset_before {text : Text} {m n : Nat} (first : text.isBoundary m = true) (second : text.isBoundary n = true)
    (less : m < n) : (ofOffset text m).Before (ofOffset text n) := by
  obtain ⟨a, b, rfl, rfl⟩ := Text.isBoundary_iff.1 first
  obtain ⟨a', b', same, rfl⟩ := Text.isBoundary_iff.1 second
  obtain ⟨middle, rfl, -⟩ := Text.cut_append same.symm (Nat.le_of_lt less)
  have some_ : middle ≠ [] := by
    rintro rfl
    simp at less
  rw [ofOffset_boundary, same, ofOffset_boundary]
  exact after_before a some_

theorem ofOffset_injective {text : Text} {m n : Nat} (first : text.isBoundary m = true)
    (second : text.isBoundary n = true) (same : ofOffset text m = ofOffset text n) : m = n := by
  rcases Nat.lt_trichotomy m n with less | equal | more
  · exact absurd same (ofOffset_before first second less).ne
  · exact equal
  · exact absurd same.symm (ofOffset_before second first more).ne

/-- In a document, a place of the script is that place behind what stands in front of the script. -/
theorem ofOffset_slice {document script : Text} {offset k : Nat}
    (stands : document.slice? ⟨offset, offset + script.byteSize⟩ = some script) (inside : k ≤ script.byteSize) :
    ofOffset document (k + offset) = (ofOffset document offset).beyond (ofOffset script k) := by
  obtain ⟨before, behind, rfl, rfl, -⟩ := Text.slice?_eq_some_iff.1 stands
  rw [Nat.add_comm, ofOffset_append, ofOffset_boundary, ofOffset, Text.within_front inside, ofOffset]

/-- Positions begin at the first line and column; a line feed begins a line, and any other character takes a column. So
they grow with the boundaries of a text, line first, and no two boundaries have the same. An offset inside a character
counts as its start, and one past the end as the end. Behind another text a position is counted from the end of that text,
so what is found in a script is placed in the document where the script has it; and the numbers of a position are
bounded by the size of the text. -/
theorem ofOffset_faithful (text : Text) :
    ofOffset text 0 = ⟨1, 1⟩ ∧
    (∀ (a : Text) c b, text = a ++ c :: b → ofOffset text (a.byteSize + c.utf8Size) =
      if c = '\n' then ⟨(ofOffset text a.byteSize).line + 1, 1⟩
      else ⟨(ofOffset text a.byteSize).line, (ofOffset text a.byteSize).column + 1⟩) ∧
    (∀ m n, text.isBoundary m = true → text.isBoundary n = true →
      (m < n → (ofOffset text m).Before (ofOffset text n)) ∧ (ofOffset text m = ofOffset text n → m = n)) ∧
    (∀ (a : Text) c b k, text = a ++ c :: b → k < c.utf8Size → ofOffset text (a.byteSize + k) = ofOffset text a.byteSize) ∧
    (∀ offset, text.byteSize ≤ offset → ofOffset text offset = ofOffset text text.byteSize) ∧
    (∀ b k, let p := ofOffset text text.byteSize
      let q := ofOffset b k
      ofOffset (text ++ b) (text.byteSize + k) =
        ⟨p.line + q.line - 1, if q.line = 1 then p.column + q.column - 1 else q.column⟩) ∧
    (∀ script offset (d : Diagnostic), text.slice? ⟨offset, offset + script.byteSize⟩ = some script →
      d.span.start ≤ script.byteSize → d.span.stop ≤ script.byteSize →
      (Failure.ofDiagnostic text offset d).first = (ofOffset text offset).beyond (ofOffset script d.span.start) ∧
      (Failure.ofDiagnostic text offset d).last = (ofOffset text offset).beyond (ofOffset script d.span.stop)) ∧
    ∀ offset, (ofOffset text offset).line ≤ text.byteSize + 1 ∧ (ofOffset text offset).column ≤ text.byteSize + 1 := by
  have whole : ofOffset text text.byteSize = after text := ofOffset_past (Nat.le_refl _)
  refine ⟨?_, ?_, fun m n first second => ⟨ofOffset_before first second, ofOffset_injective first second⟩, ?_,
    fun offset past => by rw [ofOffset_past past, whole], fun b k => ?_, fun script offset d stands start stop =>
    ⟨ofOffset_slice stands start, ofOffset_slice stands stop⟩, fun offset => ?_⟩
  · rw [ofOffset, Text.within_zero]
    rfl
  · rintro a c b rfl
    have next : a.byteSize + c.utf8Size = Text.byteSize (a ++ [c]) := by simp
    have regroup : a ++ c :: b = (a ++ [c]) ++ b := by simp
    rw [next, ofOffset_boundary, regroup, ofOffset_boundary, after_concat]
  · rintro a c b k rfl inside
    rw [ofOffset_inside a b inside, ofOffset_boundary]
  · rw [whole]
    exact ofOffset_append text b k
  · obtain ⟨line, column⟩ := after_le (text.within offset)
    have size := Text.byteSize_within_le text offset
    rw [ofOffset]
    omega

theorem ofOffset_faithful_component :
    let script : Text := "\nlet é\n= b".toList
    let document : Text := "<p>é</p>\n<script>".toList ++ (script ++ "</script>".toList)
    let d : Diagnostic := { rule := "", severity := .error, message := "", span := ⟨5, 7⟩ }
    document.slice? ⟨18, 18 + script.byteSize⟩ = some script ∧ d.span.start ≤ script.byteSize ∧
      d.span.stop ≤ script.byteSize ∧ document.isBoundary 23 = true ∧ document.isBoundary 25 = true ∧
      (ofOffset document 23).Before (ofOffset document 25) ∧ ofOffset document 24 = ofOffset document 23 ∧
      ofOffset document 25 = ⟨(ofOffset document 23).line, (ofOffset document 23).column + 1⟩ ∧
      ofOffset document 90 = ofOffset document document.byteSize ∧
      ofOffset document 18 = ⟨2, 9⟩ ∧ ofOffset script 5 = ⟨2, 5⟩ ∧
      (Failure.ofDiagnostic document 18 d).first = ⟨3, 5⟩ ∧ (Failure.ofDiagnostic document 18 d).last = ⟨3, 6⟩ := by
  intro script document d
  obtain ⟨-, steps, grows, inside, past, -, placed, -⟩ := ofOffset_faithful document
  have stands : document.slice? ⟨18, 18 + script.byteSize⟩ = some script := by decide +kernel
  have start : d.span.start ≤ script.byteSize := by decide
  have stop : d.span.stop ≤ script.byteSize := by decide
  obtain ⟨first, last⟩ := placed script 18 d stands start stop
  have bound : document.isBoundary 23 = true := by decide +kernel
  have bound' : document.isBoundary 25 = true := by decide +kernel
  have split : document = "<p>é</p>\n<script>\nlet ".toList ++ 'é' :: "\n= b</script>".toList := by decide
  refine ⟨stands, start, stop, bound, bound', (grows 23 25 bound bound').1 (by decide), inside _ _ _ 1 split (by decide),
    steps _ _ _ split, past 90 (by decide +kernel), by decide +kernel, by decide +kernel, ?_, ?_⟩
  · rw [first]
    decide +kernel
  · rw [last]
    decide +kernel

end Position

end ComponentLint
