import ComponentLint.Text.Basic

/-! Pieces of a text between byte offsets, and the offsets of characters. What is cut out of a piece is cut out of
the whole text, further on by what stands before the piece. -/
namespace ComponentLint.Text

@[simp] theorem byteSize_eq_zero_iff {t : Text} : byteSize t = 0 ↔ t = [] := by
  cases t with
  | nil => simp
  | cons c t =>
    have positive := Char.utf8Size_pos c
    simp; omega

/-- Of two beginnings of a text the shorter is a beginning of the longer. -/
theorem cut_append {a b front rest : Text} (same : front ++ rest = a ++ b) (long : byteSize a ≤ byteSize front) :
    ∃ middle, front = a ++ middle ∧ b = middle ++ rest := by
  rcases List.append_eq_append_iff.1 same with ⟨more, rfl, rfl⟩ | ⟨more, rfl, rfl⟩
  · have empty : more = [] := by
      rw [← byteSize_eq_zero_iff]
      rw [byteSize_append] at long
      omega
    subst more
    exact ⟨[], by simp, by simp⟩
  · exact ⟨more, rfl, rfl⟩

theorem slice?_eq_some_iff {t piece : Text} {s : Span} :
    slice? t s = some piece ↔ ∃ before after, t = before ++ (piece ++ after) ∧ byteSize before = s.start ∧
      byteSize (before ++ piece) = s.stop := by
  rw [slice?]
  constructor
  · intro h
    obtain ⟨⟨front, after⟩, cut, h⟩ := Option.bind_eq_some_iff.1 h
    obtain ⟨⟨before, piece'⟩, again, h⟩ := Option.bind_eq_some_iff.1 h
    obtain rfl := Option.some.inj h
    obtain ⟨rfl, stop⟩ := eq_append_of_splitAt? cut
    obtain ⟨rfl, start⟩ := eq_append_of_splitAt? again
    exact ⟨before, after, by simp, start, stop⟩
  · rintro ⟨before, after, rfl, start, stop⟩
    have cut : splitAt? s.stop (before ++ (piece ++ after)) = some (before ++ piece, after) :=
      splitAt?_eq_some_iff.2 ⟨by simp, stop⟩
    have again : splitAt? s.start (before ++ piece) = some (before, piece) := splitAt?_eq_some_iff.2 ⟨rfl, start⟩
    simp [cut, again]

theorem slice?_append (before piece after : Text) :
    slice? (before ++ (piece ++ after)) ⟨byteSize before, byteSize before + byteSize piece⟩ = some piece :=
  slice?_eq_some_iff.2 ⟨before, after, rfl, rfl, byteSize_append ..⟩

/-- A piece that falls into two is cut in two. -/
theorem slice?_split {t a b : Text} {s : Span} (h : slice? t s = some (a ++ b)) :
    slice? t ⟨s.start, s.start + byteSize a⟩ = some a ∧ slice? t ⟨s.start + byteSize a, s.stop⟩ = some b := by
  obtain ⟨before, after, split, start, stop⟩ := slice?_eq_some_iff.1 h
  refine ⟨slice?_eq_some_iff.2 ⟨before, b ++ after, ?_, start, ?_⟩, slice?_eq_some_iff.2 ⟨before ++ a, after, ?_, ?_, ?_⟩⟩
  · rw [split, List.append_assoc]
  · rw [byteSize_append, start]
  · rw [split, List.append_assoc, List.append_assoc]
  · rw [byteSize_append, start]
  · rw [← stop, List.append_assoc]

/-- The end of a piece is cut out in front of where the piece stops. -/
theorem slice?_suffix {t piece last : Text} {s : Span} (h : slice? t s = some piece) (ends : last <:+ piece) :
    slice? t ⟨s.stop - byteSize last, s.stop⟩ = some last := by
  obtain ⟨front, rfl⟩ := ends
  obtain ⟨before, after, split, -, stop⟩ := slice?_eq_some_iff.1 h
  rw [← List.append_assoc, byteSize_append] at stop
  refine slice?_eq_some_iff.2 ⟨before ++ front, after, ?_, ?_, ?_⟩
  · rw [split, List.append_assoc, List.append_assoc]
  · rw [← stop, Nat.add_sub_cancel]
  · rw [byteSize_append, stop]

/-- A piece is cut at boundaries of the text. -/
theorem isBoundary_of_slice? {t piece : Text} {s : Span} (h : slice? t s = some piece) :
    isBoundary s.start t = true ∧ isBoundary s.stop t = true := by
  obtain ⟨before, after, split, start, stop⟩ := slice?_eq_some_iff.1 h
  have first : splitAt? s.start t = some (before, piece ++ after) := splitAt?_eq_some_iff.2 ⟨split, start⟩
  have last : splitAt? s.stop t = some (before ++ piece, after) :=
    splitAt?_eq_some_iff.2 ⟨by rw [split, List.append_assoc], stop⟩
  rw [isBoundary, isBoundary, first, last]
  exact ⟨rfl, rfl⟩

theorem slice?_within {a t b : Text} {s : Span} (inside : s.stop ≤ byteSize t) :
    slice? (a ++ (t ++ b)) (s.shift (byteSize a)) = slice? t s := by
  refine Option.ext fun piece => ?_
  rw [slice?_eq_some_iff, slice?_eq_some_iff]
  constructor
  · rintro ⟨before, after, split, start, stop⟩
    simp only [Span.shift, byteSize_append] at start stop
    obtain ⟨early, rfl, later⟩ := cut_append split.symm (by omega)
    rw [byteSize_append] at start stop
    have regroup : early ++ piece ++ after = t ++ b := by rw [later, List.append_assoc]
    have shorter : byteSize (early ++ piece) ≤ byteSize t := by rw [byteSize_append]; omega
    obtain ⟨more, rfl, -⟩ := cut_append regroup.symm shorter
    exact ⟨early, more, by simp, by omega, by rw [byteSize_append]; omega⟩
  · rintro ⟨before, after, rfl, start, stop⟩
    refine ⟨a ++ before, after ++ b, by simp, ?_, ?_⟩
    · simp only [Span.shift, byteSize_append]
      omega
    · rw [byteSize_append] at stop
      simp only [Span.shift, byteSize_append]
      omega

/-- The two sides of a piece are found by its offsets. -/
theorem slice_sides {before piece after : Text} :
    slice (before ++ (piece ++ after)) ⟨0, byteSize before⟩ = before ∧
      slice (before ++ (piece ++ after)) ⟨byteSize before + byteSize piece,
        byteSize (before ++ (piece ++ after))⟩ = after := by
  have left : slice? (before ++ (piece ++ after)) ⟨0, byteSize before⟩ = some before :=
    slice?_eq_some_iff.2 ⟨[], piece ++ after, rfl, rfl, rfl⟩
  have right : slice? (before ++ (piece ++ after)) ⟨byteSize before + byteSize piece,
      byteSize (before ++ (piece ++ after))⟩ = some after :=
    slice?_eq_some_iff.2 ⟨before ++ piece, [], by simp, by simp, by simp⟩
  rw [slice, slice, left, right]
  exact ⟨rfl, rfl⟩

theorem slice?_of_mem {c : Char} {t : Text} {s : Span} (member : c ∈ slice t s) :
    ∃ piece, slice? t s = some piece ∧ c ∈ piece := by
  cases found : slice? t s with
  | none => simp [slice, found] at member
  | some piece => exact ⟨piece, rfl, by simpa [slice, found] using member⟩

/-- What starts within a piece starts with a character of the piece. -/
theorem mem_of_slice? {t piece more : Text} {c : Char} {s s' : Span} (h : slice? t s = some piece)
    (h' : slice? t s' = some (c :: more)) (behind : s.start ≤ s'.start) (before : s'.start < s.stop) : c ∈ piece := by
  obtain ⟨front, after, split, start, stop⟩ := slice?_eq_some_iff.1 h
  obtain ⟨front', after', split', start', -⟩ := slice?_eq_some_iff.1 h'
  rw [byteSize_append] at stop
  have whole : front' ++ (c :: more ++ after') = front ++ (piece ++ after) := by rw [← split', split]
  obtain ⟨early, rfl, rest⟩ := cut_append whole (by omega)
  rw [byteSize_append] at start'
  obtain ⟨late, rfl, same⟩ := cut_append rest (by omega)
  cases late with
  | nil =>
    rw [List.append_nil] at stop
    omega
  | cons d late =>
    obtain ⟨rfl, -⟩ := List.cons.inj same
    simp

theorem byteSize_reverse (t : Text) : byteSize t.reverse = byteSize t := by
  induction t with
  | nil => rfl
  | cons c t ih =>
    rw [List.reverse_cons, byteSize_append, ih]
    simp only [byteSize_cons, byteSize_nil]
    omega

theorem offsetBehind?_append {c : Char} {gap rest : Text} (absent : c ∉ gap) :
    offsetBehind? c (gap ++ c :: rest) = some (byteSize gap + c.utf8Size) := by
  have other : ∀ d ∈ gap, (decide (d ≠ c)) = true := by
    intro d member
    apply decide_eq_true
    rintro rfl
    exact absent member
  have stops : ∀ rest : Text, (c :: rest).dropWhile (fun d => decide (d ≠ c)) = c :: rest := by simp
  have stays : (c :: rest).takeWhile (fun d => decide (d ≠ c)) = [] := by simp
  rw [offsetBehind?, List.dropWhile_append_of_pos other, List.takeWhile_append_of_pos other, stops, stays,
    List.append_nil]

theorem lastOffset?_append {c : Char} {front gap : Text} (absent : c ∉ gap) :
    lastOffset? c (front ++ c :: gap) = some (byteSize front) := by
  have other : ∀ d ∈ gap.reverse, (decide (d ≠ c)) = true := by
    intro d member
    apply decide_eq_true
    rintro rfl
    exact absent (List.mem_reverse.1 member)
  have around : (front ++ c :: gap).reverse = gap.reverse ++ c :: front.reverse := by simp
  have stops : (c :: front.reverse).dropWhile (fun d => decide (d ≠ c)) = c :: front.reverse := by simp
  rw [lastOffset?, around, List.dropWhile_append_of_pos other, stops]
  simp only [byteSize_reverse]

end ComponentLint.Text
