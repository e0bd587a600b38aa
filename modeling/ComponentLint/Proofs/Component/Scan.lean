import ComponentLint.Component.Blocks
import ComponentLint.Proofs.Component.Locality

/-! The scan of a document from left to right. A text is whole if each bracket that the scan visits in it
opens a comment or an element that ends in it; a whole text is scanned in the same way in front of any
other. `visitedFrom_split` finds the text in front of an element that the scan visits. -/
namespace ComponentLint.Component

/-- The offsets of the brackets that a scan visits and that open neither a comment nor an element. -/
def straysFrom (skip offset : Nat) : Text → List Nat
  | [] => []
  | c :: rest =>
    let onward (skip : Nat) := straysFrom skip (offset + c.utf8Size) rest
    match skip with
    | skip + 1 => onward skip
    | 0 =>
      if c = '<' then
        match commentLength? (c :: rest) with
        | some length => onward (length - 1)
        | none =>
          match Element.read? (c :: rest) with
          | some element => onward (element.source.length - 1)
          | none => offset :: onward 0
      else onward 0

def strays (document : Text) : List Nat := straysFrom 0 0 document

/-! ## Comments -/

/-- A comment that is closed, so that nothing behind it has a say in where it ends. -/
def IsComment (k : Text) : Prop := k ≠ [] ∧ ∀ rest, commentLength? (k ++ rest) = some k.length

theorem after?_eq_none_iff {start t : Text} : Text.after? start t = none ↔ ¬start <+: t := by
  rw [Option.eq_none_iff_forall_not_mem]
  constructor
  · rintro none_ ⟨rest, rfl⟩
    exact none_ rest (Text.after?_eq_some_iff.2 rfl)
  · intro other rest found
    exact other ⟨rest, (Text.after?_eq_some_iff.1 found).symm⟩

theorem breakOn?_local {needle t before after : Text} (h : Text.breakOn? needle t = some (before, after)) :
    t = before ++ (needle ++ after) ∧
      ∀ rest, Text.breakOn? needle (before ++ (needle ++ rest)) = some (before, rest) := by
  induction t generalizing before with
  | nil =>
    obtain ⟨rfl, rfl, rfl⟩ : needle = [] ∧ [] = before ∧ [] = after := by simpa [Text.breakOn?] using h
    refine ⟨rfl, fun rest => ?_⟩
    cases rest with
    | nil => rfl
    | cons c rest => rfl
  | cons c t ih =>
    rw [Text.breakOn?] at h
    cases here : Text.after? needle (c :: t) with
    | some behind =>
      rw [here] at h
      obtain ⟨rfl, rfl⟩ : [] = before ∧ behind = after := by simpa using h
      refine ⟨by simpa using Text.after?_eq_some_iff.1 here, fun rest => ?_⟩
      have again : Text.after? needle (needle ++ rest) = some rest := Text.after?_eq_some_iff.2 rfl
      rw [List.nil_append]
      cases whole : needle ++ rest with
      | nil =>
        obtain ⟨rfl, rfl⟩ := List.append_eq_nil_iff.1 whole
        rfl
      | cons d r =>
        rw [whole] at again
        rw [Text.breakOn?, again]
    | none =>
      rw [here] at h
      obtain ⟨⟨inside, behind⟩, found, same⟩ := Option.map_eq_some_iff.1 h
      obtain ⟨rfl, rfl⟩ : c :: inside = before ∧ behind = after := by simpa using same
      obtain ⟨rfl, again⟩ := ih found
      refine ⟨rfl, fun rest => ?_⟩
      have absent : Text.after? needle (c :: (inside ++ (needle ++ rest))) = none := by
        rw [after?_eq_none_iff] at here ⊢
        intro begins
        have shorter : needle <+: c :: (inside ++ needle) :=
          List.prefix_of_prefix_length_le begins ⟨rest, by simp⟩ (by simp; omega)
        exact here (shorter.trans ⟨behind, by simp⟩)
      rw [List.cons_append, Text.breakOn?, absent, again rest]
      rfl

theorem isComment_of_breakOn? {inside before after : Text}
    (h : Text.breakOn? "-->".toList inside = some (before, after)) :
    IsComment ("<!--".toList ++ (before ++ "-->".toList)) := by
  obtain ⟨-, again⟩ := breakOn?_local h
  refine ⟨by simp, fun rest => ?_⟩
  have opened : Text.after? "<!--".toList ("<!--".toList ++ (before ++ "-->".toList) ++ rest) =
      some (before ++ ("-->".toList ++ rest)) := Text.after?_eq_some_iff.2 (by simp)
  rw [commentLength?, opened, Option.map_some, again rest]
  simp; omega

theorem comment_cases {t : Text} {length : Nat} (h : commentLength? t = some length) :
    (∃ k rest, t = k ++ rest ∧ IsComment k ∧ length = k.length) ∨ length = t.length := by
  obtain ⟨inside, opens, same⟩ := Option.map_eq_some_iff.1 h
  obtain rfl := Text.after?_eq_some_iff.1 opens
  cases ends : Text.breakOn? "-->".toList inside with
  | none =>
    rw [ends] at same
    exact .inr same.symm
  | some found =>
    obtain ⟨before, after⟩ := found
    rw [ends] at same
    obtain ⟨rfl, -⟩ := breakOn?_local ends
    refine .inl ⟨"<!--".toList ++ (before ++ "-->".toList), after, by simp, isComment_of_breakOn? ends, ?_⟩
    rw [← same]
    simp; omega

/-- Nothing that is read as an element begins like a comment. -/
theorem commentLength?_of_read? {t : Text} {e : Element} (h : Element.read? t = some e) : commentLength? t = none := by
  obtain ⟨d, inside, behind, opening, isName, rfl, -, -⟩ := Element.read?_opening h
  have other : d ≠ '!' := by
    rintro rfl
    exact absurd isName (by decide)
  simp [commentLength?, opening, Text.after?, other.symm]

theorem commentLength?_opens {t : Text} {length : Nat} (h : commentLength? t = some length) :
    ∃ inside, t = '<' :: inside := by
  obtain ⟨inside, opens, -⟩ := Option.map_eq_some_iff.1 h
  exact ⟨_, Text.after?_eq_some_iff.1 opens⟩

theorem IsComment.opens {k : Text} (h : IsComment k) : ∃ inside, k = '<' :: inside :=
  commentLength?_opens (by simpa using h.2 [])

theorem Element.source_opens {t : Text} {e : Element} (h : read? t = some e) : ∃ inside, e.source = '<' :: inside := by
  obtain ⟨d, inside, behind, opening, -⟩ := read?_opening h
  exact ⟨d :: inside ++ e.content ++ e.closing, by simp [source, opening]⟩

/-! ## Steps of the scan -/

section Steps

variable {offset line : Nat}

@[simp] theorem visitedFrom_nil (skip : Nat) : visitedFrom skip offset line [] = [] := rfl

@[simp] theorem straysFrom_nil (skip : Nat) : straysFrom skip offset [] = [] := rfl

theorem visitedFrom_inside (skip : Nat) (c : Char) (t : Text) :
    visitedFrom (skip + 1) offset line (c :: t) =
      visitedFrom skip (offset + c.utf8Size) (if c = '\n' then line + 1 else line) t := rfl

theorem straysFrom_inside (skip : Nat) (c : Char) (t : Text) :
    straysFrom (skip + 1) offset (c :: t) = straysFrom skip (offset + c.utf8Size) t := rfl

theorem visitedFrom_outside {c : Char} (h : c ≠ '<') (t : Text) :
    visitedFrom 0 offset line (c :: t) =
      visitedFrom 0 (offset + c.utf8Size) (if c = '\n' then line + 1 else line) t := if_neg h

theorem straysFrom_outside {c : Char} (h : c ≠ '<') (t : Text) :
    straysFrom 0 offset (c :: t) = straysFrom 0 (offset + c.utf8Size) t := if_neg h

/-- At a bracket the scan moves into what the bracket opens. -/
theorem visitedFrom_bracket (t : Text) :
    visitedFrom 0 offset line ('<' :: t) =
      match commentLength? ('<' :: t) with
      | some length => visitedFrom (length - 1) (offset + 1) line t
      | none =>
        match Element.read? ('<' :: t) with
        | some e => ⟨e, offset, line⟩ :: visitedFrom (e.source.length - 1) (offset + 1) line t
        | none => visitedFrom 0 (offset + 1) line t := rfl

theorem straysFrom_bracket (t : Text) :
    straysFrom 0 offset ('<' :: t) =
      match commentLength? ('<' :: t) with
      | some length => straysFrom (length - 1) (offset + 1) t
      | none =>
        match Element.read? ('<' :: t) with
        | some e => straysFrom (e.source.length - 1) (offset + 1) t
        | none => offset :: straysFrom 0 (offset + 1) t := rfl

theorem visitedFrom_skip (a b : Text) :
    visitedFrom a.length offset line (a ++ b) =
      visitedFrom 0 (offset + Text.byteSize a) (line + a.count '\n') b := by
  induction a generalizing offset line with
  | nil => simp
  | cons c a ih =>
    have count : (if c = '\n' then line + 1 else line) + a.count '\n' = line + (c :: a).count '\n' := by
      rw [List.count_cons]
      split_ifs with feed other other
      · omega
      · simp [feed] at other
      · simp at other; contradiction
      · omega
    rw [List.length_cons, List.cons_append, visitedFrom_inside, ih, count, Text.byteSize_cons, Nat.add_assoc]

theorem straysFrom_skip (a b : Text) :
    straysFrom a.length offset (a ++ b) = straysFrom 0 (offset + Text.byteSize a) b := by
  induction a generalizing offset with
  | nil => simp
  | cons c a ih =>
    rw [List.length_cons, List.cons_append, straysFrom_inside, ih, Text.byteSize_cons, Nat.add_assoc]

theorem visitedFrom_plain {c : Char} (h : c ≠ '<') (t : Text) :
    visitedFrom 0 offset line (c :: t) =
      visitedFrom 0 (offset + Text.byteSize [c]) (line + [c].count '\n') t := by
  rw [← visitedFrom_skip [c] t, visitedFrom_outside h]
  rfl

theorem straysFrom_plain {c : Char} (h : c ≠ '<') (t : Text) :
    straysFrom 0 offset (c :: t) = straysFrom 0 (offset + Text.byteSize [c]) t := by
  rw [← straysFrom_skip [c] t, straysFrom_outside h]
  rfl

theorem visitedFrom_comment {k : Text} (h : IsComment k) (t : Text) :
    visitedFrom 0 offset line (k ++ t) = visitedFrom 0 (offset + Text.byteSize k) (line + k.count '\n') t := by
  obtain ⟨inside, rfl⟩ := h.opens
  have length := h.2 t
  rw [List.cons_append] at length
  rw [← visitedFrom_skip, List.cons_append, visitedFrom_bracket, length]
  rfl

theorem straysFrom_comment {k : Text} (h : IsComment k) (t : Text) :
    straysFrom 0 offset (k ++ t) = straysFrom 0 (offset + Text.byteSize k) t := by
  obtain ⟨inside, rfl⟩ := h.opens
  have length := h.2 t
  rw [List.cons_append] at length
  rw [← straysFrom_skip, List.cons_append, straysFrom_bracket, length]
  rfl

/-- A comment that is not closed ends the scan. -/
theorem visitedFrom_unclosed {t : Text} (h : commentLength? t = some t.length) :
    visitedFrom 0 offset line t = [] := by
  obtain ⟨inside, rfl⟩ := commentLength?_opens h
  have skipped : visitedFrom ('<' :: inside).length offset line ('<' :: inside ++ []) = [] := visitedFrom_skip _ []
  rw [List.append_nil] at skipped
  rw [visitedFrom_bracket, h]
  exact skipped

theorem visitedFrom_element {e : Element} {t : Text} (h : Element.read? (e.source ++ t) = some e) :
    visitedFrom 0 offset line (e.source ++ t) =
      ⟨e, offset, line⟩ ::
        visitedFrom 0 (offset + Text.byteSize e.source) (line + e.source.count '\n') t := by
  obtain ⟨inside, opens⟩ := Element.source_opens h
  have comment := commentLength?_of_read? h
  rw [opens, List.cons_append] at h comment
  rw [← visitedFrom_skip, opens, List.cons_append, visitedFrom_bracket, comment, h]
  simp only [opens]
  rfl

theorem straysFrom_element {e : Element} {t : Text} (h : Element.read? (e.source ++ t) = some e) :
    straysFrom 0 offset (e.source ++ t) = straysFrom 0 (offset + Text.byteSize e.source) t := by
  obtain ⟨inside, opens⟩ := Element.source_opens h
  have comment := commentLength?_of_read? h
  rw [opens, List.cons_append] at h comment
  rw [← straysFrom_skip, opens, List.cons_append, straysFrom_bracket, comment, h]
  simp only [opens]
  rfl

theorem visitedFrom_stray {t : Text} (comment : commentLength? ('<' :: t) = none)
    (element : Element.read? ('<' :: t) = none) :
    visitedFrom 0 offset line ('<' :: t) = visitedFrom 0 (offset + 1) line t := by
  rw [visitedFrom_bracket, comment, element]

theorem straysFrom_stray {t : Text} (comment : commentLength? ('<' :: t) = none)
    (element : Element.read? ('<' :: t) = none) :
    straysFrom 0 offset ('<' :: t) = offset :: straysFrom 0 (offset + 1) t := by
  rw [straysFrom_bracket, comment, element]

end Steps

/-- Induction along the scan: one case for each thing that it can do at a place where nothing is left over. -/
theorem scan_induction {motive : Text → Prop} (nil : motive [])
    (plain : ∀ c t, c ≠ '<' → motive t → motive (c :: t))
    (stray : ∀ t, commentLength? ('<' :: t) = none → Element.read? ('<' :: t) = none → motive t → motive ('<' :: t))
    (unclosed : ∀ t, commentLength? t = some t.length → motive t)
    (comment : ∀ k t, IsComment k → motive t → motive (k ++ t))
    (element : ∀ (e : Element) t, Element.read? (e.source ++ t) = some e → motive t → motive (e.source ++ t))
    (t : Text) : motive t := by
  induction size : t.length using Nat.strong_induction_on generalizing t with
  | h n ih =>
    subst size
    cases t with
    | nil => exact nil
    | cons c t =>
      by_cases bracket : c = '<'
      · subst c
        cases isComment : commentLength? ('<' :: t) with
        | some length =>
          rcases comment_cases isComment with ⟨k, rest, split, closed, -⟩ | whole
          · rw [split]
            refine comment k rest closed (ih rest.length ?_ rest rfl)
            obtain ⟨inside, rfl⟩ := closed.opens
            rw [split]
            simp only [List.length_append, List.length_cons]
            omega
          · exact unclosed _ (by rw [isComment, whole])
        | none =>
          cases isElement : Element.read? ('<' :: t) with
          | some e =>
            obtain ⟨rest, split, again⟩ := Element.read?_local isElement
            obtain ⟨inside, opens⟩ := Element.source_opens isElement
            rw [split]
            refine element e rest (again rest) (ih rest.length ?_ rest rfl)
            rw [split, opens]
            simp only [List.length_append, List.length_cons]
            omega
          | none => exact stray t isComment isElement (ih t.length (by simp) t rfl)
      · exact plain c t bracket (ih t.length (by simp) t rfl)

/-! ## Whole texts -/

/-- A text in which every bracket that the scan visits opens a comment or an element that ends in it. -/
inductive Whole : Text → Prop where
  | nil : Whole []
  | plain (h : c ≠ '<') : Whole t → Whole (c :: t)
  | comment (h : IsComment k) : Whole t → Whole (k ++ t)
  | element {e : Element} (h : Element.read? (e.source ++ t) = some e) : Whole t → Whole (e.source ++ t)

/-- A whole text is scanned in front of another one as it is scanned alone. -/
theorem visitedFrom_append {a : Text} (h : Whole a) (b : Text) (offset line : Nat) :
    visitedFrom 0 offset line (a ++ b) =
      visitedFrom 0 offset line a ++
        visitedFrom 0 (offset + Text.byteSize a) (line + a.count '\n') b := by
  induction h generalizing offset line with
  | nil => simp
  | @plain c t h _ ih =>
    have size : Text.byteSize (c :: t) = Text.byteSize [c] + Text.byteSize t := Text.byteSize_append [c] t
    have feeds : ([c] ++ t).count '\n' = [c].count '\n' + t.count '\n' := List.count_append
    rw [List.singleton_append] at feeds
    rw [List.cons_append, visitedFrom_plain h, visitedFrom_plain h, ih, size, feeds, Nat.add_assoc, Nat.add_assoc]
  | @comment k t h _ ih =>
    rw [List.append_assoc, visitedFrom_comment h, visitedFrom_comment h, ih]
    simp [Nat.add_assoc]
  | @element t e h _ ih =>
    obtain ⟨rest, -, again⟩ := Element.read?_local h
    rw [List.append_assoc, visitedFrom_element (again _), visitedFrom_element h, ih]
    simp [Nat.add_assoc]

/-- An element that the scan visits stands in the document where its offset says. If nothing stray is visited
before it, then the text in front of it is whole, and the scan falls into what it finds there, the element
and what it finds behind. -/
theorem visitedFrom_split {t : Text} {offset line : Nat} {before after : List Placed} {p : Placed}
    (h : visitedFrom 0 offset line t = before ++ p :: after) :
    ∃ a rest, t = a ++ (p.element.source ++ rest) ∧ p.offset = offset + Text.byteSize a ∧
      p.line = line + a.count '\n' ∧ Element.read? (p.element.source ++ rest) = some p.element ∧
      ((∀ o ∈ straysFrom 0 offset t, p.offset ≤ o) → Whole a ∧ visitedFrom 0 offset line a = before ∧
        visitedFrom 0 (p.offset + Text.byteSize p.element.source)
          (p.line + p.element.source.count '\n') rest = after) := by
  induction t using scan_induction generalizing offset line before with
  | nil => simp at h
  | plain c t other ih =>
    rw [visitedFrom_plain other] at h
    obtain ⟨a, rest, rfl, place, feeds, reads, clean⟩ := ih h
    refine ⟨c :: a, rest, rfl, ?_, ?_, reads, fun none_ => ?_⟩
    · rw [place, Nat.add_assoc, ← Text.byteSize_append]; rfl
    · rw [feeds, Nat.add_assoc, ← List.count_append]; rfl
    · rw [straysFrom_plain other] at none_
      obtain ⟨whole, found, behind⟩ := clean none_
      exact ⟨.plain other whole, by rw [visitedFrom_plain other, found], behind⟩
  | stray t comment element ih =>
    rw [visitedFrom_stray comment element] at h
    obtain ⟨a, rest, rfl, place, feeds, reads, -⟩ := ih h
    refine ⟨'<' :: a, rest, rfl, ?_, ?_, reads, fun none_ => ?_⟩
    · rw [place, Nat.add_assoc]; rfl
    · rw [feeds]; simp
    · have late := none_ offset (by rw [straysFrom_stray comment element]; simp)
      omega
  | unclosed t comment =>
    rw [visitedFrom_unclosed comment] at h
    simp at h
  | comment k t closed ih =>
    rw [visitedFrom_comment closed] at h
    obtain ⟨a, rest, rfl, place, feeds, reads, clean⟩ := ih h
    refine ⟨k ++ a, rest, by simp, by rw [place]; simp [Nat.add_assoc], by rw [feeds]; simp [Nat.add_assoc], reads,
      fun none_ => ?_⟩
    rw [straysFrom_comment closed] at none_
    obtain ⟨whole, found, behind⟩ := clean none_
    exact ⟨.comment closed whole, by rw [visitedFrom_comment closed, found], behind⟩
  | element e t reads ih =>
    rw [visitedFrom_element reads] at h
    cases before with
    | nil =>
      obtain ⟨rfl, rfl⟩ := List.cons.inj h
      exact ⟨[], t, rfl, rfl, rfl, reads, fun _ => ⟨.nil, rfl, rfl⟩⟩
    | cons q before =>
      obtain ⟨rfl, later⟩ := List.cons.inj h
      obtain ⟨a, rest, rfl, place, feeds, reads', clean⟩ := ih later
      refine ⟨e.source ++ a, rest, by simp, by rw [place]; simp [Nat.add_assoc], by rw [feeds]; simp [Nat.add_assoc],
        reads', fun none_ => ?_⟩
      rw [straysFrom_element reads] at none_
      obtain ⟨whole, found, behind⟩ := clean none_
      obtain ⟨-, -, again⟩ := Element.read?_local reads
      exact ⟨.element (again a) whole, by rw [visitedFrom_element (again a), found], behind⟩

/-! ## Moving on -/

def Placed.moved (bytes lines : Nat) (p : Placed) : Placed := ⟨p.element, p.offset + bytes, p.line + lines⟩

/-- What is found further on in a document is the same, further on. -/
theorem visitedFrom_moved (bytes lines skip offset line : Nat) (t : Text) :
    visitedFrom skip (offset + bytes) (line + lines) t =
      (visitedFrom skip offset line t).map (Placed.moved bytes lines) := by
  induction t generalizing skip offset line with
  | nil => rfl
  | cons c t ih =>
    have onward (skip : Nat) :
        visitedFrom skip (offset + bytes + c.utf8Size) (if c = '\n' then line + lines + 1 else line + lines) t =
          (visitedFrom skip (offset + c.utf8Size) (if c = '\n' then line + 1 else line) t).map
            (Placed.moved bytes lines) := by
      rw [← ih, Nat.add_right_comm offset]
      split_ifs
      · rw [Nat.add_right_comm line]
      · rfl
    cases skip with
    | succ skip => exact onward skip
    | zero =>
      by_cases bracket : c = '<'
      · subst bracket
        rw [visitedFrom_bracket, visitedFrom_bracket]
        cases commentLength? ('<' :: t) with
        | some length => exact onward _
        | none =>
          cases Element.read? ('<' :: t) with
          | none => exact onward _
          | some e => exact congrArg (_ :: ·) (onward _)
      · rw [visitedFrom_outside bracket, visitedFrom_outside bracket]
        exact onward 0

/-- What is found in a text does not depend on where the text stands. -/
theorem visitedFrom_elements (skip offset line offset' line' : Nat) (t : Text) :
    (visitedFrom skip offset line t).map Placed.element = (visitedFrom skip offset' line' t).map Placed.element := by
  have fromStart (offset line : Nat) :
      (visitedFrom skip offset line t).map Placed.element = (visitedFrom skip 0 0 t).map Placed.element := by
    have moved := visitedFrom_moved offset line skip 0 0 t
    rw [Nat.zero_add, Nat.zero_add] at moved
    rw [moved, List.map_map]
    rfl
  rw [fromStart offset line, fromStart offset' line']

end ComponentLint.Component
