import ComponentLint.Proofs.Component.Scan
import ComponentLint.Proofs.Component.Slots
import ComponentLint.Proofs.Text.Slice

/-! The layout of the blocks of a document. Each element that the scan visits takes up a piece of the document that
begins with its bracket and its tag; the pieces lie one behind another, and the block of an element is where its
span says. `blocks_layout` puts this together with the slots that the blocks come to. -/
namespace ComponentLint.Component

/-! ## The pieces of an element -/

theorem TagState.step_slash {s : TagState} {as bs : Attributes} {c : Char} {next : Option Char}
    (h : s.step as c next = .selfClosed bs) : c = '/' := by
  rcases step_cases s as c with ⟨cs, same⟩ | ⟨s', cs, same⟩
  · rw [same, apart] at h
    split_ifs at h with bracket slash
    exact slash
  · rw [same] at h
    contradiction

/-- A tag that closes itself ends in a slash and its bracket. -/
theorem readTag_slash {s : TagState} {as bs : Attributes} {t behind : Text}
    (h : readTag s as t = some (bs, true, behind)) : ∃ front, t = front ++ ("/>".toList ++ behind) := by
  induction t generalizing s as with
  | nil => simp [readTag] at h
  | cons c t ih =>
    rw [readTag] at h
    cases stepped : s.step as c t.head? with
    | more s' as' =>
      rw [stepped] at h
      obtain ⟨front, rfl⟩ := ih h
      exact ⟨c :: front, rfl⟩
    | closed as' => simp [stepped] at h
    | selfClosed as' =>
      rw [stepped] at h
      obtain rfl := TagState.step_slash stepped
      obtain ⟨rest, rfl⟩ := List.head?_eq_some_iff.1 (TagState.step_selfClosed stepped)
      obtain ⟨-, rfl⟩ : as' = bs ∧ rest = behind := by simpa using h
      exact ⟨[], rfl⟩

/-- Raw content ends before the first closing tag, so it has none. -/
theorem content?_raw {tag t content from_ : Text} (raw : equalsIgnoringCase tag templateName = false)
    (h : content? tag t = some (content, from_)) :
    ∀ late, late <:+ content → startsWithIgnoringCase (closingTag tag) late = false := by
  rw [content?, if_neg (by simp [raw]), rawContent?_eq_some_iff] at h
  obtain ⟨-, -, -, first⟩ := h
  intro late suffix
  rw [← Bool.not_eq_true]
  intro starts
  obtain ⟨close, rest, rfl, equal⟩ := startsWithIgnoringCase_iff.1 starts
  have full := equalsIgnoringCase_length equal
  have some_ : close ++ rest ≠ [] := by
    intro none_
    obtain ⟨rfl, -⟩ := List.append_eq_nil_iff.1 none_
    simp [closingTag] at full
  have longer : startsWithIgnoringCase (closingTag tag) (close ++ rest ++ from_) = true :=
    startsWithIgnoringCase_iff.2 ⟨close, rest ++ from_, by simp, equal⟩
  rw [first _ some_ suffix] at longer
  contradiction

namespace Element

/-- What the pieces of an element are. -/
structure Formed (e : Element) : Prop where
  begins : ('<' :: e.tag) <+: e.opening
  bracket : ['>'] <:+ e.opening
  /-- An element that closes itself is its opening tag alone. -/
  slash : e.selfClosing = true → "/>".toList <:+ e.opening ∧ e.content = [] ∧ e.closing = []
  closes : e.selfClosing = false → equalsIgnoringCase e.closing (closingTag e.tag) = true
  /-- Only a template can have a closing tag of its own name in it. -/
  raw : equalsIgnoringCase e.tag templateName = false → ∀ late, late <:+ e.content →
    startsWithIgnoringCase (closingTag e.tag) late = false

/-- The opening tag is the bracket, the name and a rest that is read as one. -/
theorem read?_named {t : Text} {e : Element} (h : read? t = some e) :
    ∃ inside behind as, e.opening = '<' :: (e.tag ++ inside) ∧
      readTag .between [] (inside ++ behind) = some (as, e.selfClosing, behind) := by
  obtain ⟨_, _, _, opening, -, rfl, -⟩ := read?_opening h
  rw [opening, List.cons_append] at h
  obtain ⟨name, inside, behind, as, closes, split, named, isName, some_, ends, tag⟩ := read?_tag h
  rw [split, read?_parts named isName ends some_ (tag behind), resume?] at h
  refine ⟨inside, behind, as, ?_⟩
  split_ifs at h with single
  · obtain rfl := Option.some.inj h
    exact ⟨rfl, tag behind⟩
  · obtain ⟨⟨content, from_⟩, -, rfl⟩ := Option.map_eq_some_iff.1 h
    exact ⟨rfl, tag behind⟩

theorem read?_formed {t : Text} {e : Element} (h : read? t = some e) : e.Formed := by
  obtain ⟨inside, after, as, opening, tag⟩ := read?_named h
  obtain ⟨_, _, behind, -, -, -, resumed, -⟩ := read?_opening h
  refine ⟨?_, ?_, fun single => ?_, fun paired => ?_, fun raw late suffix => ?_⟩
  · rw [opening]
    exact ⟨inside, rfl⟩
  · obtain ⟨used, split, last, -⟩ := readTag_local tag
    obtain rfl := List.append_cancel_right split
    obtain ⟨front, rfl⟩ := List.getLast?_eq_some_iff.1 last
    rw [opening]
    exact ⟨'<' :: (e.tag ++ front), by simp⟩
  · rw [single] at tag
    obtain ⟨front, split⟩ := readTag_slash tag
    rw [← List.append_assoc] at split
    obtain rfl := List.append_cancel_right split
    have bare : { e with content := [], closing := [] } = e := by simpa [resume?, single] using resumed
    refine ⟨?_, ?_, ?_⟩
    · rw [opening]
      exact ⟨'<' :: (e.tag ++ front), by simp⟩
    · rw [← bare]
    · rw [← bare]
  · obtain ⟨-, -, equal, -⟩ := resume?_local paired resumed
    exact equal
  · rw [resume?] at resumed
    split_ifs at resumed with single
    · rw [← Option.some.inj resumed, List.suffix_nil] at suffix
      rw [suffix]
      rfl
    · obtain ⟨⟨content, from_⟩, cut, same⟩ := Option.map_eq_some_iff.1 resumed
      rw [← same] at suffix
      exact content?_raw raw cut late suffix

end Element

/-! ## The place of an element -/

namespace Placed

/-- Where the element ends in its document. -/
def stop (p : Placed) : Nat := p.offset + p.element.source.byteSize

/-- A placed element takes up the extent from its offset to its end in the document, and its block is the content
in it. -/
structure LaidOut (p : Placed) (document : Text) : Prop where
  begins : document.slice? ⟨p.offset, p.offset + 1 + p.block.tag.byteSize⟩ = some ('<' :: p.block.tag)
  ordered : p.offset < p.block.span.start ∧ p.block.span.start ≤ p.block.span.stop ∧ p.block.span.stop ≤ p.stop ∧
    p.stop ≤ document.byteSize
  boundaries : ∀ n ∈ [p.offset, p.block.span.start, p.block.span.stop, p.stop], document.isBoundary n = true
  content : document.slice? p.block.span = some p.block.content
  line : p.block.line = 1 + (document.slice ⟨0, p.offset⟩).count '\n'
  paired : p.element.selfClosing = false →
    document.slice? ⟨p.block.span.start - 1, p.block.span.start⟩ = some ['>'] ∧
      ∃ closing, document.slice? ⟨p.block.span.stop, p.stop⟩ = some closing ∧
        equalsIgnoringCase closing (closingTag p.block.tag) = true
  single : p.element.selfClosing = true → p.block.span.start = p.stop ∧ p.block.span.stop = p.stop ∧
    document.slice? ⟨p.stop - 2, p.stop⟩ = some "/>".toList
  /-- Content that is not markup has no closing tag of its own name. -/
  raw : p.block.kind ≠ .template → ∀ late, late <:+ p.block.content →
    startsWithIgnoringCase (closingTag p.block.tag) late = false

theorem kind_template {p : Placed} (h : p.kind ≠ .template) : equalsIgnoringCase p.element.tag templateName = false := by
  rw [← Bool.not_eq_true]
  intro isTemplate
  exact h (if_pos isTemplate)

theorem laidOut_of_split {p : Placed} {document a rest : Text} (whole : document = a ++ (p.element.source ++ rest))
    (formed : p.element.Formed) (place : p.offset = a.byteSize) (feeds : p.line = 1 + a.count '\n') :
    p.LaidOut document := by
  have extent : document.slice? ⟨p.offset, p.stop⟩ =
      some (p.element.opening ++ (p.element.content ++ p.element.closing)) := by
    have pieces : p.element.source = p.element.opening ++ (p.element.content ++ p.element.closing) :=
      List.append_assoc ..
    rw [← pieces, whole, stop, place]
    exact Text.slice?_append a _ rest
  obtain ⟨opening, inside⟩ := Text.slice?_split extent
  obtain ⟨content, closing⟩ := Text.slice?_split inside
  obtain ⟨⟨attributes, begins⟩, bracket, slash, closes, raw⟩ := formed
  have start : p.block.span.start = p.offset + p.element.opening.byteSize := rfl
  have finish : p.block.span.stop = p.block.span.start + p.element.content.byteSize := rfl
  have last : p.stop = p.block.span.stop + p.element.closing.byteSize := by
    simp only [stop, finish, start, Element.source, Text.byteSize_append, Nat.add_assoc]
  refine ⟨?_, ?_, ?_, content, ?_, fun paired => ⟨Text.slice?_suffix opening bracket, _, closing, closes paired⟩,
    fun bare => ?_, fun kind => ?_⟩
  · rw [← begins] at opening
    have tag := (Text.slice?_split opening).1
    rwa [Text.byteSize_cons, ← Nat.add_assoc] at tag
  · have size := congrArg Text.byteSize whole
    rw [Text.byteSize_append, Text.byteSize_append, ← place, ← Nat.add_assoc, ← stop] at size
    have opens : 0 < p.element.opening.byteSize := by
      rw [← begins, List.cons_append, Text.byteSize_cons]
      exact Nat.add_pos_left (Char.utf8Size_pos _) _
    omega
  · have outer := Text.isBoundary_of_slice? extent
    have inner := Text.isBoundary_of_slice? content
    simp only [List.forall_mem_cons]
    exact ⟨outer.1, inner.1, inner.2, outer.2, by simp⟩
  · obtain ⟨before, -⟩ : Text.slice (a ++ (p.element.source ++ rest)) ⟨0, Text.byteSize a⟩ = a ∧ _ := Text.slice_sides
    rw [whole, place, before]
    exact feeds
  · obtain ⟨slash, none_, bare⟩ := slash bare
    rw [none_, Text.byteSize_nil, Nat.add_zero] at finish
    rw [bare, Text.byteSize_nil, Nat.add_zero] at last
    refine ⟨(last.trans finish).symm, last.symm, ?_⟩
    rw [last, finish]
    exact Text.slice?_suffix opening slash
  · exact raw (kind_template kind)

end Placed

/-- The scan goes from left to right: each element begins where the last has ended, or later. -/
theorem visitedFrom_apart (t : Text) (offset line : Nat) :
    (visitedFrom 0 offset line t).Pairwise (fun p q => p.stop ≤ q.offset) ∧
      ∀ p ∈ visitedFrom 0 offset line t, offset ≤ p.offset := by
  induction t using scan_induction generalizing offset line with
  | nil => simp
  | plain c t other ih =>
    rw [visitedFrom_plain other]
    obtain ⟨apart, late⟩ := ih (offset + Text.byteSize [c]) (line + [c].count '\n')
    exact ⟨apart, fun p member => (Nat.le_add_right ..).trans (late p member)⟩
  | stray t comment element ih =>
    rw [visitedFrom_stray comment element]
    obtain ⟨apart, late⟩ := ih (offset + 1) line
    exact ⟨apart, fun p member => (Nat.le_add_right ..).trans (late p member)⟩
  | unclosed t comment => simp [visitedFrom_unclosed comment]
  | comment k t closed ih =>
    rw [visitedFrom_comment closed]
    obtain ⟨apart, late⟩ := ih (offset + Text.byteSize k) (line + k.count '\n')
    exact ⟨apart, fun p member => (Nat.le_add_right ..).trans (late p member)⟩
  | element e t reads ih =>
    rw [visitedFrom_element reads]
    obtain ⟨apart, late⟩ := ih (offset + Text.byteSize e.source) (line + e.source.count '\n')
    refine ⟨List.pairwise_cons.2 ⟨fun q member => late q member, apart⟩, fun p member => ?_⟩
    rcases List.mem_cons.1 member with rfl | later
    · exact Nat.le_refl _
    · exact (Nat.le_add_right ..).trans (late p later)

theorem laidOut_of_mem {document : Text} {p : Placed} (h : p ∈ visited document) : p.LaidOut document := by
  obtain ⟨before, after, split⟩ := List.append_of_mem h
  obtain ⟨a, rest, whole, place, feeds, reads, -⟩ := visitedFrom_split split
  rw [Nat.zero_add] at place
  exact Placed.laidOut_of_split whole (Element.read?_formed reads) place feeds

/-! ## The blocks of a document -/

/-- The layout of a document. The elements that the scan visits lie one behind another, and the block of each is
where its span and its line say. If the document is not refused, each slot holds the blocks of its kind in the
order of the document, and no other blocks are returned; it is refused exactly if a template, a script or a setup
script is visited for the second time, and then at the first block of which this is so. -/
theorem blocks_layout (document : Text) :
    (visited document).Pairwise (fun p q => p.stop ≤ q.offset) ∧ (∀ p ∈ visited document, p.LaidOut document) ∧
      (∀ bs, blocks document = .ok bs → bs.toList.Perm ((visited document).map Placed.block) ∧
        ∀ k, bs.slot k = ((visited document).map Placed.block).filter (·.kind = k)) ∧
      ((∃ bs, blocks document = .ok bs) ↔ Admissible ((visited document).map Placed.kind)) ∧
      ∀ d, blocks document = .error d ↔ FirstRepeat ((visited document).map Placed.block) d.block := by
  have kinds : ((visited document).map Placed.block).map Block.kind = (visited document).map Placed.kind := by
    rw [List.map_map]
    rfl
  refine ⟨(visitedFrom_apart document 0 1).1, fun p => laidOut_of_mem, fun bs taken => ⟨?_, fun k => ?_⟩, ?_, fun d => ?_⟩
  · exact Blocks.addAll_perm taken
  · rw [Blocks.slot_addAll taken, Blocks.slot_empty, List.nil_append]
  · rw [← kinds]
    exact addAll_eq_ok_iff_admissible
  · exact addAll_eq_error_iff

theorem blocks_layout_component :
    let document : Text := "é\n<i18n/>\n<script>a</SCRIPT>".toList
    ∃ bs, ∃ p q : Placed, blocks document = .ok bs ∧ bs.toList.Perm [p.block, q.block] ∧ p.stop ≤ q.offset ∧
      p.LaidOut document ∧ q.LaidOut document := by
  intro document
  obtain ⟨apart, laidOut, slots, -, -⟩ := blocks_layout document
  obtain ⟨bs, taken⟩ : ∃ bs, blocks document = .ok bs := ⟨_, rfl⟩
  obtain ⟨p, q, both⟩ : ∃ p q, visited document = [p, q] := ⟨_, _, rfl⟩
  have returned := (slots bs taken).1
  rw [both] at apart laidOut returned
  exact ⟨bs, p, q, taken, returned, List.rel_of_pairwise_cons apart (by simp), laidOut p (by simp), laidOut q (by simp)⟩

end ComponentLint.Component
