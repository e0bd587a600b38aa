import ComponentLint.Proofs.Component.Scan
import ComponentLint.Proofs.Component.Slots

/-! The scan of two texts one behind the other. If each bracket that the scan of the first one visits opens a comment
or an element that ends in it, then the scan of both visits what it visits in the first and then what it visits in
the second, moved on by the first. `blocks_append` says what comes of the two documents together. -/
namespace ComponentLint.Component

/-! ## Brackets -/

/-- What stands in a text from each bracket on that the scan visits. -/
def bracketsFrom (skip : Nat) : Text → List Text
  | [] => []
  | c :: rest =>
    match skip with
    | skip + 1 => bracketsFrom skip rest
    | 0 =>
      if c = '<' then
        match commentLength? (c :: rest) with
        | some length => (c :: rest) :: bracketsFrom (length - 1) rest
        | none =>
          match Element.read? (c :: rest) with
          | some element => (c :: rest) :: bracketsFrom (element.source.length - 1) rest
          | none => (c :: rest) :: bracketsFrom 0 rest
      else bracketsFrom 0 rest

def brackets (document : Text) : List Text := bracketsFrom 0 document

/-- A comment begins here and is closed. -/
def BeginsComment (t : Text) : Prop := ∃ inside rest, t = "<!--".toList ++ (inside ++ ("-->".toList ++ rest))

/-- Each bracket that the scan visits opens a comment or an element, and it ends in the text. -/
def Complete (document : Text) : Prop :=
  ∀ t ∈ brackets document, BeginsComment t ∨ ∃ e, Element.read? t = some e

theorem bracketsFrom_skip (a b : Text) : bracketsFrom a.length (a ++ b) = bracketsFrom 0 b := by
  induction a with
  | nil => rfl
  | cons c a ih => exact ih

theorem brackets_plain {c : Char} (h : c ≠ '<') (t : Text) : brackets (c :: t) = brackets t := by
  rw [brackets, bracketsFrom, if_neg h]
  rfl

theorem brackets_comment {k : Text} (h : IsComment k) (t : Text) : brackets (k ++ t) = (k ++ t) :: brackets t := by
  obtain ⟨inside, rfl⟩ := h.opens
  have length := h.2 t
  rw [List.cons_append] at length
  rw [List.cons_append, brackets, bracketsFrom, if_pos rfl, length]
  exact congrArg _ (bracketsFrom_skip inside t)

theorem brackets_element {e : Element} {t : Text} (h : Element.read? (e.source ++ t) = some e) :
    brackets (e.source ++ t) = (e.source ++ t) :: brackets t := by
  obtain ⟨inside, opens⟩ := Element.source_opens h
  have comment := commentLength?_of_read? h
  rw [opens, List.cons_append] at h comment
  rw [opens, List.cons_append, brackets, bracketsFrom, if_pos rfl, comment]
  simp only [h, opens]
  exact congrArg _ (bracketsFrom_skip inside t)

theorem mem_brackets (t : Text) : '<' :: t ∈ brackets ('<' :: t) := by
  rw [brackets, bracketsFrom, if_pos rfl]
  cases commentLength? ('<' :: t) with
  | some length => exact List.mem_cons_self
  | none => cases Element.read? ('<' :: t) <;> exact List.mem_cons_self

theorem breakOn?_isSome (needle a b : Text) : (Text.breakOn? needle (a ++ (needle ++ b))).isSome = true := by
  induction a with
  | nil =>
    have here : Text.after? needle (needle ++ b) = some b := Text.after?_eq_some_iff.2 rfl
    rw [List.nil_append]
    cases whole : needle ++ b with
    | nil =>
      obtain ⟨rfl, -⟩ := List.append_eq_nil_iff.1 whole
      rfl
    | cons c t =>
      rw [whole] at here
      rw [Text.breakOn?, here]
      rfl
  | cons c a ih =>
    rw [List.cons_append, Text.breakOn?]
    cases Text.after? needle (c :: (a ++ (needle ++ b))) with
    | some rest => rfl
    | none => rw [Option.isSome_map, ih]

/-- A comment that begins and is closed is a whole comment in front of what follows. -/
theorem BeginsComment.split {t : Text} (h : BeginsComment t) : ∃ k rest, t = k ++ rest ∧ IsComment k := by
  obtain ⟨inside, rest, rfl⟩ := h
  obtain ⟨⟨before, after⟩, ends⟩ := Option.isSome_iff_exists.1 (breakOn?_isSome "-->".toList inside rest)
  obtain ⟨split, -⟩ := breakOn?_local ends
  exact ⟨_, after, by rw [split]; simp, isComment_of_breakOn? ends⟩

theorem whole_of_complete {a : Text} (h : Complete a) : Whole a := by
  induction a using scan_induction with
  | nil => exact .nil
  | plain c t other ih =>
    rw [Complete, brackets_plain other] at h
    exact .plain other (ih h)
  | stray t comment element ih =>
    rcases h _ (mem_brackets t) with begins | ⟨e, reads⟩
    · obtain ⟨k, rest, split, closed⟩ := begins.split
      rw [split, closed.2 rest] at comment
      contradiction
    · rw [element] at reads
      contradiction
  | unclosed t comment =>
    obtain ⟨inside, rfl⟩ := commentLength?_opens comment
    rcases h _ (mem_brackets inside) with begins | ⟨e, reads⟩
    · -- the comment is as long as the text, so nothing follows it
      obtain ⟨k, rest, split, closed⟩ := begins.split
      rw [split, closed.2 rest] at comment
      have none_ : rest = [] := by simpa using comment
      rw [split, none_]
      exact .comment closed .nil
    · rw [commentLength?_of_read? reads] at comment
      contradiction
  | comment k t closed ih =>
    rw [Complete, brackets_comment closed] at h
    exact .comment closed (ih fun t member => h t (List.mem_cons_of_mem _ member))
  | element e t reads ih =>
    rw [Complete, brackets_element reads] at h
    exact .element reads (ih fun t member => h t (List.mem_cons_of_mem _ member))

/-! ## Moving on -/

def Block.moved (bytes lines : Nat) (b : Block) : Block :=
  { b with span := b.span.shift bytes, line := b.line + lines }

namespace Blocks

def moved (bytes lines : Nat) (bs : Blocks) : Blocks where
  template := bs.template.map (Block.moved bytes lines)
  script := bs.script.map (Block.moved bytes lines)
  scriptSetup := bs.scriptSetup.map (Block.moved bytes lines)
  styles := bs.styles.map (Block.moved bytes lines)
  custom := bs.custom.map (Block.moved bytes lines)

/-- The blocks of two documents together, if no slot has to hold two. -/
def merge (x y : Blocks) : Blocks where
  template := x.template.or y.template
  script := x.script.or y.script
  scriptSetup := x.scriptSetup.or y.scriptSetup
  styles := x.styles ++ y.styles
  custom := x.custom ++ y.custom

theorem slot_moved (bytes lines : Nat) (bs : Blocks) (k : BlockKind) :
    (bs.moved bytes lines).slot k = (bs.slot k).map (Block.moved bytes lines) := by
  cases k <;> simp [moved, slot, Option.toList_map]

theorem eq_merge_of_slot {r x y : Blocks} (h : ∀ k, r.slot k = x.slot k ++ y.slot k) : r = x.merge y := by
  have one {o a b : Option Block} (same : o.toList = a.toList ++ b.toList) : o.toList = (a.or b).toList := by
    cases a with
    | none => simpa using same
    | some a =>
      cases o with
      | none => simp at same
      | some o => simpa using congrArg List.head? same
  apply eq_of_slot
  intro k
  cases k with
  | template => exact one (h .template)
  | script => exact one (h .script)
  | scriptSetup => exact one (h .scriptSetup)
  | style => exact h .style
  | custom => exact h .custom

end Blocks

theorem Placed.block_moved (bytes lines : Nat) (p : Placed) :
    (p.moved bytes lines).block = p.block.moved bytes lines := by
  have start : p.offset + bytes + p.element.opening.byteSize = p.offset + p.element.opening.byteSize + bytes := by omega
  simp only [block, moved, Block.moved, Span.shift, start, Nat.add_right_comm _ bytes]
  rfl

/-! ## Two documents -/

theorem Admissible.parts {a b : List BlockKind} (h : Admissible (a ++ b)) : Admissible a ∧ Admissible b := by
  constructor
  · intro k single
    have total := h k single
    rw [List.count_append] at total
    omega
  · intro k single
    have total := h k single
    rw [List.count_append] at total
    omega

/-- Scanning is compositional. Behind a document in which everything that is opened ends, another one is scanned as
if it stood alone, and what is found in it is moved on by the first. The two together are refused at the first
block of that sequence that comes second where only one may be, and otherwise have the blocks of both. -/
theorem blocks_append {a : Text} (h : Complete a) (b : Text) :
    let first := (visited a).map Placed.block
    let second := ((visited b).map Placed.block).map (Block.moved a.byteSize (a.count '\n'))
    (visited (a ++ b)).map Placed.block = first ++ second ∧
      (∀ d, blocks (a ++ b) = .error d ↔ FirstRepeat (first ++ second) d.block) ∧
      ∀ r, blocks (a ++ b) = .ok r → ∃ x y, blocks a = .ok x ∧ blocks b = .ok y ∧
        r = x.merge (y.moved a.byteSize (a.count '\n')) := by
  intro first second
  have sequence : (visited (a ++ b)).map Placed.block = first ++ second := by
    have later : visitedFrom 0 (0 + a.byteSize) (1 + a.count '\n') b =
        (visited b).map (Placed.moved a.byteSize (a.count '\n')) := visitedFrom_moved ..
    rw [visited, visitedFrom_append (whole_of_complete h), later, List.map_append, List.map_map]
    simp only [second, first, List.map_map]
    congr 2
    funext p
    exact Placed.block_moved ..
  refine ⟨sequence, fun d => ?_, fun r taken => ?_⟩
  · rw [blocks, sequence]
    exact addAll_eq_error_iff
  · rw [blocks, sequence] at taken
    have admissible := addAll_eq_ok_iff_admissible.1 ⟨r, taken⟩
    rw [List.map_append] at admissible
    obtain ⟨admissible₁, admissible₂⟩ := admissible.parts
    have kinds : second.map Block.kind = ((visited b).map Placed.block).map Block.kind := by
      rw [List.map_map]
      rfl
    rw [kinds] at admissible₂
    obtain ⟨x, front⟩ := addAll_eq_ok_iff_admissible.2 admissible₁
    obtain ⟨y, back⟩ := addAll_eq_ok_iff_admissible.2 admissible₂
    refine ⟨x, y, front, back, Blocks.eq_merge_of_slot fun k => ?_⟩
    have moved : second.filter (·.kind = k) =
        (((visited b).map Placed.block).filter (·.kind = k)).map (Block.moved a.byteSize (a.count '\n')) :=
      List.filter_map
    rw [Blocks.slot_moved, Blocks.slot_addAll taken, Blocks.slot_addAll front, Blocks.slot_addAll back,
      Blocks.slot_empty, List.filter_append, moved]
    rfl

theorem blocks_append_component :
    let a : Text := "<!-- <p> -->\n<template><i/></template>".toList
    let b : Text := "é<script>x</script>\n<style/>".toList
    Complete a ∧ ∃ x y, blocks a = .ok x ∧ blocks b = .ok y ∧
      blocks (a ++ b) = .ok (x.merge (y.moved a.byteSize (a.count '\n'))) := by
  intro a b
  have stops : brackets a = ["<!-- <p> -->\n<template><i/></template>".toList, "<template><i/></template>".toList] := by
    rfl
  have complete : Complete a := by
    intro t member
    rw [stops] at member
    rcases List.mem_pair.1 member with rfl | rfl
    · exact .inl ⟨" <p> ".toList, "\n<template><i/></template>".toList, rfl⟩
    · exact .inr ⟨_, rfl⟩
  obtain ⟨r, taken⟩ : ∃ r, blocks (a ++ b) = .ok r := ⟨_, rfl⟩
  obtain ⟨-, -, merged⟩ := blocks_append complete b
  obtain ⟨x, y, front, back, rfl⟩ := merged r taken
  exact ⟨complete, x, y, front, back, taken⟩

end ComponentLint.Component
