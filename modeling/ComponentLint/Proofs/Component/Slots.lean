import ComponentLint.Proofs.Component.Choice
import Mathlib.Data.List.Perm.Basic

/-! Where the blocks of a document come to. Each block lands in the slot of its kind, in the order of the document,
and a document is refused at the first block that comes second where only one may be. -/
namespace ComponentLint.Component

/-- The first block of a list that comes second where only one may be. -/
def FirstRepeat (l : List Block) (b : Block) : Prop :=
  ∃ before after, l = before ++ b :: after ∧ b.kind.isSingle = true ∧ b.kind ∈ before.map Block.kind ∧
    Admissible (before.map Block.kind)

namespace Blocks

/-- The blocks in the slot of a kind. -/
def slot (bs : Blocks) : BlockKind → List Block
  | .template => bs.template.toList
  | .script => bs.script.toList
  | .scriptSetup => bs.scriptSetup.toList
  | .style => bs.styles
  | .custom => bs.custom

def toList (bs : Blocks) : List Block :=
  bs.slot .template ++ bs.slot .script ++ bs.slot .scriptSetup ++ bs.slot .style ++ bs.slot .custom

theorem slot_empty (k : BlockKind) : ({} : Blocks).slot k = [] := by
  cases k <;> rfl

theorem eq_of_slot {x y : Blocks} (h : ∀ k, x.slot k = y.slot k) : x = y := by
  obtain ⟨template, script, setup, styles, custom⟩ := x
  have one {a b : Option Block} (same : a.toList = b.toList) : a = b := by
    cases a <;> cases b <;> simp_all
  obtain rfl := one (h .template)
  obtain rfl := one (h .script)
  obtain rfl := one (h .scriptSetup)
  obtain rfl : styles = y.styles := h .style
  obtain rfl : custom = y.custom := h .custom
  rfl

/-- A block that is taken in comes last in the slot of its kind. -/
theorem slot_add {bs r : Blocks} {b : Block} (h : bs.add b = .ok r) (k : BlockKind) :
    r.slot k = bs.slot k ++ [b].filter (·.kind = k) := by
  cases kind : b.kind <;> simp only [add, kind] at h
  case style | custom =>
    obtain rfl := Except.ok.inj h
    cases k <;> simp [slot, kind]
  all_goals
    split_ifs at h with full
    rw [Bool.not_eq_true, Option.isSome_eq_false_iff, Option.isNone_iff_eq_none] at full
    obtain rfl := Except.ok.inj h
    cases k <;> simp [slot, kind, full]

theorem slot_addAll {bs r : Blocks} {l : List Block} (h : bs.addAll l = .ok r) (k : BlockKind) :
    r.slot k = bs.slot k ++ l.filter (·.kind = k) := by
  induction l generalizing bs with
  | nil =>
    obtain rfl := Except.ok.inj h
    simp
  | cons b l ih =>
    rw [addAll] at h
    cases added : bs.add b with
    | error d => simp [added] at h
    | ok bs' =>
      rw [added] at h
      rw [ih h, slot_add added, List.append_assoc, ← List.filter_append, List.singleton_append]

/-- No block is lost and none is taken twice. -/
theorem addAll_perm {r : Blocks} {l : List Block} (h : addAll {} l = .ok r) : r.toList.Perm l := by
  rw [List.perm_iff_count]
  intro b
  have held (k : BlockKind) : (r.slot k).count b = if b.kind = k then l.count b else 0 := by
    rw [slot_addAll h, slot_empty, List.nil_append]
    split_ifs with same
    · exact List.count_filter (by simpa using same)
    · exact List.count_eq_zero.2 fun member => same (by simpa using (List.mem_filter.1 member).2)
  simp only [toList, List.count_append, held]
  cases b.kind <;> simp

theorem add_eq_error_iff {bs : Blocks} {b : Block} {d : DuplicateBlock} :
    bs.add b = .error d ↔ d.block = b ∧ b.kind.isSingle = true ∧ bs.slot b.kind ≠ [] := by
  obtain ⟨block⟩ := d
  cases kind : b.kind with
  | style => simp [add, kind, BlockKind.isSingle]
  | custom => simp [add, kind, BlockKind.isSingle]
  | template => cases full : bs.template <;> simp [add, kind, full, slot, BlockKind.isSingle, eq_comm]
  | script => cases full : bs.script <;> simp [add, kind, full, slot, BlockKind.isSingle, eq_comm]
  | scriptSetup => cases full : bs.scriptSetup <;> simp [add, kind, full, slot, BlockKind.isSingle, eq_comm]

/-- Blocks are refused at the first that finds its slot taken. -/
theorem addAll_eq_error {bs : Blocks} {l : List Block} {d : DuplicateBlock} :
    bs.addAll l = .error d ↔ ∃ before after r, l = before ++ d.block :: after ∧ bs.addAll before = .ok r ∧
      r.add d.block = .error d := by
  induction l generalizing bs with
  | nil => simp [addAll]
  | cons b l ih =>
    rw [addAll]
    cases added : bs.add b with
    | error d' =>
      obtain ⟨rfl, -, -⟩ := add_eq_error_iff.1 added
      constructor
      · intro same
        obtain rfl := Except.error.inj same
        exact ⟨[], l, bs, rfl, rfl, added⟩
      · rintro ⟨before, after, r, split, taken, refused⟩
        cases before with
        | nil =>
          obtain ⟨here, -⟩ := List.cons.inj split
          exact congrArg Except.error (congrArg DuplicateBlock.mk here)
        | cons c before =>
          obtain ⟨rfl, -⟩ := List.cons.inj split
          simp [addAll, added] at taken
    | ok bs' =>
      simp only [ih]
      constructor
      · rintro ⟨before, after, r, rfl, taken, refused⟩
        exact ⟨b :: before, after, r, rfl, by simp [addAll, added, taken], refused⟩
      · rintro ⟨before, after, r, split, taken, refused⟩
        cases before with
        | nil =>
          obtain ⟨rfl, rfl⟩ := List.cons.inj split
          obtain rfl := Except.ok.inj taken
          simp [added] at refused
        | cons c before =>
          obtain ⟨rfl, rfl⟩ := List.cons.inj split
          exact ⟨before, after, r, rfl, by simpa [addAll, added] using taken, refused⟩

end Blocks

theorem addAll_eq_ok_iff_admissible {l : List Block} :
    (∃ r, Blocks.addAll {} l = .ok r) ↔ Admissible (l.map Block.kind) := by
  rw [Blocks.addAll_eq_ok_iff]
  refine forall_congr' fun k => imp_congr_right fun _ => ?_
  cases k <;> simp [Blocks.slot?]

theorem addAll_eq_error_iff {l : List Block} {d : DuplicateBlock} :
    Blocks.addAll {} l = .error d ↔ FirstRepeat l d.block := by
  rw [Blocks.addAll_eq_error]
  refine exists_congr fun before => exists_congr fun after => ?_
  have taken {r : Blocks} (h : Blocks.addAll {} before = .ok r) :
      r.add d.block = .error d ↔ d.block.kind.isSingle = true ∧ d.block.kind ∈ before.map Block.kind := by
    rw [Blocks.add_eq_error_iff, Blocks.slot_addAll h, Blocks.slot_empty, List.nil_append]
    simp [List.filter_eq_nil_iff]
  rw [← addAll_eq_ok_iff_admissible]
  constructor
  · rintro ⟨r, split, added, refused⟩
    exact ⟨split, ((taken added).1 refused).1, ((taken added).1 refused).2, r, added⟩
  · rintro ⟨split, single, again, r, added⟩
    exact ⟨r, split, added, (taken added).2 ⟨single, again⟩⟩

end ComponentLint.Component
