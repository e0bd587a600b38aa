import ComponentLint.Component.Script
import ComponentLint.Proofs.Component.Scan

/-! Which block of a document is its script. A document is refused exactly when it has a second template,
script or setup script, and otherwise each slot holds the first block of its kind. `script?_eq_some_iff`
says when a document has a script that can be linted, and where it stands. -/
namespace ComponentLint.Component

namespace BlockKind

/-- The kinds of which a document may have one block only. -/
def isSingle (k : BlockKind) : Bool := k = .template || k = .script || k = .scriptSetup

end BlockKind

namespace Blocks

/-- The one block of a kind; a kind that may come more than once has no such block. -/
def slot? (bs : Blocks) : BlockKind → Option Block
  | .template => bs.template
  | .script => bs.script
  | .scriptSetup => bs.scriptSetup
  | .style => none
  | .custom => none

theorem add_eq_ok_iff {bs : Blocks} {b : Block} :
    (∃ r, bs.add b = .ok r) ↔ (b.kind.isSingle = true → bs.slot? b.kind = none) := by
  cases kind : b.kind with
  | style => simp [add, kind, BlockKind.isSingle]
  | custom => simp [add, kind, BlockKind.isSingle]
  | template => cases full : bs.template <;> simp [add, kind, full, slot?, BlockKind.isSingle]
  | script => cases full : bs.script <;> simp [add, kind, full, slot?, BlockKind.isSingle]
  | scriptSetup => cases full : bs.scriptSetup <;> simp [add, kind, full, slot?, BlockKind.isSingle]

theorem add_slot {bs r : Blocks} {b : Block} (h : bs.add b = .ok r) {k : BlockKind} (single : k.isSingle = true) :
    r.slot? k = if b.kind = k then some b else bs.slot? k := by
  cases kind : b.kind <;> simp only [add, kind] at h
  case style | custom =>
    obtain rfl := Except.ok.inj h
    cases k <;> simp_all [BlockKind.isSingle, slot?]
  all_goals
    split_ifs at h
    obtain rfl := Except.ok.inj h
    cases k <;> simp_all [BlockKind.isSingle, slot?]

theorem addAll_slot {bs r : Blocks} {l : List Block} (h : bs.addAll l = .ok r) {k : BlockKind}
    (single : k.isSingle = true) : r.slot? k = (bs.slot? k).or (l.find? (·.kind = k)) := by
  induction l generalizing bs with
  | nil =>
    obtain rfl := Except.ok.inj h
    simp
  | cons b l ih =>
    rw [addAll] at h
    cases added : bs.add b with
    | error d => simp [added] at h
    | ok bs' =>
      rw [added] at h
      rw [ih h, add_slot added single]
      by_cases same : b.kind = k
      · have free := add_eq_ok_iff.1 ⟨bs', added⟩ (by rw [same]; exact single)
        rw [same] at free
        simp [same, free]
      · simp [same]

/-- All blocks are taken in exactly if no slot would have to hold two. -/
theorem addAll_eq_ok_iff {bs : Blocks} {l : List Block} :
    (∃ r, bs.addAll l = .ok r) ↔
      ∀ k, k.isSingle = true → (bs.slot? k).isSome.toNat + (l.map Block.kind).count k ≤ 1 := by
  induction l generalizing bs with
  | nil =>
    refine ⟨fun _ k _ => ?_, fun _ => ⟨bs, rfl⟩⟩
    have bound := Bool.toNat_le (bs.slot? k).isSome
    simpa using bound
  | cons b l ih =>
    rw [addAll]
    cases added : bs.add b with
    | error d =>
      have refused : ¬∃ r, bs.add b = .ok r := by simp [added]
      rw [add_eq_ok_iff] at refused
      obtain ⟨single, full⟩ := Classical.not_imp.1 refused
      refine ⟨by simp, fun fits => ?_⟩
      have bound := fits b.kind single
      have some_ : (bs.slot? b.kind).isSome = true := Option.isSome_iff_ne_none.2 full
      rw [some_, List.map_cons, List.count_cons_self, Bool.toNat_true] at bound
      omega
    | ok bs' =>
      have free := add_eq_ok_iff.1 ⟨bs', added⟩
      simp only [ih]
      refine forall_congr' fun k => imp_congr_right fun single => ?_
      rw [add_slot added single, List.map_cons, List.count_cons]
      by_cases same : b.kind = k
      · subst k
        rw [free single, if_pos rfl, if_pos (beq_self_eq_true _), Option.isSome_some, Option.isSome_none,
          Bool.toNat_true, Bool.toNat_false]
        omega
      · simp [same]

end Blocks

/-- The element whose block the linter takes: the first plain script, or else the first setup script. -/
def chosen? (ps : List Placed) : Option Placed :=
  (ps.find? (·.kind = .script)).or (ps.find? (·.kind = .scriptSetup))

theorem chosen?_eq_some_iff {ps : List Placed} {p : Placed} :
    chosen? ps = some p ↔ ∃ before after, ps = before ++ p :: after ∧
      (p.kind = .script ∧ .script ∉ before.map Placed.kind ∨
        p.kind = .scriptSetup ∧ .scriptSetup ∉ before.map Placed.kind ∧ .script ∉ ps.map Placed.kind) := by
  have first (k : BlockKind) : ps.find? (·.kind = k) = some p ↔
      p.kind = k ∧ ∃ before after, ps = before ++ p :: after ∧ k ∉ before.map Placed.kind := by
    simp only [List.find?_eq_some_iff_append, decide_eq_true_eq, List.mem_map, not_exists, not_and]
    constructor
    · rintro ⟨kind, before, after, split, none_⟩
      exact ⟨kind, before, after, split, fun q member => by simpa using none_ q member⟩
    · rintro ⟨kind, before, after, split, none_⟩
      exact ⟨kind, before, after, split, fun q member => by simpa using none_ q member⟩
  have missing : ps.find? (·.kind = .script) = none ↔ .script ∉ ps.map Placed.kind := by
    simp [List.find?_eq_none]
  rw [chosen?, Option.or_eq_some_iff, first, first, missing]
  constructor
  · rintro (⟨kind, before, after, split, none_⟩ | ⟨plain, kind, before, after, split, none_⟩)
    · exact ⟨before, after, split, .inl ⟨kind, none_⟩⟩
    · exact ⟨before, after, split, .inr ⟨kind, none_, plain⟩⟩
  · rintro ⟨before, after, split, ⟨kind, none_⟩ | ⟨kind, none_, plain⟩⟩
    · exact .inl ⟨kind, before, after, split, none_⟩
    · exact .inr ⟨plain, kind, before, after, split, none_⟩

/-- No template, no plain script and no setup script comes twice. -/
def Admissible (kinds : List BlockKind) : Prop := ∀ k, k.isSingle = true → kinds.count k ≤ 1

/-- A document has a script that can be linted if it is not refused and the element that is chosen in it has
a language that is supported. -/
theorem script?_eq_some_iff {document : Text} {s : Script} :
    script? document = .ok (some s) ↔ Admissible ((visited document).map Placed.kind) ∧
      ∃ p, chosen? (visited document) = some p ∧ p.block.lang? = some s.lang ∧
        isSupportedLang (some s.lang) = true ∧ s.content = p.element.content ∧ s.span = p.block.span := by
  have kinds : ((visited document).map Placed.block).map Block.kind = (visited document).map Placed.kind := by
    rw [List.map_map]; rfl
  have admissible : (∃ r, blocks document = .ok r) ↔ Admissible ((visited document).map Placed.kind) := by
    rw [blocks, Blocks.addAll_eq_ok_iff, kinds]
    refine forall_congr' fun k => imp_congr_right fun _ => ?_
    cases k <;> simp [Blocks.slot?]
  rw [← admissible, script?]
  cases read : blocks document with
  | error d => simp
  | ok bs =>
    have slot (k : BlockKind) (single : k.isSingle = true) :
        bs.slot? k = ((visited document).find? (·.kind = k)).map Placed.block := by
      rw [Blocks.addAll_slot read single, List.find?_map]
      cases k <;> rfl
    have chosen : bs.script.or bs.scriptSetup = (chosen? (visited document)).map Placed.block := by
      rw [chosen?, Option.map_or, ← slot .script rfl, ← slot .scriptSetup rfl]
      rfl
    simp only [chosen]
    cases chosen? (visited document) with
    | none => simp
    | some p =>
      obtain ⟨l', content, span⟩ := s
      cases lang : p.block.lang? with
      | none => simp [lang]
      | some l =>
        have piece : p.block.content = p.element.content := rfl
        simp only [Option.map_some, Option.bind_eq_bind, Option.bind_some, lang, piece, Except.ok.injEq,
          Option.ite_none_right_eq_some, Option.some.injEq, Script.mk.injEq]
        constructor
        · rintro ⟨supported, rfl, rfl, rfl⟩
          exact ⟨⟨bs, rfl⟩, p, rfl, lang, supported, rfl, rfl⟩
        · rintro ⟨-, p', rfl, found, supported, rfl, rfl⟩
          obtain rfl := Option.some.inj (found.symm.trans lang)
          exact ⟨supported, rfl, rfl, rfl⟩

/-- Where the chosen script stands in its document: the text falls into what is before the tag, the element
and what follows. -/
theorem chosen?_split {document : Text} {p : Placed} (h : chosen? (visited document) = some p) :
    ∃ a rest, document = a ++ (p.element.source ++ rest) ∧ p.offset = Text.byteSize a ∧
      p.block.span = ⟨Text.byteSize (a ++ p.element.opening),
        Text.byteSize (a ++ p.element.opening ++ p.element.content)⟩ := by
  obtain ⟨before, after, split, -⟩ := chosen?_eq_some_iff.1 h
  obtain ⟨a, rest, whole, place, -⟩ := visitedFrom_split split
  rw [Nat.zero_add] at place
  refine ⟨a, rest, whole, place, ?_⟩
  simp [Placed.block, place, Nat.add_assoc]

/-- The script of a document stands between two sides of it. -/
theorem script?_split {document : Text} {s : Script} (h : script? document = .ok (some s)) :
    ∃ before after, document = before ++ (s.content ++ after) ∧ before.byteSize = s.span.start ∧
      (before ++ s.content).byteSize = s.span.stop := by
  obtain ⟨-, p, chosen, -, -, content, span⟩ := script?_eq_some_iff.1 h
  obtain ⟨a, rest, whole, -, block⟩ := chosen?_split chosen
  refine ⟨a ++ p.element.opening, p.element.closing ++ rest, ?_, ?_, ?_⟩
  · rw [whole, content]
    simp [Element.source]
  · rw [span, block]
  · rw [span, block, content]

end ComponentLint.Component
