import ComponentLint.Program.Diagnosis
import ComponentLint.Program.Scan
import ComponentLint.Proofs.TypeScript.Patterns

/-! What a script exports, and what its record says that it exports. The record has a name for every declaration, list
and star that gives one away, except for namespaces; of variables, it also has the names that are bound inside the
default values and the computed keys of their patterns. Where there are no such names, importers see the exports as
they are. -/
namespace ComponentLint

namespace TypeScript

/-- What a declaration declares under a name of its own. -/
inductive Declaration.Declares : Declaration → Text → Prop where
  | bound : d ∈ declarators → d.pattern.Binds ns → n ∈ ns → Declares (variableList declarators) n
  | single : d.name = some n → Declares (single d) n
  | scope : d.name = some n → Declares (scope d) n

namespace Item

/-- What an item of a script exports under a name. -/
inductive Exports : Item → Text → Prop where
  | listed : e ∈ specifiers → Exports (.exports specifiers) e.exported.name
  | passed : e ∈ specifiers → Exports (passes specifiers source typeOnly) e.exported.name
  | together (n : ModuleName) : Exports (passesAll (some n) source typeOnly) n.name
  | declared : d.Declares n → Exports (exportsDeclaration d) n
  | default (value : Outline) : Exports (exportsDefault value) "default".toList

/-- The item exports what it does not name. -/
inductive Opens : Item → Prop where
  | star (source : ModuleSource) (typeOnly : Bool) : Opens (passesAll none source typeOnly)
  | value (value : Outline) : Opens (exportsValue value)

/-- The item exports a namespace. -/
inductive IsScope : Item → Prop where
  | declared (d : Named) : IsScope (exportsDeclaration (.scope d))

/-- A name is bound inside a default value or a computed key of a pattern that the item exports. -/
inductive Strays : Item → Text → Prop where
  | inside : d ∈ declarators → n ∈ d.pattern.strays → Strays (exportsDeclaration (.variableList declarators)) n

theorem exportsUnknown_iff {item : Item} : item.exportsUnknown = true ↔ item.Opens := by
  constructor
  · intro unknown
    cases item with
    | passesAll called source typeOnly =>
      cases called with
      | none => exact .star source typeOnly
      | some _ => contradiction
    | exportsValue value => exact .value value
    | _ => contradiction
  · rintro (_ | _) <;> rfl

/-- The names that are recorded for an item are those that it exports, unless it exports a namespace, and those that
stray into its patterns. -/
theorem mem_exported_iff {item : Item} (patterned : item.Patterned) {n : Text} :
    n ∈ item.exported ↔ item.Exports n ∧ ¬item.IsScope ∨ item.Strays n := by
  constructor
  · intro recorded
    cases item with
    | imports _ => contradiction
    | exports specifiers =>
      obtain ⟨e, member, rfl⟩ := List.mem_map.1 recorded
      exact .inl ⟨.listed member, nofun⟩
    | passes specifiers _ _ =>
      obtain ⟨e, member, rfl⟩ := List.mem_map.1 recorded
      exact .inl ⟨.passed member, nofun⟩
    | passesAll called _ _ =>
      cases called with
      | none => contradiction
      | some called =>
        obtain rfl := List.mem_singleton.1 recorded
        exact .inl ⟨.together called, nofun⟩
    | exportsDeclaration d =>
      cases d with
      | variableList declarators =>
        obtain ⟨d, member, bound⟩ := List.mem_flatMap.1 recorded
        obtain ⟨ns, binds⟩ := patterned d member
        rcases binds.mem_bindings_iff.1 bound with own | stray
        · exact .inl ⟨.declared (.bound member binds own), nofun⟩
        · exact .inr (.inside member stray)
      | single d => exact .inl ⟨.declared (.single (Option.mem_toList.1 recorded)), nofun⟩
      | scope d => contradiction
    | exportsDefault value =>
      obtain rfl := List.mem_singleton.1 recorded
      exact .inl ⟨.default value, nofun⟩
    | exportsValue _ => contradiction
    | statement _ => contradiction
  · rintro (⟨exports_, noScope⟩ | stray)
    · cases exports_ with
      | listed member => exact List.mem_map.2 ⟨_, member, rfl⟩
      | passed member => exact List.mem_map.2 ⟨_, member, rfl⟩
      | together => exact List.mem_singleton_self _
      | default => exact List.mem_singleton_self _
      | declared declares =>
        cases declares with
        | bound member binds own => exact List.mem_flatMap.2 ⟨_, member, binds.mem_bindings_iff.2 (.inl own)⟩
        | single named => exact Option.mem_toList.2 named
        | scope => exact absurd (.declared _) noScope
    · obtain ⟨member, inside⟩ := stray
      obtain ⟨ns, binds⟩ := patterned _ member
      exact List.mem_flatMap.2 ⟨_, member, binds.mem_bindings_iff.2 (.inr inside)⟩

end Item

end TypeScript

/-- A name that a request asks for is found missing if its module does not have it. -/
theorem Program.mem_missingNames_iff {q : Request} {e : Exports} {wanted : WantedName} (asked : wanted ∈ q.names) :
    ⟨.missing q.specifier wanted.name, wanted.span⟩ ∈ missingNames q e ↔ e.contains wanted.name = false := by
  constructor
  · intro found
    obtain ⟨other, lacks, same⟩ := List.mem_map.1 found
    obtain ⟨-, named⟩ := Finding.missing.inj (congrArg Located.finding same)
    simpa [named] using (List.mem_filter.1 lacks).2
  · intro lacks
    exact List.mem_map.2 ⟨wanted, List.mem_filter.2 ⟨asked, by simp [lacks]⟩, rfl⟩

open TypeScript

/-- What a record says of the items of a script. It is open where an item exports what it does not name. It has each
name once: those that the items export, except for namespaces, and those that are bound inside the default values and the
computed keys of the variables that they export. Where no namespace is exported and no name strays into the variables, a
name that is asked of the script is found missing if and only if no item exports it, by its name or with everything. -/
structure Exports.Answers (e : Exports) (items : List Item) : Prop where
  opens : e.isOpen = true ↔ ∃ item ∈ items, item.Opens
  once : e.names.Nodup
  names : ∀ n, n ∈ e.names ↔ (∃ item ∈ items, item.Exports n ∧ ¬item.IsScope) ∨ ∃ item ∈ items, item.Strays n
  missing : (∀ item ∈ items, ¬item.IsScope ∧ ∀ n, ¬item.Strays n) → ∀ (q : Request), ∀ wanted ∈ q.names,
    (⟨.missing q.specifier wanted.name, wanted.span⟩ ∈ Program.missingNames q e ↔
      ¬∃ item ∈ items, item.Opens ∨ item.Exports wanted.name)

namespace ModuleRecord

section

variable {m : Module}

theorem ofModule_isOpen : (ofModule m).exports.isOpen = true ↔ ∃ item ∈ m.items, item.Opens := by
  have shape : (ofModule m).exports.isOpen = m.items.any (·.exportsUnknown) := rfl
  simp only [shape, List.any_eq_true, Item.exportsUnknown_iff]

theorem ofModule_names (patterned : ∀ item ∈ m.items, item.Patterned) {n : Text} : n ∈ (ofModule m).exports.names ↔
    (∃ item ∈ m.items, item.Exports n ∧ ¬item.IsScope) ∨ ∃ item ∈ m.items, item.Strays n := by
  have shape : (ofModule m).exports.names = (Exports.empty.insertAll (m.items.flatMap (·.exported))).names := rfl
  have none_ : n ∉ Exports.empty.names := List.not_mem_nil
  rw [shape, Exports.mem_insertAll_iff, or_iff_right none_, List.mem_flatMap]
  constructor
  · rintro ⟨item, member, recorded⟩
    rcases (Item.mem_exported_iff (patterned item member)).1 recorded with own | stray
    · exact .inl ⟨item, member, own⟩
    · exact .inr ⟨item, member, stray⟩
  · rintro (⟨item, member, own⟩ | ⟨item, member, stray⟩)
    · exact ⟨item, member, (Item.mem_exported_iff (patterned item member)).2 (.inl own)⟩
    · exact ⟨item, member, (Item.mem_exported_iff (patterned item member)).2 (.inr stray)⟩

/-- Where no namespace is exported and no name strays, the record answers for the exports of the script. -/
theorem ofModule_contains (patterned : ∀ item ∈ m.items, item.Patterned)
    (plain : ∀ item ∈ m.items, ¬item.IsScope ∧ ∀ n, ¬item.Strays n) {n : Text} :
    (ofModule m).exports.contains n = true ↔ ∃ item ∈ m.items, item.Opens ∨ item.Exports n := by
  rw [Exports.contains, Bool.or_eq_true, List.contains_iff_mem, ofModule_isOpen, ofModule_names patterned]
  constructor
  · rintro (⟨item, member, opens⟩ | ⟨item, member, own, -⟩ | ⟨item, member, stray⟩)
    · exact ⟨item, member, .inl opens⟩
    · exact ⟨item, member, .inr own⟩
    · exact absurd stray ((plain item member).2 n)
  · rintro ⟨item, member, opens | own⟩
    · exact .inl ⟨item, member, opens⟩
    · exact .inr (.inl ⟨item, member, own, (plain item member).1⟩)

theorem ofModule_answers (patterned : ∀ item ∈ m.items, item.Patterned) : (ofModule m).exports.Answers m.items where
  opens := ofModule_isOpen
  once := Exports.nodup_insertAll List.nodup_nil _
  names _ := ofModule_names patterned
  missing plain q wanted asked := by
    rw [Program.mem_missingNames_iff asked, ← ofModule_contains patterned plain, Bool.not_eq_true]

end

/-- The record of a script answers for the items of the script. It does so however scripts are read, if only what is read
as a declaration of variables has patterns for its left sides. -/
theorem scan_exports (kind : SourceKind) (t : Text) :
    (scan t kind).exports.Answers (Module.ofText kind t).items ∧
      ∀ parse : Parsing, (∀ item ∈ (parse kind t).items, item.Patterned) →
        (scanWith parse t kind).exports.Answers (parse kind t).items :=
  ⟨ofModule_answers (Module.ofText_patterned kind t), fun _ patterned => ofModule_answers patterned⟩

theorem scan_exports_variables :
    let t : Text :=
      "export const a = 1, \x7b b = 2, c: [d] \x7d = obj\nexport \x7b local as renamed \x7d\nexport * as all from './all'\n".toList
    let items := (Module.ofText .ts t).items
    (∃ item ∈ items, item.Exports "d".toList) ∧ ¬∃ item ∈ items, item.Opens ∨ item.Exports "local".toList := by
  intro t items
  have listed : items = [
      .exportsDeclaration (.variableList [⟨.binding "a".toList ⟨13, 14⟩, .empty⟩,
        ⟨.both (.both (.binding "b".toList ⟨22, 23⟩) (.aside .empty)) (.both (.aside .empty) (.binding "d".toList ⟨33, 34⟩)),
          .use "obj".toList ⟨40, 43⟩⟩]),
      .exports [⟨⟨"local".toList, ⟨53, 58⟩, false⟩, ⟨"renamed".toList, ⟨62, 69⟩, false⟩⟩],
      .passesAll (some ⟨"all".toList, ⟨84, 87⟩, false⟩) ⟨"./all".toList, ⟨93, 100⟩⟩ false] := by decide +kernel
  have plain : ∀ item ∈ items, ¬item.IsScope ∧ ∀ n, ¬item.Strays n := by
    rw [listed]
    simp only [List.forall_mem_cons, List.not_mem_nil, false_imp_iff, implies_true, and_true]
    refine ⟨⟨nofun, ?_⟩, ⟨nofun, nofun⟩, nofun, nofun⟩
    rintro n ⟨member, stray⟩
    simp only [List.mem_cons, List.not_mem_nil, or_false] at member
    rcases member with rfl | rfl <;> simp [Outline.strays, Outline.bindings] at stray
  have recorded : (scan t .ts).exports = ⟨["a", "b", "d", "renamed", "all"].map String.toList, false⟩ := by decide +kernel
  obtain ⟨⟨-, -, names, -⟩, otherwise⟩ := scan_exports .ts t
  obtain ⟨-, -, -, missing⟩ := otherwise Module.ofText (Module.ofText_patterned .ts t)
  rw [recorded] at names
  rw [show (scanWith Module.ofText t .ts).exports = _ from recorded] at missing
  constructor
  · rcases (names "d".toList).1 (by decide) with ⟨item, member, own, -⟩ | ⟨item, member, stray⟩
    · exact ⟨item, member, own⟩
    · exact absurd stray ((plain item member).2 _)
  · let q : Request := ⟨"./m".toList, ⟨0, 0⟩, .imported, false, [⟨"local".toList, ⟨0, 0⟩⟩]⟩
    exact (missing plain q ⟨"local".toList, ⟨0, 0⟩⟩ (by simp [q])).1 (by decide)

/-- An exported namespace is not recorded, and a name that is bound inside a default value is. -/
theorem scan_exports_inexact :
    (¬∀ (kind : SourceKind) (t : Text), (scan t kind).faults = [] → ∀ n,
      (∃ item ∈ (Module.ofText kind t).items, item.Exports n) → n ∈ (scan t kind).exports.names) ∧
    ¬∀ (kind : SourceKind) (t : Text), (scan t kind).faults = [] → ∀ n ∈ (scan t kind).exports.names,
      ∃ item ∈ (Module.ofText kind t).items, item.Exports n := by
  let t : Text := "export namespace N \x7b\x7d\nexport const \x7b a = (x) => x \x7d = \x7b\x7d\n".toList
  have listed : (Module.ofText .ts t).items = [
      .exportsDeclaration (.scope ⟨some "N".toList, .binding "N".toList ⟨17, 18⟩⟩),
      .exportsDeclaration (.variableList [⟨.both (.binding "a".toList ⟨37, 38⟩)
        (.aside (.both (.binding "x".toList ⟨42, 43⟩) (.use "x".toList ⟨48, 49⟩))), .empty⟩])] := by decide +kernel
  have recorded : scan t .ts = ⟨[], ⟨["a".toList, "x".toList], false⟩, []⟩ := by decide +kernel
  refine ⟨fun complete => ?_, fun sound => ?_⟩
  · have namespace_ := complete .ts t (by rw [recorded]) "N".toList
      ⟨_, by rw [listed]; exact List.mem_cons_self, .declared (.scope rfl)⟩
    rw [recorded] at namespace_
    revert namespace_
    decide
  · obtain ⟨item, member, own⟩ := sound .ts t (by rw [recorded]) "x".toList (by rw [recorded]; decide)
    rw [listed] at member
    simp only [List.mem_cons, List.not_mem_nil, or_false] at member
    rcases member with rfl | rfl
    · cases own with
      | declared declares =>
        cases declares with
        | scope named => simp at named
    · cases own with
      | declared declares =>
        cases declares with
        | bound inside binds bound =>
          obtain rfl := List.mem_singleton.1 inside
          rw [← binds.bound_eq] at bound
          simp [Outline.bound] at bound

end ModuleRecord

end ComponentLint
