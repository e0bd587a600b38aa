import ComponentLint.TypeScript.Items

/-! What patterns bind. A pattern is read as the outlines of its parts, one after another: the names that it takes, and
set aside from them its computed keys and its default values. Every declaration of variables that a script exports has
patterns for its left sides. -/
namespace ComponentLint.TypeScript

namespace Outline

theorem append_empty (o : Outline) : o ++ empty = o := by cases o <;> rfl

theorem append_cases (a b : Outline) : a = empty ∧ a ++ b = b ∨ b = empty ∧ a ++ b = a ∨ a ++ b = both a b := by
  by_cases left : a = empty
  · exact .inl ⟨left, by rw [left]; rfl⟩
  · by_cases right : b = empty
    · exact .inr (.inl ⟨right, by rw [right, append_empty]⟩)
    · right; right
      cases a <;> cases b <;> first | rfl | contradiction

@[simp] theorem bindings_append (a b : Outline) : (a ++ b).bindings = a.bindings ++ b.bindings := by
  rcases append_cases a b with ⟨rfl, whole⟩ | ⟨rfl, whole⟩ | whole <;> simp [whole, bindings]

@[simp] theorem bound_append (a b : Outline) : (a ++ b).bound = a.bound ++ b.bound := by
  rcases append_cases a b with ⟨rfl, whole⟩ | ⟨rfl, whole⟩ | whole <;> simp [whole, bound]

/-- The names that are bound inside of what a pattern sets aside. -/
def strays : Outline → List Text
  | both a b => strays a ++ strays b
  | aside inside => inside.bindings
  | _ => []

@[simp] theorem strays_append (a b : Outline) : (a ++ b).strays = a.strays ++ b.strays := by
  rcases append_cases a b with ⟨rfl, whole⟩ | ⟨rfl, whole⟩ | whole <;> simp [whole, strays]

/-- The outline of a pattern, and the names that the pattern binds. -/
inductive Binds : Outline → List Text → Prop where
  | name (name : Text) (span : Span) : Binds (.binding name span) [name]
  /-- No member, or one that an array pattern leaves out. -/
  | hole : Binds .empty []
  | members : Binds a ms → Binds b ns → Binds (a ++ b) (ms ++ ns)
  | keyed (key : Outline) : Binds o ns → Binds (.aside key ++ o) ns
  | defaulted (value : Outline) : Binds o ns → Binds (o ++ .aside value) ns

theorem Binds.bound_eq {o : Outline} {ns : List Text} (h : o.Binds ns) : o.bound = ns := by
  induction h with
  | name => rfl
  | hole => rfl
  | members _ _ first second => rw [bound_append, first, second]
  | keyed key _ ih => rw [bound_append, ih]; rfl
  | defaulted value _ ih => rw [bound_append, ih]; exact List.append_nil _

/-- Of the names that are bound anywhere inside a pattern, the pattern binds those that it does not set aside. -/
theorem Binds.mem_bindings_iff {o : Outline} {ns : List Text} (h : o.Binds ns) {name : Text} :
    name ∈ o.bindings ↔ name ∈ ns ∨ name ∈ o.strays := by
  induction h with
  | name => simp [bindings, strays]
  | hole => simp [bindings, strays]
  | members _ _ first second =>
    simp only [bindings_append, strays_append, List.mem_append, first, second]
    exact or_or_or_comm
  | keyed key _ ih =>
    simp only [bindings_append, strays_append, List.mem_append, ih, bindings, strays]
    exact or_left_comm
  | defaulted value _ ih =>
    simp only [bindings_append, strays_append, List.mem_append, ih, bindings, strays]
    exact or_assoc

def IsPattern (o : Outline) : Prop := ∃ ns, o.Binds ns

theorem IsPattern.join {parts : List Outline} (h : ∀ o ∈ parts, o.IsPattern) : (Outline.join parts).IsPattern := by
  induction parts with
  | nil => exact ⟨[], .hole⟩
  | cons o parts ih =>
    obtain ⟨first, binds⟩ := h o List.mem_cons_self
    obtain ⟨rest, others⟩ := ih fun o' member => h o' (List.mem_cons_of_mem _ member)
    exact ⟨first ++ rest, binds.members others⟩

end Outline

/-! ## What a reading gives -/

namespace Parse

/-- Wherever a reading succeeds, what it gives is as said. -/
def Gives (p : Parse α) (post : α → Prop) : Prop := ∀ c a c', p c = .ok a c' → post a

theorem Gives.bind {p : Parse α} {f : α → Parse β} {mid : α → Prop} {post : β → Prop} (first : Gives p mid)
    (next : ∀ a, mid a → Gives (f a) post) : Gives (p >>= f) post := by
  intro c b c' run
  cases found : p c with
  | ok a c₁ =>
    have rest : f a c₁ = .ok b c' := by simpa [Bind.bind, EStateM.bind, found] using run
    exact next a (first c a c₁ found) c₁ b c' rest
  | error fault c₁ => simp [Bind.bind, EStateM.bind, found] at run

/-- What comes first may give anything. -/
theorem Gives.after {p : Parse α} {f : α → Parse β} {post : β → Prop} (next : ∀ a, Gives (f a) post) :
    Gives (p >>= f) post := by
  have anything : Gives p fun _ => True := fun _ _ _ _ => trivial
  exact anything.bind fun a _ => next a

theorem Gives.pure {a : α} {post : α → Prop} (h : post a) : Gives (pure a) post := by
  intro c b c' run
  obtain ⟨rfl, -⟩ := EStateM.Result.ok.inj run
  exact h

theorem Gives.cond {c : Prop} [Decidable c] {p q : Parse α} {post : α → Prop} (yes : Gives p post)
    (no : Gives q post) : Gives (if c then p else q) post := by
  split
  · exact yes
  · exact no

theorem Gives.fail {cause : Cause} {span : Span} {post : α → Prop} : Gives (fail cause span) post := by
  intro c a c' run
  contradiction

theorem Gives.unexpected {post : α → Prop} : Gives unexpected post := by
  refine .after fun t => ?_
  cases t.fault with
  | none => exact .fail
  | some fault =>
    intro c a c' run
    contradiction

theorem Gives.many {step : Parse (Option α)} {post : α → Prop} (each : Gives step fun found => ∀ a ∈ found, post a)
    (room : Nat) : Gives (many step room) fun found => ∀ a ∈ found, post a := by
  induction room with
  | zero => exact .after fun _ => .fail
  | succ room ih =>
    refine .bind each fun found known => ?_
    cases found with
    | none => exact .pure (by simp)
    | some a =>
      refine .bind ih fun rest others => .pure ?_
      exact List.forall_mem_cons.2 ⟨known a rfl, others⟩

theorem Gives.listRest {closing : String} {item : Parse α} {post : α → Prop} (each : Gives item post) (room : Nat) :
    Gives (listRest closing item room) fun found => ∀ a ∈ found, post a := by
  induction room with
  | zero => exact .after fun _ => .fail
  | succ room ih =>
    have more : Gives (do
        advance
        if ← sees closing then return []
        let a ← item
        return a :: (← Parse.listRest closing item room)) fun found => ∀ a ∈ found, post a := by
      refine .after fun _ => .after fun _ => .cond (.pure (by simp)) ?_
      exact .bind each fun a known => .bind ih fun rest others => .pure (List.forall_mem_cons.2 ⟨known, others⟩)
    refine .after fun _ => .after fun _ => .cond (.pure (by simp)) (.after fun _ => ?_)
    exact .cond more (.after fun _ => .after fun _ => more)

theorem Gives.list {closing : String} {item : Parse α} {post : α → Prop} (each : Gives item post) (room : Nat) :
    Gives (list room closing item) fun found => ∀ a ∈ found, post a := by
  refine .after fun _ => .after fun _ => .cond (.pure (by simp)) ?_
  exact .bind each fun a known => .bind (.listRest each room) fun rest others =>
    .pure (List.forall_mem_cons.2 ⟨known, others⟩)

end Parse

/-! ## Patterns -/

open Parse

variable {g : Grammar} {s : Setting}

theorem bindingName_gives : Gives bindingName Outline.IsPattern := by
  refine .after fun t => .cond ?_ ?_
  · exact .after fun _ => .pure ⟨_, .name t.text t.span⟩
  · exact .cond .fail .unexpected

/-- A default value is set aside. -/
theorem initializer_gives {o : Outline} (h : o.IsPattern) : Gives (initializer g s) fun value => (o ++ value).IsPattern := by
  obtain ⟨ns, binds⟩ := h
  refine .after fun _ => .cond (.after fun value => .pure ⟨ns, binds.defaulted value⟩) (.pure ⟨ns, ?_⟩)
  rwa [Outline.append_empty]

theorem Grammar.list_gives {closing : String} {item : Parse Outline} (each : Gives item Outline.IsPattern) :
    Gives (g.list closing item) Outline.IsPattern :=
  .bind (.list each g.room) fun _ known => .pure (.join known)

namespace Pattern

/-- A grammar that reads patterns for patterns reads them so in every member of a pattern, and in the whole. -/
theorem withDefault_gives (inner : ∀ s, Gives (g.pattern s) Outline.IsPattern) :
    Gives (withDefault g s) Outline.IsPattern :=
  .bind (inner s) fun _ known => .bind (initializer_gives known) fun _ whole => .pure whole

theorem member_gives (inner : ∀ s, Gives (g.pattern s) Outline.IsPattern) :
    Gives (member g s) Outline.IsPattern := by
  refine .after fun _ => .cond (inner s) (.after fun t => .after fun next => .cond ?_ ?_)
  · exact .bind bindingName_gives fun _ known => .bind (initializer_gives known) fun _ whole => .pure whole
  · refine .after fun key => .after fun _ => ?_
    have value : Gives (do
        expect ":"
        return .aside key ++ (← withDefault g s)) Outline.IsPattern := by
      refine .after fun _ => .bind (withDefault_gives inner) fun o known => .pure ?_
      obtain ⟨ns, binds⟩ := known
      exact ⟨ns, binds.keyed key⟩
    exact .cond (.after fun _ => value) value

theorem arrayMember_gives (inner : ∀ s, Gives (g.pattern s) Outline.IsPattern) :
    Gives (arrayMember g s) Outline.IsPattern := by
  refine .after fun _ => .cond (inner s) (.after fun _ => .cond ?_ (withDefault_gives inner))
  exact .pure ⟨[], .hole⟩

theorem rule_gives (inner : ∀ s, Gives (g.pattern s) Outline.IsPattern) : Gives (rule g s) Outline.IsPattern := by
  refine .after fun _ => .cond ?_ (.after fun _ => .cond ?_ bindingName_gives)
  · exact .bind (Grammar.list_gives (member_gives inner)) fun _ known => .after fun _ => .pure known
  · exact .bind (Grammar.list_gives (arrayMember_gives inner)) fun _ known => .after fun _ => .pure known

end Pattern

/-- However deep a script nests, what is read as a pattern is one. -/
theorem readPart_pattern (room depth : Nat) (s : Setting) :
    Gives (readPart room depth .pattern s) Outline.IsPattern := by
  induction depth generalizing s with
  | zero => exact .after fun _ => .fail
  | succ depth ih => exact Pattern.rule_gives ih

/-! ## Declarations and items -/

/-- Of variables, the left sides are patterns. -/
def Declaration.Patterned : Declaration → Prop
  | variableList declarators => ∀ d ∈ declarators, d.pattern.IsPattern
  | single _ => True
  | scope _ => True

/-- An item that exports a declaration of variables exports patterns. -/
def Item.Patterned : Item → Prop
  | exportsDeclaration d => d.Patterned
  | _ => True

namespace ItemRule

theorem importItem_gives : Gives (importItem g s) Item.Patterned := by
  refine .after fun t => .after fun _ => .after fun _ => .cond ?_ ?_
  · exact .after fun _ => .after fun _ => .after fun _ => .after fun _ => .pure trivial
  · -- types or not, whatever is passed, with a default or without
    refine .cond (.after fun typeOnly => ?_) (.after fun typeOnly => ?_)
    all_goals
      refine .cond (.after fun _ => .after fun _ => ?_) (.after fun _ => .after fun _ => ?_)
      all_goals
        refine .cond (.after fun _ => .after fun _ => ?_) (.after fun _ => .after fun _ => ?_)
        all_goals
          split
          · exact .after fun _ => .pure trivial
          · refine .after fun _ => .after fun _ => .after fun _ => ?_
            exact .after fun _ => .after fun _ => .after fun _ => .pure trivial

theorem exportNames_gives (typeOnly : Bool) : Gives (exportNames g s typeOnly) Item.Patterned := by
  refine .after fun _ => .after fun _ => .after fun _ => .after fun _ => .cond ?_ ?_
  · exact .after fun _ => .after fun _ => .after fun _ => .pure trivial
  · exact .after fun _ => .after fun _ => .pure trivial

theorem exportAll_gives (typeOnly : Bool) : Gives (exportAll g s typeOnly) Item.Patterned := by
  refine .after fun _ => .after fun _ => ?_
  refine .cond ?_ ?_
  all_goals exact .after fun _ => .after fun _ => .after fun _ => .after fun _ => .after fun _ => .pure trivial

theorem exportAlias_gives : Gives (exportAlias g s) Declaration.Patterned := by
  refine .after fun _ => .after fun _ => .cond (.after fun _ => ?_) ?_
  all_goals exact .after fun _ => .after fun _ => .pure trivial

end ItemRule

section

variable (inner : ∀ s, Gives (g.pattern s) Outline.IsPattern)
include inner

namespace DeclarationRule

theorem declarator_gives (isConstant isStatement : Bool) :
    Gives (declarator g s isConstant isStatement) fun d => d.pattern.IsPattern := by
  refine .after fun t => .bind (inner s) fun o known => .after fun stop => .after fun next => ?_
  have behind : Gives (do
      let type ← annotation g s
      if ← takes "=" then return ⟨o, type ++ (← g.assignment s)⟩
      else
        if isStatement then checkValue s isConstant t.isIdentifier ⟨t.span.start, stop⟩
        return ⟨o, type⟩) fun d : Declarator => d.pattern.IsPattern := by
    refine .after fun type => .after fun _ => .cond (.after fun _ => .pure known) ?_
    exact .cond (.after fun _ => .pure known) (.pure known)
  exact .cond (.after fun _ => behind) behind

theorem declarators_gives (isConstant isStatement : Bool) :
    Gives (declarators g s isConstant isStatement) fun ds => ∀ d ∈ ds, d.pattern.IsPattern := by
  refine .bind (declarator_gives inner isConstant isStatement) fun d known => ?_
  refine .bind (.many ?_ g.room) fun rest others => .pure (List.forall_mem_cons.2 ⟨known, others⟩)
  refine .after fun _ => .cond ?_ (.pure (by simp))
  exact .bind (declarator_gives inner isConstant isStatement) fun d known => .pure (by simpa using known)

theorem rule_gives : Gives (rule g s) Declaration.Patterned := by
  refine .after fun _ => .cond (.after fun _ => ?_) (.after fun _ => ?_)
  all_goals
    refine .after fun _ => .cond (.after fun _ => .pure trivial) (.after fun _ => ?_)
    refine .cond (.after fun _ => .pure trivial) (.after fun _ => .cond (.after fun t => ?_) (.after fun _ => ?_))
    · split <;> exact .after fun _ => .pure trivial
    · refine .cond (.after fun isConstant => ?_) .unexpected
      exact .bind (declarators_gives inner isConstant true) fun found known => .after fun _ => .pure known

end DeclarationRule

namespace ItemRule

theorem exportItem_gives (before : Outline) : Gives (exportItem g s before) Item.Patterned := by
  refine .after fun _ => .after fun next => .after fun _ => .cond ?value (.after fun _ => .cond ?global ?_)
  case value => exact .after fun _ => .after fun _ => .pure trivial
  case global => exact .after fun _ => .after fun _ => .after fun _ => .after fun _ => .pure trivial
  refine .after fun _ => .cond (.after fun _ => .pure trivial) (.after fun _ => .cond (exportAll_gives _) ?_)
  refine .after fun _ => .cond (exportNames_gives _) (.after fun _ => .cond (.after fun _ => exportAll_gives _) ?_)
  refine .after fun _ => .cond (.after fun _ => exportNames_gives _) (.after fun _ => .cond ?alias_ (.after fun _ => ?_))
  case alias_ => exact .bind exportAlias_gives fun _ known => .pure known
  refine .bind (DeclarationRule.rule_gives inner) fun d known => ?_
  cases d with
  | single d => exact .pure trivial
  | variableList ds => exact .pure known
  | scope d => exact .pure trivial

theorem rule_gives : Gives (rule g s) Item.Patterned := by
  refine .after fun _ => .cond importItem_gives (.after fun _ => .cond (exportItem_gives inner _) ?_)
  refine .after fun _ => .cond ?_ (.after fun _ => .pure trivial)
  exact .after fun _ => .after fun _ => .cond (exportItem_gives inner _) (.after fun _ => .pure trivial)

end ItemRule

end

namespace Module

/-- What a script exports by declaring variables, it declares by patterns. -/
theorem ofText_patterned (kind : SourceKind) (t : Text) : ∀ item ∈ (ofText kind t).items, item.Patterned := by
  intro item member
  rw [ofText] at member
  dsimp only at member
  split at member
  · rename_i items c run
    have each : Gives (readItems ⟨readPart (t.length + 2) (depth t), t.length + 2⟩ (.ofKind kind))
        fun items => ∀ item ∈ items, item.Patterned := by
      refine .many (.after fun _ => .cond (.pure (by simp)) ?_) _
      refine .bind (ItemRule.rule_gives fun s => readPart_pattern _ _ s) fun item known => .pure ?_
      simpa using known
    exact each _ items c run item member
  · contradiction

end Module

end ComponentLint.TypeScript
