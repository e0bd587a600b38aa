import ComponentLint.Component.WriteBack
import Mathlib.Data.List.Basic
import Mathlib.Data.List.Induction

/-! The writer under activations. Each write reaches the inner writer once and in order. A script that has a frame is
put back into it exactly when no activation has ended since the latest one began. As long as activations do not overlap
that is when one of them is alive; of two that overlap, the end of one leaves the writer inactive under the other. -/
namespace ComponentLint

/-- Hands texts to a writer one after another. -/
def FileWriter.handAll {σ : Type} (write : FileWriter σ) : List (Path × Text) → σ → List (Except IoFault Unit) × σ
  | [], s => ([], s)
  | (path, contents) :: rest, s =>
    let (answer, s) := write path contents s
    let (answers, s) := handAll write rest s
    (answer :: answers, s)

/-- A writer that keeps what it is handed. -/
def FileWriter.recorder : FileWriter (List (Path × Text)) := fun path contents kept =>
  (.ok (), kept ++ [(path, contents)])

namespace Component.WriteBack

/-- What is done with a writer. A drop ends the latest activation that is still alive. -/
inductive Step where
  | activate
  | drop
  | write (path : Path) (contents : Text)
deriving DecidableEq, Repr

def advance (w : WriteBack) : Step → WriteBack
  | .activate => w.activate
  | .drop => w.drop
  | .write _ _ => w

/-- The writer after some steps. -/
def after (steps : List Step) : WriteBack := steps.foldl advance {}

/-- Takes steps one after another; each write is answered by the inner writer. -/
def perform {σ : Type} (shelf : Shelf) (inner : FileWriter σ) (w : WriteBack) :
    List Step → σ → List (Except IoFault Unit) × σ
  | [], s => ([], s)
  | .activate :: rest, s => perform shelf inner w.activate rest s
  | .drop :: rest, s => perform shelf inner w.drop rest s
  | .write path contents :: rest, s =>
    let (answer, s) := w.through shelf inner path contents s
    let (answers, s) := perform shelf inner w rest s
    (answer :: answers, s)

/-- A write with the steps before it. -/
structure Write where
  before : List Step
  path : Path
  contents : Text

/-- The writes among some steps, in order. -/
def writes (before : List Step) : List Step → List Write
  | [] => []
  | .activate :: rest => writes (before ++ [.activate]) rest
  | .drop :: rest => writes (before ++ [.drop]) rest
  | .write path contents :: rest => ⟨before, path, contents⟩ :: writes (before ++ [.write path contents]) rest

/-- What is handed to the inner writer. -/
def Write.handed (shelf : Shelf) (x : Write) : Path × Text :=
  (x.path, (after x.before).outgoing shelf x.path x.contents)

/-- No activation has ended since the latest one began. -/
def Covered (steps : List Step) : Prop := ∃ front rest, steps = front ++ .activate :: rest ∧ .drop ∉ rest

/-! ## The flag -/

theorem after_concat (steps : List Step) (step : Step) : after (steps ++ [step]) = (after steps).advance step := by
  simp [after]

/-- An active writer has a live activation. -/
theorem guards_of_active {steps : List Step} (active : (after steps).active = true) : 0 < (after steps).guards := by
  induction steps using List.reverseRecOn with
  | nil => simp [after] at active
  | append_singleton steps step ih =>
    rw [after_concat] at active ⊢
    cases step with
    | activate => simp [advance, activate]
    | write path contents => exact ih active
    | drop =>
      rw [advance, drop] at active ⊢
      cases guards : (after steps).guards with
      | zero =>
        rw [guards] at active ih
        exact absurd (ih active) (by simp)
      | succ n => simp [guards] at active

theorem covered_concat {steps : List Step} {step : Step} (other : step ≠ .activate) :
    Covered (steps ++ [step]) ↔ Covered steps ∧ step ≠ .drop := by
  constructor
  · rintro ⟨front, rest, split, none_⟩
    rcases List.eq_nil_or_concat' rest with rfl | ⟨most, last, rfl⟩
    · have ends := List.append_inj_right' split rfl
      exact absurd (List.singleton_inj.1 ends) other
    · rw [← List.cons_append, ← List.append_assoc] at split
      obtain ⟨same, ends⟩ := List.append_inj' split rfl
      obtain rfl := List.singleton_inj.1 ends
      refine ⟨⟨front, most, same, fun member => none_ (by simp [member])⟩, ?_⟩
      rintro rfl
      simp at none_
  · rintro ⟨⟨front, rest, rfl, none_⟩, notDrop⟩
    exact ⟨front, rest ++ [step], by simp, by simp [none_, notDrop.symm]⟩

/-- The writer is active exactly when no activation has ended since the latest one began. -/
theorem after_active_iff (steps : List Step) : (after steps).active = true ↔ Covered steps := by
  induction steps using List.reverseRecOn with
  | nil =>
    constructor
    · intro active
      simp [after] at active
    · rintro ⟨front, rest, split, -⟩
      simp at split
  | append_singleton steps step ih =>
    rw [after_concat]
    cases step with
    | activate => exact iff_of_true rfl ⟨steps, [], rfl, by simp⟩
    | write path contents => simpa [covered_concat, advance] using ih
    | drop =>
      apply iff_of_false _ (by simp [covered_concat])
      rw [advance, drop]
      cases guards : (after steps).guards with
      | zero =>
        intro active
        have alive := guards_of_active active
        omega
      | succ n => simp

/-- If activations do not overlap, the writer is active exactly while one of them is alive. -/
theorem covered_iff_guards {steps : List Step} (single : ∀ front, front <+: steps → (after front).guards ≤ 1) :
    Covered steps ↔ 0 < (after steps).guards := by
  rw [← after_active_iff]
  induction steps using List.reverseRecOn with
  | nil => simp [after]
  | append_singleton steps step ih =>
    have earlier := ih fun front within => single front (within.trans (List.prefix_append steps [step]))
    have bound := single steps (List.prefix_append steps [step])
    rw [after_concat]
    cases step with
    | activate => simp [advance, activate]
    | write path contents => exact earlier
    | drop =>
      rw [advance, drop]
      cases guards : (after steps).guards with
      | zero =>
        rw [guards] at earlier
        simpa [guards] using earlier
      | succ n =>
        rw [guards] at bound
        simp
        omega

/-! ## The writes -/

section

variable {σ : Type} (shelf : Shelf) (inner : FileWriter σ)

/-- From any steps on, the inner writer is handed each write once, in order. -/
theorem perform_after (before steps : List Step) (s : σ) :
    perform shelf inner (after before) steps s = inner.handAll ((writes before steps).map (Write.handed shelf)) s := by
  induction steps generalizing before s with
  | nil => rfl
  | cons step rest ih =>
    have next := ih (before ++ [step])
    rw [after_concat] at next
    cases step with
    | activate => exact next s
    | drop => exact next s
    | write path contents =>
      simp only [perform, writes, List.map_cons, FileWriter.handAll, Write.handed, through]
      rw [← next]
      rfl

/-- Whatever is done with a writer, the inner writer is handed each write once, in order. A script that has no frame
reaches it as it is; one that has a frame reaches it within the frame exactly when no activation has ended since the
latest one began, which takes a live activation, and comes to the same as one if activations do not overlap. -/
theorem perform_hands (steps : List Step) (s : σ) :
    perform shelf inner {} steps s = inner.handAll ((writes [] steps).map (Write.handed shelf)) s ∧
      ∀ x ∈ writes [] steps,
        (shelf.get? x.path = none → x.handed shelf = (x.path, x.contents)) ∧
        (∀ f, shelf.get? x.path = some f →
          (Covered x.before → x.handed shelf = (x.path, f.wrap x.contents)) ∧
          (¬Covered x.before → x.handed shelf = (x.path, x.contents))) ∧
        (Covered x.before → 0 < (after x.before).guards) ∧
        ((∀ front, front <+: x.before → (after front).guards ≤ 1) →
          (Covered x.before ↔ 0 < (after x.before).guards)) := by
  refine ⟨perform_after shelf inner [] steps s, fun x _ => ⟨fun bare => ?_, fun f framed => ⟨fun covered => ?_, ?_⟩,
    fun covered => guards_of_active ((after_active_iff x.before).2 covered), covered_iff_guards⟩⟩
  · simp [Write.handed, outgoing, Shelf.wrap?, bare]
  · have active := (after_active_iff x.before).2 covered
    simp [Write.handed, outgoing, Shelf.wrap?, framed, active]
  · intro exposed
    have inactive : ¬(after x.before).active = true := fun active => exposed ((after_active_iff x.before).1 active)
    simp [Write.handed, outgoing, inactive]

end

/-- A live activation does not make the writer put a script back into its frame: the end of an activation within it
does away with both. So it is for a single write, behind steps that only begin and end activations. -/
theorem guarded_write_not_wrapped :
    ¬∀ (shelf : Shelf) (steps : List Step) (path : Path) (contents : Text) (f : Frame), shelf.get? path = some f →
      (∀ step ∈ steps, step = .activate ∨ step = .drop) → 0 < (after steps).guards →
      (perform shelf FileWriter.recorder {} (steps ++ [.write path contents]) []).2 = [(path, f.wrap contents)] := by
  intro wrapped
  let path : Path := ⟨"/p/App.vue".toList⟩
  let f : Frame := ⟨path, "<script lang=\"ts\">".toList, "</script>\n".toList⟩
  have found := wrapped ⟨[f]⟩ [.activate, .activate, .drop] path "const a = 1".toList f (by decide +kernel) (by decide)
    (by decide)
  revert found
  decide +kernel

end Component.WriteBack

end ComponentLint
