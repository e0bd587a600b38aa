import ComponentLint.TypeScript.Fault

/-! What other units need to know of one: the modules that it asks for, the names that it exports, and what
is wrong with it. -/
namespace ComponentLint

open TypeScript

inductive RequestKind where
  | imported
  | reExported
  /-- While the script runs. -/
  | dynamic
deriving DecidableEq, Repr, Inhabited

/-- A name wanted from a module. -/
structure WantedName where
  name : Text
  span : Span
deriving DecidableEq, Repr, Inhabited

structure Request where
  specifier : Text
  /-- The specifier with its quotes. -/
  span : Span
  kind : RequestKind
  typeOnly : Bool
  names : List WantedName
deriving DecidableEq, Repr, Inhabited

structure Exports where
  names : List Text
  /-- Whether there may be others. -/
  isOpen : Bool
deriving DecidableEq, Repr, Inhabited

structure ModuleRecord where
  requests : List Request
  exports : Exports
  faults : List Fault
deriving DecidableEq, Repr, Inhabited

namespace Exports

def empty : Exports := ⟨[], false⟩

/-- Whether a name is or may be exported. -/
def contains (e : Exports) (name : Text) : Bool := e.isOpen || e.names.contains name

def insert (e : Exports) (name : Text) : Exports :=
  if e.names.contains name then e else { e with names := e.names ++ [name] }

def insertAll (e : Exports) (names : List Text) : Exports := names.foldl insert e

def opened (e : Exports) : Exports := { e with isOpen := true }

variable {e : Exports} {n m : Text}

theorem mem_insert_iff : n ∈ (e.insert m).names ↔ n ∈ e.names ∨ n = m := by
  rw [insert]
  split
  · rename_i there
    rw [List.contains_iff_mem] at there
    constructor
    · exact .inl
    · rintro (old | rfl)
      · exact old
      · exact there
  · simp

theorem nodup_insert (h : e.names.Nodup) (m : Text) : (e.insert m).names.Nodup := by
  rw [insert]
  split
  · exact h
  · rename_i absent
    rw [List.contains_iff_mem] at absent
    apply List.nodup_append.2
    refine ⟨h, by simp, fun a old b new => ?_⟩
    rintro rfl
    rw [List.mem_singleton.1 new] at old
    exact absent old

theorem mem_insertAll_iff {ms : List Text} : n ∈ (e.insertAll ms).names ↔ n ∈ e.names ∨ n ∈ ms := by
  induction ms generalizing e with
  | nil => simp [insertAll]
  | cons m ms ih =>
    have step : e.insertAll (m :: ms) = (e.insert m).insertAll ms := rfl
    rw [step, ih, mem_insert_iff, List.mem_cons, or_assoc]

/-- Each name is recorded once. -/
theorem nodup_insertAll (h : e.names.Nodup) (ms : List Text) : (e.insertAll ms).names.Nodup := by
  induction ms generalizing e with
  | nil => exact h
  | cons m ms ih => exact ih (nodup_insert h m)

end Exports

end ComponentLint
