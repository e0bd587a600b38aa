import ComponentLint.Text.Basic

/-! Lines and columns of byte offsets, both counted from 1. -/
namespace ComponentLint

/-- A place in a text; the column counts characters. -/
structure Position where
  line : Nat
  column : Nat
deriving DecidableEq, Repr, Inhabited

namespace Position

/-- The place right after a text that starts at the first line and column. -/
def after (before : Text) : Position :=
  ⟨before.count '\n' + 1, (before.reverse.takeWhile (· ≠ '\n')).length + 1⟩

/-- An offset inside a character counts as its start, one past the end as the end. -/
def ofOffset (text : Text) (offset : Nat) : Position := after (text.within offset)

end Position

end ComponentLint
