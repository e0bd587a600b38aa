/-! Texts are lists of characters; offsets into them count UTF-8 bytes. `splitAt?` succeeds exactly on
the character boundaries of a text, and what it returns is the text itself, cut in two. -/
namespace ComponentLint

/-- A document, or any piece cut out of one. -/
abbrev Text := List Char

/-- A half-open range of byte offsets. -/
structure Span where
  start : Nat
  stop : Nat
deriving DecidableEq, Repr, Inhabited

namespace Span

def shift (offset : Nat) (s : Span) : Span := ⟨s.start + offset, s.stop + offset⟩

end Span

namespace Text

def byteSize : Text → Nat
  | [] => 0
  | c :: rest => c.utf8Size + byteSize rest

@[simp] theorem byteSize_nil : byteSize [] = 0 := rfl

@[simp] theorem byteSize_cons (c : Char) (t : Text) : byteSize (c :: t) = c.utf8Size + byteSize t := rfl

@[simp] theorem byteSize_append (a b : Text) : byteSize (a ++ b) = byteSize a + byteSize b := by
  induction a with
  | nil => simp
  | cons c a ih => simp [ih, Nat.add_assoc]

/-- Cuts at a byte offset; fails inside a character and past the end. -/
def splitAt? : Nat → Text → Option (Text × Text)
  | 0, t => some ([], t)
  | _ + 1, [] => none
  | n + 1, c :: rest =>
    if c.utf8Size ≤ n + 1 then
      (splitAt? (n + 1 - c.utf8Size) rest).map fun (before, after) => (c :: before, after)
    else none

theorem splitAt?_byteSize_append (a b : Text) : splitAt? (byteSize a) (a ++ b) = some (a, b) := by
  induction a with
  | nil => cases b <;> rfl
  | cons c a ih =>
    have positive := Char.utf8Size_pos c
    obtain ⟨n, hn⟩ : ∃ n, byteSize (c :: a) = n + 1 := ⟨byteSize (c :: a) - 1, by simp; omega⟩
    rw [hn]
    have rest : n + 1 - c.utf8Size = byteSize a := by rw [← hn]; simp
    have fits : c.utf8Size ≤ n + 1 := by rw [← hn]; simp
    simp [splitAt?, fits, rest, ih]

theorem eq_append_of_splitAt? {n : Nat} {t a b : Text} (h : splitAt? n t = some (a, b)) :
    t = a ++ b ∧ byteSize a = n := by
  induction t generalizing n a b with
  | nil =>
    cases n with
    | zero => simp_all [splitAt?]
    | succ n => simp [splitAt?] at h
  | cons c t ih =>
    cases n with
    | zero =>
      simp only [splitAt?, Option.some.injEq, Prod.mk.injEq] at h
      obtain ⟨rfl, rfl⟩ := h
      simp
    | succ n =>
      simp only [splitAt?] at h
      split at h
      · rename_i fits
        obtain ⟨⟨x, y⟩, hxy, heq⟩ := Option.map_eq_some_iff.1 h
        obtain ⟨rfl, size⟩ := ih hxy
        simp at heq
        obtain ⟨rfl, rfl⟩ := heq
        exact ⟨rfl, by simp [size]; omega⟩
      · simp at h

/-- Cutting is possible exactly where the text falls into two texts at that size. -/
theorem splitAt?_eq_some_iff {n : Nat} {t a b : Text} :
    splitAt? n t = some (a, b) ↔ t = a ++ b ∧ byteSize a = n :=
  ⟨eq_append_of_splitAt?, fun ⟨h, size⟩ => by rw [h, ← size, splitAt?_byteSize_append]⟩

def isBoundary (n : Nat) (t : Text) : Bool := (splitAt? n t).isSome

/-- The piece between two byte offsets, if both are boundaries in order. -/
def slice? (t : Text) (s : Span) : Option Text := do
  let (before, _) ← splitAt? s.stop t
  let (_, piece) ← splitAt? s.start before
  return piece

/-- The piece between two byte offsets, empty where there is none. -/
def slice (t : Text) (s : Span) : Text := (slice? t s).getD []

def splice? (t : Text) (s : Span) (new : Text) : Option Text := do
  let (before, rest) ← splitAt? s.start t
  let (_, after) ← splitAt? (s.stop - s.start) rest
  if s.start ≤ s.stop then return before ++ new ++ after else none

/-- The longest beginning of at most `n` bytes. -/
def within : Nat → Text → Text
  | _, [] => []
  | n, c :: rest => if c.utf8Size ≤ n then c :: within (n - c.utf8Size) rest else []

/-- What follows a given beginning. -/
def after? : Text → Text → Option Text
  | [], t => some t
  | _ :: _, [] => none
  | p :: start, c :: t => if p = c then after? start t else none

theorem after?_eq_some_iff {start t rest : Text} : after? start t = some rest ↔ t = start ++ rest := by
  induction start generalizing t with
  | nil => simp [after?]
  | cons p start ih =>
    cases t with
    | nil => simp [after?]
    | cons c t =>
      by_cases h : p = c
      · simp [after?, h, ih]
      · simp [after?, h]; intro eq; exact absurd eq.symm h

def startsWith (t start : Text) : Bool := (after? start t).isSome

def endsWith (t finish : Text) : Bool := startsWith t.reverse finish.reverse

/-- The text around the first occurrence of `needle`. -/
def breakOn? (needle : Text) : Text → Option (Text × Text)
  | [] => if needle = [] then some ([], []) else none
  | c :: rest =>
    match after? needle (c :: rest) with
    | some after => some ([], after)
    | none => (breakOn? needle rest).map fun (before, after) => (c :: before, after)

/-- Where the last occurrence of a character starts. -/
def lastOffset? (c : Char) (t : Text) : Option Nat :=
  match t.reverse.dropWhile (· ≠ c) with
  | [] => none
  | _ :: before => some (byteSize before)

/-- Where the first occurrence of a character stops. -/
def offsetBehind? (c : Char) (t : Text) : Option Nat :=
  match t.dropWhile (· ≠ c) with
  | [] => none
  | _ :: _ => some (byteSize (t.takeWhile (· ≠ c)) + c.utf8Size)

/-- The pieces between the occurrences of a character, one more than there are occurrences. -/
def splitOn (separator : Char) : Text → List Text
  | [] => [[]]
  | c :: rest =>
    match splitOn separator rest with
    | [] => [[c]]
    | piece :: pieces => if c = separator then [] :: piece :: pieces else (c :: piece) :: pieces

/-- The texts of a list with `separator` between them. -/
def join (separator : Text) : List Text → Text
  | [] => []
  | [t] => t
  | t :: u :: rest => t ++ separator ++ join separator (u :: rest)

def before : Text → Text → Bool
  | _, [] => false
  | [], _ :: _ => true
  | a :: s, b :: t => a < b || (a = b && before s t)

/-- The lines of a text, each with its line feed; the last may have none, and none is empty. -/
def lines : Text → List Text
  | [] => []
  | c :: rest =>
    if c = '\n' then [c] :: lines rest
    else match lines rest with
      | [] => [[c]]
      | line :: more => (c :: line) :: more

theorem flatten_lines (t : Text) : (lines t).flatten = t := by
  induction t with
  | nil => rfl
  | cons c t ih =>
    by_cases h : c = '\n'
    · simp [lines, h, ih]
    · simp only [lines, h, if_false]
      cases hl : lines t with
      | nil => simp [hl] at ih; simp [← ih]
      | cons line more => simp [hl] at ih; simp [← ih]

end Text

end ComponentLint
