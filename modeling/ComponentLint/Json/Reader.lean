import ComponentLint.Json.Fault

/-! Reading JSON from left to right. A reader changes the cursor and gives a value or a fault; a fault
keeps the cursor where reading stopped, because that is where messages point. -/
namespace ComponentLint.Json

structure Cursor where
  rest : Text
  place : Place
deriving DecidableEq, Repr, Inhabited

namespace Cursor

def start (t : Text) : Cursor := ⟨t, ⟨1, 0⟩⟩

def behind (p : Place) (c : Char) : Place :=
  if c = '\n' then ⟨p.line + 1, 0⟩ else ⟨p.line, p.column + c.utf8Size⟩

/-- The place one byte on, used by faults about a character that was only looked at. -/
def peekPlace (c : Cursor) : Place :=
  match c.rest with
  | [] => c.place
  | '\n' :: _ => ⟨c.place.line + 1, 0⟩
  | _ :: _ => ⟨c.place.line, c.place.column + 1⟩

end Cursor

abbrev Reading := EStateM Fault Cursor

namespace Reading

def peek : Reading (Option Char) := return (← get).rest.head?

/-- The next character; nothing moves at the end. -/
def next : Reading (Option Char) := do
  let c ← get
  match c.rest with
  | [] => return none
  | x :: rest =>
    set (⟨rest, Cursor.behind c.place x⟩ : Cursor)
    return some x

def fail (cause : Cause) : Reading α := do throw ⟨cause, some (← get).place⟩

def failAhead (cause : Cause) : Reading α := do throw ⟨cause, some (← get).peekPlace⟩

/-- Fails without a place of its own. -/
def failSomewhere (cause : Cause) : Reading α := throw ⟨cause, none⟩

/-- Gives a fault of the inner reader the place of the cursor if it has none. -/
def placed (inner : Reading α) : Reading α := fun c =>
  match inner c with
  | .ok a c => .ok a c
  | .error f c => .error { f with place := f.place.or (some c.place) } c

/-- Reads what closes a value even after a fault inside it; the fault inside counts. -/
def closedBy (inner : Reading α) (close : Reading Unit) : Reading α := fun c =>
  match inner c with
  | .ok a c =>
    match close c with
    | .ok _ c => .ok a c
    | .error f c => .error f c
  | .error f c =>
    match close c with
    | .ok _ c => .error f c
    | .error _ c => .error f c

def isSpace (c : Char) : Bool := c = ' ' || c = '\n' || c = '\t' || c = '\r'

def skipSpaceIn (p : Place) : Text → Cursor
  | [] => ⟨[], p⟩
  | c :: rest => if isSpace c then skipSpaceIn (Cursor.behind p c) rest else ⟨c :: rest, p⟩

/-- Passes white space and looks at what follows. -/
def peekToken : Reading (Option Char) := do
  modify fun c => skipSpaceIn c.place c.rest
  peek

/-- An upper bound for the steps of a loop that takes a character each time. -/
def room : Reading Nat := return (← get).rest.length + 1

def literal : List Char → Reading Unit
  | [] => return
  | expected :: more => do
    match ← next with
    | none => fail .endInValue
    | some c => if c = expected then literal more else fail .expectedIdent

def hexValue (c : Char) : Option Nat :=
  if c.isDigit then some (c.toNat - '0'.toNat)
  else if 'a' ≤ c && c ≤ 'f' then some (c.toNat - 'a'.toNat + 10)
  else if 'A' ≤ c && c ≤ 'F' then some (c.toNat - 'A'.toNat + 10)
  else none

/-- Takes a number of bytes; a character that is cut counts whole. -/
def takeBytes : Nat → Reading Text
  | 0 => return []
  | n + 1 => do
    match ← next with
    | none => return []
    | some c => return c :: (← takeBytes (n + 1 - c.utf8Size))
termination_by n => n
decreasing_by have := Char.utf8Size_pos c; omega

def hexEscape : Reading Nat := do
  if Text.byteSize (← get).rest < 4 then
    modify fun c => ⟨[], c.rest.foldl Cursor.behind c.place⟩
    fail .endInString
  else
    match (← takeBytes 4).mapM hexValue with
    | some [a, b, c, d] => return ((a * 16 + b) * 16 + c) * 16 + d
    | _ => fail .invalidEscape

/-- The second half of a pair of escapes that stand for one character. -/
def lowHalf (high : Nat) : Reading Char := do
  match ← peek with
  | none => fail .endInString
  | some c =>
    let _ ← next
    if c ≠ '\\' then fail .endOfEscapePair
    else match ← peek with
      | none => fail .endInString
      | some c =>
        let _ ← next
        if c ≠ 'u' then fail .endOfEscapePair
        else
          let low ← hexEscape
          if low < 0xDC00 || 0xDFFF < low then fail .loneSurrogate
          else return Char.ofNat ((high - 0xD800) * 0x400 + (low - 0xDC00) + 0x10000)

/-- The character that an escape stands for, behind its backslash. -/
def escape : Reading Char := do
  match ← next with
  | none => fail .endInString
  | some '"' => return '"'
  | some '\\' => return '\\'
  | some '/' => return '/'
  | some 'b' => return '\x08'
  | some 'f' => return '\x0c'
  | some 'n' => return '\n'
  | some 'r' => return '\r'
  | some 't' => return '\t'
  | some 'u' =>
    let n ← hexEscape
    if 0xDC00 ≤ n && n ≤ 0xDFFF then fail .loneSurrogate
    else if 0xD800 ≤ n && n ≤ 0xDBFF then lowHalf n
    else return Char.ofNat n
  | some _ => fail .invalidEscape

def stringLoop : Nat → Text → Reading Text
  | 0, _ => fail .endInString
  | fuel + 1, read => do
    match ← next with
    | none => fail .endInString
    | some '"' => return read.reverse
    | some '\\' => stringLoop fuel ((← escape) :: read)
    | some c => if c.toNat < 0x20 then fail .controlCharacter else stringLoop fuel (c :: read)

def string : Reading Text := do stringLoop (← room) []

def digitsLoop : Nat → List Nat → Reading (List Nat)
  | 0, read => return read.reverse
  | fuel + 1, read => do
    match ← peek with
    | some c =>
      if c.isDigit then
        let _ ← next
        digitsLoop fuel ((c.toNat - '0'.toNat) :: read)
      else return read.reverse
    | none => return read.reverse

def digits : Reading (List Nat) := do digitsLoop (← room) []

/-- A significand of 64 bits takes digits as long as they fit; the count tells how many were left. -/
def significand : Nat → List Nat → Nat × Nat
  | n, [] => (n, 0)
  | n, d :: rest =>
    if n * 10 + d < Nat.pow 2 64 then significand (n * 10 + d) rest else (n, rest.length + 1)

/-- `significand * 10 ^ exponent` in floating point, a step of at most 308 powers at a time. -/
def scale : Nat → Float → Int → Option Float
  | 0, f, _ => some f
  | fuel + 1, f, exponent =>
    if exponent.natAbs ≤ 308 then
      let power := Float.ofScientific 1 false exponent.natAbs
      if 0 ≤ exponent then
        let f := f * power
        if f.isInf then none else some f
      else some (f / power)
    else if f == 0.0 then some f
    else if 0 ≤ exponent then none
    else scale fuel (f / Float.ofScientific 1 false 308) (exponent + 308)

def real (positive : Bool) (whole : List Nat) (fraction : List Nat) (exponent : Int) : Reading Number := do
  let (n, left) := significand 0 whole
  let (m, taken) :=
    if left = 0 then
      let (m, dropped) := significand n fraction
      (m, fraction.length - dropped)
    else (n, 0)
  match scale 4 (Float.ofNat m) (exponent + left - taken) with
  | none => fail .numberOutOfRange
  | some f => return .real (Decimal.render (if positive then f else -f))

def exponent : Reading Int := do
  let sign ← peek
  if sign = some '+' || sign = some '-' then let _ ← next
  match ← next with
  | none => fail .endInValue
  | some c =>
    if c.isDigit then
      let more ← digits
      let size := more.foldl (fun n d => n * 10 + d) (c.toNat - '0'.toNat)
      return if sign = some '-' then -(size : Int) else size
    else fail .invalidNumber

/-- A number, of which only a minus sign has been read. -/
def number (positive : Bool) : Reading Number := do
  match ← next with
  | none => fail .endInValue
  | some c =>
    if !c.isDigit then fail .invalidNumber
    else if c = '0' && (← peek).any Char.isDigit then failAhead .invalidNumber
    else
      let whole := (c.toNat - '0'.toNat) :: (← if c = '0' then pure [] else digits)
      let following ← peek
      if following = some '.' then
        let _ ← next
        let fraction ← digits
        if fraction = [] then
          if (← peek).isNone then failAhead .endInValue else failAhead .invalidNumber
        else
          let mark ← peek
          if mark = some 'e' || mark = some 'E' then
            let _ ← next
            real positive whole fraction (← exponent)
          else real positive whole fraction 0
      else if following = some 'e' || following = some 'E' then
        let _ ← next
        real positive whole [] (← exponent)
      else
        let n := whole.foldl (fun n d => n * 10 + d) 0
        if positive then if n < Nat.pow 2 64 then return .natural n else real true whole [] 0
        else if 0 < n && n ≤ Nat.pow 2 63 then return .negative n
        else real false whole [] 0

def endList : Reading Unit := do
  match ← peekToken with
  | some ']' => let _ ← next
  | some ',' =>
    let _ ← next
    if (← peekToken) = some ']' then failAhead .trailingComma else failAhead .trailingCharacters
  | some _ => failAhead .trailingCharacters
  | none => failAhead .endInList

def endObject : Reading Unit := do
  match ← peekToken with
  | some '\x7d' => let _ ← next
  | some ',' => failAhead .trailingComma
  | some _ => failAhead .trailingCharacters
  | none => failAhead .endInObject

/-- Whether another element follows in a list. -/
def hasElement (first : Bool) : Reading Bool := do
  match ← peekToken with
  | none => failAhead .endInList
  | some ']' => return false
  | some ',' =>
    if first then return true
    else
      let _ ← next
      match ← peekToken with
      | some ']' => failAhead .trailingComma
      | some _ => return true
      | none => failAhead .endInValue
  | some _ => if first then return true else failAhead .expectedListCommaOrEnd

/-- Whether another key follows in an object; its quote is then the character ahead. -/
def hasKey (first : Bool) : Reading Bool := do
  match ← peekToken with
  | none => failAhead .endInObject
  | some '\x7d' => return false
  | some c =>
    if first then
      if c = '"' then return true else failAhead .keyNotString
    else if c = ',' then
      let _ ← next
      match ← peekToken with
      | some '"' => return true
      | some '\x7d' => failAhead .trailingComma
      | some _ => failAhead .keyNotString
      | none => failAhead .endInValue
    else failAhead .expectedObjectCommaOrEnd

def key : Reading Text := do
  let _ ← next
  string

def colon : Reading Unit := do
  match ← peekToken with
  | some ':' => let _ ← next
  | some _ => failAhead .expectedColon
  | none => failAhead .endInObject

/-- Nothing but white space may follow. -/
def finish : Reading Unit := do
  if (← peekToken).isSome then failAhead .trailingCharacters

/-- Runs a reader over a whole document. -/
def document (reader : Reading α) (t : Text) : Except Fault α :=
  match (do let a ← reader; finish; return a : Reading α) (Cursor.start t) with
  | .ok a _ => .ok a
  | .error f _ => .error f

end Reading

end ComponentLint.Json
