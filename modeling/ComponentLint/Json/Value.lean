import ComponentLint.Json.Reader

/-! Values of any shape, and passing over values that nobody asked for. Values may nest to a fixed depth;
what is passed over may nest as it likes. -/
namespace ComponentLint.Json

inductive Value where
  | null
  | bool (b : Bool)
  | number (n : Number)
  | string (s : Text)
  | list (items : List Value)
  | object (members : List (Text × Value))
deriving Repr, Inhabited

namespace Value

/-- How deep a document may nest. -/
def depthLimit : Nat := 128

end Value

namespace Reading

def elementsLoop (element : Reading α) (first : Bool) : Nat → Reading (List α)
  | 0 => return []
  | fuel + 1 => do
    if ← hasElement first then
      let a ← element
      return a :: (← elementsLoop element false fuel)
    else return []

/-- The elements of a list up to its bracket. -/
def elements (element : Reading α) : Reading (List α) := do elementsLoop element true (← room)

def membersLoop (member : Reading α) (first : Bool) : Nat → Reading (List (Text × α))
  | 0 => return []
  | fuel + 1 => do
    if ← hasKey first then
      let k ← key
      colon
      let v ← member
      return (k, v) :: (← membersLoop member false fuel)
    else return []

/-- The members of an object up to its brace, with repeated keys. -/
def members (member : Reading α) : Reading (List (Text × α)) := do membersLoop member true (← room)

/-- A scalar, if one stands ahead. -/
def scalar? (ahead : Char) : Option (Reading Value) :=
  match ahead with
  | 'n' => some do let _ ← next; literal "ull".toList; return .null
  | 't' => some do let _ ← next; literal "rue".toList; return .bool true
  | 'f' => some do let _ ← next; literal "alse".toList; return .bool false
  | '-' => some do let _ ← next; return .number (← number false)
  | '"' => some do let _ ← next; return .string (← string)
  | c => if c.isDigit then some do return .number (← number true) else none

/-- A value that may nest so many levels less one. -/
def value : Nat → Reading Value
  | 0 => failAhead .tooDeep
  | levels + 1 => placed do
    match ← peekToken with
    | none => failAhead .endInValue
    | some '[' =>
      if levels = 0 then failAhead .tooDeep
      else
        let _ ← next
        return .list (← closedBy (elements (value levels)) endList)
    | some '\x7b' =>
      if levels = 0 then failAhead .tooDeep
      else
        let _ ← next
        return .object (← closedBy (members (value levels)) endObject)
    | some c => (scalar? c).getD (failAhead .expectedValue)

/-- Passes the rest of a string; surrogates need no partner here. -/
def skipString : Nat → Reading Unit
  | 0 => fail .endInString
  | fuel + 1 => do
    match ← peek with
    | none => fail .endInString
    | some '"' => let _ ← next
    | some '\\' =>
      let _ ← next
      match ← next with
      | none => fail .endInString
      | some 'u' =>
        let _ ← hexEscape
        skipString fuel
      | some c => if "\"\\/bfnrt".toList.contains c then skipString fuel else fail .invalidEscape
    | some c =>
      if c.toNat < 0x20 then fail .controlCharacter
      else
        let _ ← next
        skipString fuel

def skipExponent : Reading Unit := do
  let _ ← next
  let sign ← peek
  if sign = some '+' || sign = some '-' then let _ ← next
  if (← next).any Char.isDigit then let _ ← digits
  else fail .invalidNumber

def skipNumber : Reading Unit := do
  match ← next with
  | none => fail .invalidNumber
  | some c =>
    if !c.isDigit then fail .invalidNumber
    else if c = '0' && (← peek).any Char.isDigit then failAhead .invalidNumber
    else
      if c ≠ '0' then let _ ← digits
      match ← peek with
      | some '.' =>
        let _ ← next
        if (← digits) = [] then failAhead .invalidNumber
        else
          let mark ← peek
          if mark = some 'e' || mark = some 'E' then skipExponent
      | some 'e' => skipExponent
      | some 'E' => skipExponent
      | _ => return

def skipElements (element : Reading Unit) (first : Bool) : Nat → Reading Unit
  | 0 => return
  | fuel + 1 => do
    match ← peekToken with
    | none => failAhead .endInList
    | some ']' => let _ ← next
    | some c =>
      if first then
        element
        skipElements element false fuel
      else if c = ',' then
        let _ ← next
        element
        skipElements element false fuel
      else failAhead .expectedListCommaOrEnd

def skipMember (member : Reading Unit) : Reading Unit := do
  match ← peekToken with
  | none => failAhead .endInObject
  | some '"' =>
    let _ ← next
    skipString (← room)
    colon
    member
  | some _ => failAhead .keyNotString

def skipMembers (member : Reading Unit) (first : Bool) : Nat → Reading Unit
  | 0 => return
  | fuel + 1 => do
    match ← peekToken with
    | none => failAhead .endInObject
    | some '\x7d' => let _ ← next
    | some c =>
      if first then
        skipMember member
        skipMembers member false fuel
      else if c = ',' then
        let _ ← next
        skipMember member
        skipMembers member false fuel
      else failAhead .expectedObjectCommaOrEnd

def skipLoop : Nat → Reading Unit
  | 0 => return
  | fuel + 1 => do
    match ← peekToken with
    | none => failAhead .endInValue
    | some 'n' => let _ ← next; literal "ull".toList
    | some 't' => let _ ← next; literal "rue".toList
    | some 'f' => let _ ← next; literal "alse".toList
    | some '-' => let _ ← next; skipNumber
    | some '"' => let _ ← next; skipString (← room)
    | some '[' => let _ ← next; skipElements (skipLoop fuel) true (← room)
    | some '\x7b' => let _ ← next; skipMembers (skipLoop fuel) true (← room)
    | some c => if c.isDigit then skipNumber else failAhead .expectedValue

def skip : Reading Unit := do skipLoop (← room)

end Reading

end ComponentLint.Json
