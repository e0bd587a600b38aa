import ComponentLint.Decimal.Shortest
import ComponentLint.Text.Quoted

/-! What can be wrong with a JSON document, and where. -/
namespace ComponentLint.Json

/-- A number as documents hold it; one that is no 64-bit integer is kept by its shortest digits. -/
inductive Number where
  | natural (n : Nat)
  | negative (n : Nat)
  | real (digits : String)
deriving DecidableEq, Repr, Inhabited

/-- The kind of a value that stands where another was expected. -/
inductive Found where
  | null
  | bool (b : Bool)
  | number (n : Number)
  | string (s : Text)
  | sequence
  | map
deriving DecidableEq, Repr, Inhabited

namespace Found

def describe : Found → String
  | null => "null"
  | bool b => s!"boolean `{b}`"
  | number (.natural n) => s!"integer `{n}`"
  | number (.negative n) => s!"integer `-{n}`"
  | number (.real digits) => s!"floating point `{digits}`"
  | string s => "string " ++ String.ofList s.quoted
  | sequence => "sequence"
  | map => "map"

end Found

inductive Cause where
  | endInList
  | endInObject
  | endInString
  | endInValue
  | expectedColon
  | expectedListCommaOrEnd
  | expectedObjectCommaOrEnd
  | expectedIdent
  | expectedValue
  | invalidEscape
  | invalidNumber
  | numberOutOfRange
  | controlCharacter
  | keyNotString
  | loneSurrogate
  | trailingComma
  | trailingCharacters
  | endOfEscapePair
  | tooDeep
  | mismatch (found : Found) (expected : String)
  | duplicateField (name : String)
  | tooShort (length : Nat) (expected : String)
  | noVariant (type : String)
deriving DecidableEq, Repr, Inhabited

namespace Cause

def message : Cause → String
  | endInList => "EOF while parsing a list"
  | endInObject => "EOF while parsing an object"
  | endInString => "EOF while parsing a string"
  | endInValue => "EOF while parsing a value"
  | expectedColon => "expected `:`"
  | expectedListCommaOrEnd => "expected `,` or `]`"
  | expectedObjectCommaOrEnd => "expected `,` or `\x7d`"
  | expectedIdent => "expected ident"
  | expectedValue => "expected value"
  | invalidEscape => "invalid escape"
  | invalidNumber => "invalid number"
  | numberOutOfRange => "number out of range"
  | controlCharacter => "control character (\\u0000-\\u001F) found while parsing a string"
  | keyNotString => "key must be a string"
  | loneSurrogate => "lone leading surrogate in hex escape"
  | trailingComma => "trailing comma"
  | trailingCharacters => "trailing characters"
  | endOfEscapePair => "unexpected end of hex escape"
  | tooDeep => "recursion limit exceeded"
  | mismatch found expected => s!"invalid type: {found.describe}, expected {expected}"
  | duplicateField name => s!"duplicate field `{name}`"
  | tooShort length expected => s!"invalid length {length}, expected {expected}"
  | noVariant type => s!"data did not match any variant of untagged enum {type}"

end Cause

/-- A line, counted from 1, and the number of bytes taken from it. -/
structure Place where
  line : Nat
  column : Nat
deriving DecidableEq, Repr, Inhabited

/-- A fault without a place takes the place at which the reader of the enclosing value stands. -/
structure Fault where
  cause : Cause
  place : Option Place
deriving DecidableEq, Repr, Inhabited

namespace Fault

def message (f : Fault) : String :=
  match f.place with
  | none => f.cause.message
  | some p => s!"{f.cause.message} at line {p.line} column {p.column}"

end Fault

end ComponentLint.Json
