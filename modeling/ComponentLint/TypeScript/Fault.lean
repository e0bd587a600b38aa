import ComponentLint.Text.Basic

/-! What can be wrong with a script, and where. -/
namespace ComponentLint.TypeScript

inductive Cause where
  | unexpectedToken
  | expected (wanted found : String)
  | expectedEither (separator closing found : String)
  | unterminatedString
  | unterminatedComment
  | unterminatedRegex
  | invalidCharacter (c : Char)
  | missingSemicolon
  | missingInitializer
  | missingPatternInitializer
  | reservedWord (name : String)
  | reservedExport
  | stringExport
  | unmatchedElement (name : String)
  /-- The script nests deeper than it is long, which no script does. -/
  | tooDeep
deriving DecidableEq, Repr, Inhabited

namespace Cause

def message : Cause → String
  | unexpectedToken => "Unexpected token"
  | expected wanted found => s!"Expected `{wanted}` but found `{found}`"
  | expectedEither separator closing found => s!"Expected `{separator}` or `{closing}` but found `{found}`"
  | unterminatedString => "Unterminated string"
  | unterminatedComment => "Unterminated multiline comment"
  | unterminatedRegex => "Unterminated regular expression"
  | invalidCharacter c => s!"Invalid Character `{c}`"
  | missingSemicolon => "Expected a semicolon or an implicit semicolon after a statement, but found none"
  | missingInitializer => "Missing initializer in const declaration"
  | missingPatternInitializer => "Missing initializer in destructuring declaration"
  | reservedWord name => s!"Identifier expected. '{name}' is a reserved word that cannot be used here."
  | reservedExport => "A reserved word cannot be used as an exported binding without `from`"
  | stringExport => "A string literal cannot be used as an exported binding without `from`"
  | unmatchedElement name => s!"Expected corresponding JSX closing tag for '{name}'."
  | tooDeep => "Nesting too deep"

end Cause

structure Fault where
  cause : Cause
  span : Span
deriving DecidableEq, Repr, Inhabited

namespace Fault

def message (f : Fault) : String := f.cause.message

end Fault

end ComponentLint.TypeScript
