import ComponentLint.TypeScript.Grammar

/-! Where types are written: behind a colon, as the parameters of a declaration, and as the arguments of a
use. Of a type, what counts is which declarations it names and which it makes. -/
namespace ComponentLint.TypeScript

open Parse

/-- Whether a `<` begins the current token. -/
def seesLeftAngle : Parse Bool := return (← sees "<") || (← sees "<<")

/-- Reads the brackets around the types of a use. -/
def typeArguments (g : Grammar) (s : Setting) : Parse Outline := do
  reread Scan.leftAngle
  expect "<"
  let inside ← g.list ">" (g.type s.inside)
  expect ">"
  return inside

/-- The types of a use, which begin on the line of its name. -/
def typeArgumentsIfAny (g : Grammar) (s : Setting) : Parse Outline := do
  if !(← token).fresh && (← seesLeftAngle) then typeArguments g s else return .empty

/-- Passes the words that mark a type parameter. -/
def typeParameterMarks : Nat → Parse Unit
  | 0 => return ()
  | marks + 1 => do
    let t ← token
    if t.isKeyword "const" || ((t.isKeyword "in" || t.isKeyword "out") && (← following).isIdentifier) then
      advance
      typeParameterMarks marks

def typeParameter (g : Grammar) (s : Setting) : Parse Outline := do
  typeParameterMarks 3
  let declared ← bindingName
  let above ← if ← takesWord "extends" then g.type s else pure .empty
  let default ← if ← takes "=" then g.type s else pure .empty
  return declared ++ above ++ default

/-- The parameters of a generic declaration, if there are any. -/
def typeParameters (g : Grammar) (s : Setting) : Parse Outline := do
  if s.typed && (← sees "<") then
    advance
    let inside ← g.list ">" (typeParameter g s.inside)
    expect ">"
    return inside
  else return .empty

/-- What a function gives: a type, or a statement about one of its parameters. -/
def resultType (g : Grammar) (s : Setting) : Parse Outline := do
  let t ← token
  let next ← following
  let isParameter (u : Token) : Bool := u.isIdentifier || u.isKeyword "this"
  if isParameter t && next.isKeyword "is" && !next.fresh then
    advance
    advance
    g.type s
  else if t.isKeyword "asserts" && isParameter next && !next.fresh then
    advance
    advance
    if ← takesWord "is" then g.type s else return .empty
  else g.type s

def annotation (g : Grammar) (s : Setting) : Parse Outline := do
  if ← takesIf s.typed ":" then g.type s else return .empty

def resultAnnotation (g : Grammar) (s : Setting) : Parse Outline := do
  if ← takesIf s.typed ":" then resultType g s else return .empty

end ComponentLint.TypeScript
