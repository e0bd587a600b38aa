import ComponentLint.TypeScript.Signature

/-! Functions: their parameters, results and bodies. A declaration may go without a body. -/
namespace ComponentLint.TypeScript

open Parse

/-- The setting inside a function. -/
def Setting.body (s : Setting) (awaits yields : Bool) : Setting :=
  { s.inside with awaits := awaits, yields := yields }

/-- Statements up to a closing brace, which stays, or up to the end. -/
def statements (g : Grammar) (s : Setting) : Parse Outline :=
  g.many do
    if (← sees "\x7d") || (← token).kind = .eof then return none
    else return some (← g.statement s)

def block (g : Grammar) (s : Setting) : Parse Outline := do
  expect "\x7b"
  let inside ← statements g s.inside
  expect "\x7d"
  return inside

/-- Parameters, result and body, where `ended` tells how a function without a body ends. -/
def functionRest (g : Grammar) (s : Setting) (ended : Parse Unit) : Parse Outline := do
  let generics ← typeParameters g s
  let inputs ← parameters g s
  let result ← resultAnnotation g s
  if ← sees "\x7b" then
    return generics ++ inputs ++ result ++ (← block g s)
  else
    unless s.typed do expect "\x7b"
    ended
    return generics ++ inputs ++ result

/-- Passes `async function` or `function`, and the star of a generator. -/
def functionHead (s : Setting) : Parse Setting := do
  let awaits ← takesWord "async"
  expectWord "function"
  let yields ← takes "*"
  return s.body awaits yields

def isFunctionStart : Parse Bool := do
  let next ← following
  return (← seesWord "function") || ((← seesWord "async") && next.isKeyword "function" && !next.fresh)

def functionExpression (g : Grammar) (s : Setting) : Parse Outline := do
  let inside ← functionHead s
  let named ← if (← token).isIdentifier then bindingName else pure .empty
  return named ++ (← functionRest g inside (pure ()))

end ComponentLint.TypeScript
