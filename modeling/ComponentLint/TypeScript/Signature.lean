import ComponentLint.TypeScript.Generics

/-! What declarations bind: names, the patterns that take values apart, and the parameters of functions. -/
namespace ComponentLint.TypeScript

open Parse

def initializer (g : Grammar) (s : Setting) : Parse Outline := do
  if ← takes "=" then return .aside (← g.assignment s) else return .empty

namespace Pattern

def withDefault (g : Grammar) (s : Setting) : Parse Outline :=
  return (← g.pattern s) ++ (← initializer g s)

/-- A member of an object pattern: a name taken over, a key with a pattern for its value, or the rest. -/
def member (g : Grammar) (s : Setting) : Parse Outline := do
  if ← takes "..." then g.pattern s
  else
    let t ← token
    if t.isIdentifier && !(← following).isPunctuator ":" then
      return (← bindingName) ++ (← initializer g s)
    let key ← propertyName g s
    if t.isReserved && !(← sees ":") then fail (.reservedWord (String.ofList t.text)) t.span
    expect ":"
    return .aside key ++ (← withDefault g s)

def arrayMember (g : Grammar) (s : Setting) : Parse Outline := do
  if ← takes "..." then g.pattern s
  else if ← sees "," then return .empty
  else withDefault g s

def rule (g : Grammar) (s : Setting) : Parse Outline := do
  if ← takes "\x7b" then
    let inside ← g.list "\x7d" (member g s.inside)
    expect "\x7d"
    return inside
  else if ← takes "[" then
    let inside ← g.list "]" (arrayMember g s.inside)
    expect "]"
    return inside
  else bindingName

end Pattern

def decorators (g : Grammar) (s : Setting) : Parse Outline :=
  g.many do
    if ← takes "@" then return some (← g.access { s with decorates := true }) else return none

def parameterMarks : List String := ["public", "private", "protected", "override", "readonly"]

/-- Passes the words that make a parameter a property. -/
def passParameterMarks : Nat → Parse Unit
  | 0 => return ()
  | marks + 1 => do
    let next ← following
    if parameterMarks.any (← token).isKeyword && !next.fresh &&
        (next.kind = .word || next.isPunctuator "\x7b" || next.isPunctuator "[") then
      advance
      passParameterMarks marks

def parameter (g : Grammar) (s : Setting) : Parse Outline := do
  let before ← decorators g s
  if s.typed then passParameterMarks 4
  if ← takesWordIf s.typed "this" then
    return before ++ (← annotation g s)
  discard (takes "...")
  let pattern ← g.pattern s
  if s.typed then discard (takes "?")
  return before ++ pattern ++ (← annotation g s) ++ (← initializer g s)

/-- Parameters in parentheses. -/
def parameters (g : Grammar) (s : Setting) : Parse Outline := do
  expect "("
  let inside ← g.list ")" (parameter g s.inside)
  expect ")"
  return inside

end ComponentLint.TypeScript
