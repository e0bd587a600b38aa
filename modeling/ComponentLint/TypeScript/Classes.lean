import ComponentLint.TypeScript.Types
import ComponentLint.TypeScript.Functions
import ComponentLint.TypeScript.Declaration

/-! Classes. -/
namespace ComponentLint.TypeScript.ClassRule

open Parse

/-- What follows `extends` and `implements`. -/
def heritage (g : Grammar) (s : Setting) : Parse Outline := do
  let above ← if ← takesWord "extends" then pure (some (← g.access s)) else pure none
  let arguments ← if s.typed && above.isSome && (← seesLeftAngle) then typeArguments g s else pure .empty
  let promised ←
    if ← takesWordIf s.typed "implements" then
      g.separated "," do return (← TypeRule.qualified g reference) ++ (← typeArgumentsIfAny g s)
    else pure .empty
  return above.getD .empty ++ arguments ++ promised

/-- Words that may stand before a member on its line. -/
def lineMarks : List String :=
  ["public", "private", "protected", "override", "readonly", "abstract", "declare", "accessor", "async"]

/-- Words that may stand before a member. -/
def marks : List String := ["static", "get", "set"]

/-- Passes the words before a member, and tells whether its body may wait. -/
def passMarks (awaits : Bool) : Nat → Parse Bool
  | 0 => return awaits
  | room + 1 => do
    let t ← token
    let next ← following
    let onLine := lineMarks.any t.isKeyword && !next.fresh
    if (onLine || marks.any t.isKeyword) && canFollowModifier next then
      advance
      passMarks (awaits || t.isKeyword "async") room
    else return awaits

/-- The type and the value of a property, or the rest of a method. -/
def memberRest (g : Grammar) (s : Setting) (awaits yields : Bool) : Parse Outline := do
  if s.typed then
    discard (takes "?")
    discard (takes "!")
  if (← sees "(") || (← sees "<") then functionRest g (s.body awaits yields) endStatement
  else
    let type ← annotation g s
    let value ← if ← takes "=" then g.assignment (s.body false false) else pure .empty
    endStatement
    return type ++ value

def member (g : Grammar) (s : Setting) : Parse Outline := do
  if ← takes ";" then return .empty
  let before ← decorators g s
  if (← seesWord "static") && (← following).isPunctuator "\x7b" then
    advance
    block g (s.body true false)
  else
    let awaits ← passMarks false 10
    if s.typed && (← TypeRule.seesIndexSignature) then
      let signature ← TypeRule.indexSignature g s
      TypeRule.endMember
      return before ++ signature
    else
      let yields ← takes "*"
      let key ← propertyName g s
      return before ++ key ++ (← memberRest g s awaits yields)

def body (g : Grammar) (s : Setting) : Parse Outline := do
  expect "\x7b"
  let inside ← g.many do
    if (← sees "\x7d") || (← token).kind = .eof then return none
    else return some (← member g s.inside)
  expect "\x7d"
  return inside

/-- A class, which may have a name. -/
def rule (g : Grammar) (s : Setting) : Parse Named := do
  expectWord "class"
  let declared ←
    if (← token).isIdentifier && !((← seesWord "implements") && s.typed) then bindingName else pure .empty
  let generics ← typeParameters g s
  return .of declared (generics ++ (← heritage g s) ++ (← body g s))

end ComponentLint.TypeScript.ClassRule
