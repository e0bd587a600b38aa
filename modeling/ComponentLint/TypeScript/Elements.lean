import ComponentLint.TypeScript.Generics

/-! Elements: tags with attributes and children among the expressions of a script. -/
namespace ComponentLint.TypeScript.ElementRule

open Parse

/-- What a tag is called, as it is written. -/
structure TagName where
  written : Text
  outline : Outline
deriving DecidableEq, Repr, Inhabited

/-- The element of the page, and not a declaration, has a small first letter or a hyphen. -/
def isPlain (name : Text) : Bool := name.contains '-' || name.head?.any fun c => 'a' ≤ c && c ≤ 'z'

def jsxName : Parse Text := do
  unless (← token).kind = .word do unexpected
  reread Scan.jsxName
  let written := (← token).text
  advance
  return written

/-- A word behind a mark, any number of times. -/
def namesBehind (g : Grammar) (mark : String) : Parse Text :=
  return (← Parse.many (do
    if ← takes mark then return some (mark.toList ++ (← jsxName)) else return none) g.room).flatten

def tagName (g : Grammar) : Parse TagName := do
  unless (← token).kind = .word do unexpected
  reread Scan.jsxName
  let t ← token
  advance
  if ← sees ":" then return ⟨t.text ++ (← namesBehind g ":"), .empty⟩
  let dotted ← namesBehind g "."
  let unnamed := t.text = "this".toList || (dotted = [] && isPlain t.text)
  return ⟨t.text ++ dotted, if unnamed then .empty else .use t.text t.span⟩

/-- An expression in braces, which may be missing. -/
def hole (g : Grammar) (s : Setting) : Parse Outline := do
  expect "\x7b"
  discard (takes "...")
  if ← sees "\x7d" then return .empty else g.expression s.inside

def given (g : Grammar) (s : Setting) : Parse Outline := do
  if ← sees "\x7b" then
    let inside ← hole g s
    expect "\x7d"
    return inside
  discard jsxName
  discard (namesBehind g ":")
  if ← sees "=" then
    advanceBy Scan.jsxValue
    if (← token).kind = .string then
      advance
      return .empty
    else if ← sees "\x7b" then
      let inside ← hole g s
      expect "\x7d"
      return inside
    else if ← sees "<" then g.element s
    else unexpected
  else return .empty

/-- What a tag says between its name and its end. -/
def allGiven (g : Grammar) (s : Setting) : Parse Outline :=
  g.many do
    if (← sees ">") || (← sees "/") || (← isDone) then return none
    else return some (← given g s)

/-- Expects a mark, behind which the children of an element begin. -/
def expectBeforeChild (mark : String) : Parse Unit := do
  let t ← token
  if t.isPunctuator mark then advanceBy Scan.jsxChild else fail (.expected mark t.shown) t.span

def seesClosing : Parse Bool := return (← sees "<") && (← following).isPunctuator "/"

/-- The children up to the closing tag. -/
def children (g : Grammar) (s : Setting) : Parse Outline :=
  g.many do
    if ← isDone then return none
    else if (← token).kind = .jsxText then
      advanceBy Scan.jsxChild
      return some .empty
    else if ← sees "\x7b" then
      let inside ← hole g s
      expectBeforeChild "\x7d"
      return some inside
    else if ← seesClosing then return none
    else return some (← g.element { s.inside with isChild := true })

/-- Ends a tag. What follows is read as a child where the element is one. -/
def endTag (s : Setting) : Parse Unit :=
  if s.isChild then expectBeforeChild ">" else expect ">"

/-- The children of an element and its closing tag, which has the name of the opening one. -/
def childrenThenClosing (g : Grammar) (s : Setting) (opened : Option TagName) : Parse Outline := do
  expectBeforeChild ">"
  let inside ← children g s
  expect "<"
  expect "/"
  match opened with
  | none => endTag s
  | some tag =>
    let start := (← token).span.start
    let closed ← tagName g
    let stop ← previousStop
    unless closed.written = tag.written do note (.unmatchedElement (String.ofList tag.written)) ⟨start, stop⟩
    endTag s
  return inside

def rule (g : Grammar) (s : Setting) : Parse Outline := do
  expect "<"
  if ← sees ">" then childrenThenClosing g s none
  else
    let tag ← tagName g
    let generics ← if s.typed && (← seesLeftAngle) then typeArguments g s else pure .empty
    let given ← allGiven g s
    if ← takes "/" then
      endTag s
      return tag.outline ++ generics ++ given
    else return tag.outline ++ generics ++ given ++ (← childrenThenClosing g s (some tag))

end ComponentLint.TypeScript.ElementRule
