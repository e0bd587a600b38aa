import ComponentLint.TypeScript.Signature

/-! Types. -/
namespace ComponentLint.TypeScript.TypeRule

open Parse

/-- A name with the namespaces that it stands in, of which the first counts. -/
def qualified (g : Grammar) (first : Parse Outline) : Parse Outline := do
  let head ← first
  return head ++ (← g.many do
    if ← takes "." then
      if (← token).kind = .privateName then advance else discard name
      return some .empty
    else return none)

/-- A name, or the value that a method belongs to. -/
def entityName : Parse Outline := do
  if ← takesWord "this" then return .empty else reference

/-- A module named in a type is not loaded, and what is taken from it is not declared here. -/
def imported (g : Grammar) (s : Setting) : Parse Outline := do
  expectWord "import"
  expect "("
  let source ← g.type s.inside
  if ← takes "," then
    unless ← sees ")" do discard (g.assignment s.inside)
    discard (takes ",")
  expect ")"
  return (← qualified g (pure source)) ++ (← typeArgumentsIfAny g s)

def query (g : Grammar) (s : Setting) : Parse Outline := do
  expectWord "typeof"
  if ← seesWord "import" then imported g s
  else return (← qualified g entityName) ++ (← typeArgumentsIfAny g s)

/-- Ends a member of a type in braces. -/
def endMember : Parse Unit := do
  unless ← takes "," do endStatement

/-- Type parameters, parameters and result. -/
def signature (g : Grammar) (s : Setting) : Parse Outline :=
  return (← typeParameters g s) ++ (← parameters g s) ++ (← resultAnnotation g s)

/-- Whether an index signature begins here: brackets around a name with a type. -/
def seesIndexSignature : Parse Bool := do
  if !(← sees "[") then return false
  let colon ← ahead do
    advance
    discard name
    expect ":"
  return colon.isSome

def indexSignature (g : Grammar) (s : Setting) : Parse Outline := do
  expect "["
  discard name
  let key ← annotation g s.inside
  expect "]"
  return key ++ (← annotation g s)

/-- Whether the word here marks the member behind it. -/
def marksMember (words : List String) : Parse Bool := do
  if words.any (← token).isKeyword then
    let next ← following
    return isPropertyName next && !next.fresh
  else return false

/-- A member of an interface or of a type in braces. -/
def member (g : Grammar) (s : Setting) : Parse Outline := do
  let next ← following
  let found ←
    if (← sees "(") || (← sees "<") then signature g s
    else if (← seesWord "new") && (next.isPunctuator "(" || next.isPunctuator "<") then
      advance
      signature g s
    else
      if ← marksMember ["readonly", "get", "set"] then advance
      if ← seesIndexSignature then indexSignature g s
      else
        let key ← propertyName g s
        discard (takes "?")
        if (← sees "(") || (← sees "<") then pure (key ++ (← signature g s))
        else pure (key ++ (← annotation g s))
  endMember
  return found

def members (g : Grammar) (s : Setting) : Parse Outline := do
  expect "\x7b"
  let inside ← g.many do
    if (← sees "\x7d") || (← isDone) then return none
    else return some (← member g s.inside)
  expect "\x7d"
  return inside

/-- A sign, or none, and a word. -/
def takesSigned (w : String) : Parse Bool := do
  if ← takesAny ["+", "-"] then
    expectWord w
    return true
  else takesWord w

def mappedHead : Parse Outline := do
  expect "\x7b"
  discard (takesSigned "readonly")
  expect "["
  let key ← bindingName
  expectWord "in"
  return key

/-- A type with a member for each member of another. -/
def mapped (g : Grammar) (s : Setting) : Parse Outline := do
  let key ← mappedHead
  let inside := s.inside
  let keys ← g.type inside
  let renamed ← if ← takesWord "as" then g.type inside else pure .empty
  expect "]"
  if ← takesAny ["+", "-"] then expect "?" else discard (takes "?")
  let value ← annotation g inside
  discard (takes ";")
  discard (takes ",")
  expect "\x7d"
  return key ++ keys ++ renamed ++ value

def tupleMember (g : Grammar) (s : Setting) : Parse Outline := do
  discard (takes "...")
  let labelled ← ahead do
    discard name
    discard (takes "?")
    expect ":"
  if labelled.isSome then
    discard name
    discard (takes "?")
    expect ":"
  let member ← g.type s
  discard (takes "?")
  return member

/-- Words that are types by themselves, unless a dot follows. -/
def basicTypes : List String :=
  ["any", "unknown", "string", "bigint", "number", "symbol", "boolean", "undefined", "never", "object", "null",
    "true", "false", "void", "this", "intrinsic"]

def primary (g : Grammar) (s : Setting) : Parse Outline := do
  let t ← token
  match t.kind with
  | .string | .number =>
    advance
    return .empty
  | .templateWhole | .templateHead => template g (g.type s.inside) false
  | .word =>
    let next ← following
    if basicTypes.any t.isKeyword && !(next.isPunctuator "." && !t.isReserved) then
      advance
      return .empty
    else if t.isKeyword "typeof" then query g s
    else if t.isKeyword "import" then imported g s
    else if t.isKeyword "const" then
      advance
      return .empty
    else if t.isKeyword "asserts" && next.isIdentifier && !next.fresh then resultType g s
    else return (← qualified g reference) ++ (← typeArgumentsIfAny g s)
  | _ =>
    if ← sees "-" then
      advance
      if (← token).kind = .number then
        advance
        return .empty
      else unexpected
    else if ← sees "\x7b" then
      if (← ahead mappedHead).isSome then mapped g s else members g s
    else if ← takes "[" then
      let inside ← g.list "]" (tupleMember g s.inside)
      expect "]"
      return inside
    else if ← takes "(" then
      let inside ← g.type s.inside
      expect ")"
      return inside
    else unexpected

/-- A type with the brackets behind it: arrays and members. -/
def postfixed (g : Grammar) (s : Setting) : Parse Outline := do
  let first ← primary g s
  return first ++ (← g.many do
    if ← takesIf (!(← token).fresh) "[" then
      if ← takes "]" then return some .empty
      let key ← g.type s.inside
      expect "]"
      return some key
    else return none)

/-- A name that a condition gives to a part of a type. A bound on it must not take the question mark of the
condition. -/
def inferred (g : Grammar) (s : Setting) : Parse Outline := do
  let declared ← bindingName
  let above ← attempt do
    expectWord "extends"
    let above ← g.type { s with constrains := true }
    if !s.constrains && (← sees "?") then unexpected
    return above
  return declared ++ above.getD .empty

/-- Passes the words that stand before a type; `infer` declares instead. -/
def operator (g : Grammar) (s : Setting) : Nat → Parse Outline
  | 0 => do fail .tooDeep (← token).span
  | room + 1 => do
    let t ← token
    let next ← following
    let starts := next.kind = .word || next.kind = .string || next.kind = .number || next.kind = .templateWhole ||
      next.kind = .templateHead || next.isPunctuator "(" || next.isPunctuator "[" || next.isPunctuator "\x7b"
    if (t.isKeyword "keyof" || t.isKeyword "unique" || t.isKeyword "readonly") && starts then
      advance
      operator g s room
    else if t.isKeyword "infer" && next.isIdentifier then
      advance
      inferred g s
    else postfixed g s

def intersection (g : Grammar) (s : Setting) : Parse Outline := do
  discard (takes "&")
  g.separated "&" (operator g s g.room)

def union (g : Grammar) (s : Setting) : Parse Outline := do
  discard (takes "|")
  g.separated "|" (intersection g s)

def seesParameters (g : Grammar) (s : Setting) : Parse Bool := do
  let found ← ahead do
    expect "("
    if (← sees ")") || (← sees "...") then return ()
    if (← token).isIdentifier || (← seesWord "this") then advance
    else if (← sees "[") || (← sees "\x7b") then discard (g.pattern s.inside)
    else unexpected
    if (← sees ":") || (← sees ",") || (← sees "?") || (← sees "=") then return ()
    expect ")"
    expect "=>"
  return found.isSome

def function (g : Grammar) (s : Setting) : Parse Outline := do
  discard (takesWord "abstract")
  discard (takesWord "new")
  let generics ← typeParameters g s
  let inputs ← parameters g s
  expect "=>"
  return generics ++ inputs ++ (← resultType g s)

def seesFunction (g : Grammar) (s : Setting) : Parse Bool := do
  let abstract ← (return (← seesWord "abstract") && (← following).isKeyword "new")
  if (← sees "<") || (← seesWord "new") || abstract then return true
  if ← sees "(" then seesParameters g s else return false

/-- Behind a type, on its line, `extends` begins a condition on it. -/
def rule (g : Grammar) (s : Setting) : Parse Outline := do
  if ← seesFunction g s then function g s
  else
    let checked ← union g s
    if !s.constrains && (← seesWord "extends") && !(← token).fresh then
      advance
      let above ← g.type { s with constrains := true }
      expect "?"
      let yes ← g.type { s with constrains := false }
      expect ":"
      let no ← g.type { s with constrains := false }
      return checked ++ above ++ yes ++ no
    else return checked

end ComponentLint.TypeScript.TypeRule
