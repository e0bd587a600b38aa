import ComponentLint.TypeScript.Classes
import ComponentLint.TypeScript.Elements

/-! Expressions. Operators are read without regard to how tightly they bind, which changes nothing about the
names in an expression or their order. -/
namespace ComponentLint.TypeScript.ExpressionRule

open Parse

def argument (g : Grammar) (s : Setting) : Parse Outline := do
  discard (takes "...")
  g.assignment s

/-- What a call is given, in parentheses. -/
def arguments (g : Grammar) (s : Setting) : Parse Outline := do
  expect "("
  let inside ← g.list ")" (argument g s.inside)
  expect ")"
  return inside

def arrayMember (g : Grammar) (s : Setting) : Parse Outline := do
  if ← sees "," then return .empty else argument g s

/-- Passes the words before a member's name, and tells whether its body may wait. -/
def passMarks : Parse Bool := do
  let t ← token
  let next ← following
  if t.isKeyword "async" && !next.fresh && (isPropertyName next || next.isPunctuator "*") then
    advance
    return true
  else
    if (t.isKeyword "get" || t.isKeyword "set") && isPropertyName next then advance
    return false

/-- A member of an object: a spread, a method, a key with a value, or a name that is both. -/
def objectMember (g : Grammar) (s : Setting) : Parse Outline := do
  if ← takes "..." then g.assignment s
  else
    let awaits ← passMarks
    let yields ← takes "*"
    let t ← token
    let key ← propertyName g s
    if (← sees "(") || (← sees "<") then return key ++ (← functionRest g (s.body awaits yields) (pure ()))
    else if ← takes ":" then return key ++ (← g.assignment s)
    else if t.isIdentifier && !awaits && !yields then
      let value ← if ← takes "=" then g.assignment s else pure .empty
      return .use t.text t.span ++ value
    else
      let found ← token
      fail (.expected ":" found.shown) found.span

/-- A call that loads a module, behind `import`. The module has a name if a string alone stands for it. -/
def load (g : Grammar) (s : Setting) : Parse Outline := do
  expect "("
  let t ← token
  let next ← following
  let named := t.kind = .string && (next.isPunctuator ")" || next.isPunctuator ",")
  let value ← g.assignment s.inside
  let source := if named then .load t.text t.span else value
  let options ←
    if (← takes ",") && !(← sees ")") then
      let options ← g.assignment s.inside
      discard (takes ",")
      pure options
    else pure .empty
  expect ")"
  return source ++ options

def property : Parse Unit := do
  if (← token).kind = .privateName then advance else discard name

/-- Tokens that begin an operand. -/
def startsOperand (t : Token) : Bool :=
  match t.kind with
  | .word =>
    !t.isReserved || ["class", "delete", "false", "function", "import", "new", "null", "super", "this", "true",
      "typeof", "void"].any t.isKeyword
  | .eof | .broken => false
  | .punctuator =>
    ["(", "[", "\x7b", "+", "-", "~", "!", "++", "--", "/", "/=", "<", "@"].any t.isPunctuator
  | _ => true

/-- Operators between two operands that are always read as such; `in`, `as` and `satisfies` are words. -/
def binaryOperators : List String :=
  ["+", "-", "*", "/", "%", "**", "<<", "<", "<=", "==", "!=", "===", "!==", "&", "|", "^", "&&", "||", "??", ">",
    ">=", ">>", ">>>"]

def isBinaryOperator (s : Setting) (t : Token) : Bool :=
  binaryOperators.any t.isPunctuator || t.isKeyword "instanceof" || (t.isKeyword "in" && !s.withoutIn)

/-- Types in angle brackets behind an expression. They are one only if what follows cannot continue a
comparison. -/
def usedTypes (g : Grammar) (s : Setting) : Parse Outline := do
  reread Scan.leftAngle
  expect "<"
  let inside ← g.list ">" (g.type s.inside)
  reread Scan.rightAngle
  if ← sees ">=" then unexpected
  if ← isDone then unexpected
  reread fun t => Scan.token .punctuator ['>'] 1 t.fresh ⟨t.span.start, t.chars⟩
  expect ">"
  let t ← token
  let called := t.isPunctuator "(" || t.kind = .templateWhole || t.kind = .templateHead
  let continued := ["<", "<<", ">", "+", "-"].any t.isPunctuator
  let asserted := s.typed && (t.isKeyword "as" || t.isKeyword "satisfies")
  if called || (!continued && (t.fresh || isBinaryOperator s t || asserted || !startsOperand t)) then return inside
  else unexpected

/-- One more step from a value: a property, an index, a call, a template, or types for it. -/
def accessStep (g : Grammar) (s : Setting) (calls : Bool) : Parse (Option Outline) := do
  let t ← token
  if ← takes "." then
    property
    return some .empty
  else if calls && t.isPunctuator "?." then
    advance
    if (← sees "(") || (← sees "[") || (← token).kind = .templateWhole || (← token).kind = .templateHead then
      return some .empty
    else if s.typed && (← seesLeftAngle) then typeArguments g s
    else
      property
      return some .empty
  else if t.isPunctuator "[" && !s.decorates then
    advance
    let key ← g.expression s.inside
    expect "]"
    return some key
  else if t.isPunctuator "!" && s.typed && !t.fresh then
    advance
    return some .empty
  else if t.kind = .templateWhole || t.kind = .templateHead then
    template g (g.expression s.inside) true
  else if s.typed && (← seesLeftAngle) then attempt (usedTypes g s)
  else if calls && t.isPunctuator "(" then arguments g s
  else return none

/-- Passes any number of `new`. -/
def passNew : Nat → Parse Unit
  | 0 => return ()
  | room + 1 => do
    if (← seesWord "new") && !(← following).isPunctuator "." then
      advance
      passNew room

def classExpression (g : Grammar) (s : Setting) : Parse Outline := do
  let before ← decorators g s
  return before ++ (← ClassRule.rule g s.inside).outline

/-- What a value is made of first. -/
def primary (g : Grammar) (s : Setting) : Parse Outline := do
  let t ← token
  match t.kind with
  | .string | .number | .regex =>
    advance
    return .empty
  | .templateWhole | .templateHead => template g (g.expression s.inside) true
  | .privateName =>
    advance
    unless ← seesWord "in" do unexpected
    return .empty
  | .word =>
    if ← isFunctionStart then functionExpression g s
    else if t.isKeyword "class" then classExpression g s
    else if t.isKeyword "import" then
      advance
      if ← takes "." then
        let phase ← name
        if phase = "meta".toList then return .empty else load g s
      else load g s
    else if t.isKeyword "new" then
      advance
      expect "."
      discard name
      return .empty
    else if ["this", "super", "null", "true", "false"].any t.isKeyword then
      advance
      return .empty
    else reference
  | _ =>
    if ← takes "(" then
      let inside ← Parse.list g.room ")" (g.assignment s.inside)
      expect ")"
      if inside.isEmpty then unexpected else return .join inside
    else if ← takes "[" then
      let inside ← g.list "]" (arrayMember g s.inside)
      expect "]"
      return inside
    else if ← takes "\x7b" then
      let inside ← g.list "\x7d" (objectMember g s.inside)
      expect "\x7d"
      return inside
    else if (← sees "/") || (← sees "/=") then
      reread Scan.regex
      if (← token).kind = .broken then unexpected
      advance
      return .empty
    else if ← sees "@" then classExpression g s
    else if s.jsx && (← sees "<") then g.element s.inside
    else unexpected

/-- A value with everything that is reached from it. What `new` makes may go without arguments. -/
def access (g : Grammar) (s : Setting) : Parse Outline := do
  if (← seesWord "new") && !(← following).isPunctuator "." then
    passNew g.room
    let made ← primary g s
    let steps ← g.many (accessStep g s false)
    let rest ← g.many (accessStep g s true)
    return made ++ steps ++ rest
  else
    let first ← primary g s
    return first ++ (← g.many (accessStep g s true))

/-- A type in front of the value that it is said of. -/
def asserted (g : Grammar) (s : Setting) : Parse Outline := do
  expect "<"
  let type ← g.type s.inside
  expect ">"
  return type ++ (← g.operand s)

/-- Whether `await` is an operator here: where it always is one, or before something that no operator
follows. -/
def seesAwait (s : Setting) : Parse Bool := do
  let next ← following
  let starts := next.kind = .word || next.kind = .number || next.kind = .string || next.kind = .templateWhole
  return (← seesWord "await") && (s.awaits || (starts && !next.fresh))

/-- A value with the operators before and behind it. -/
def operand (g : Grammar) (s : Setting) : Parse Outline := do
  let t ← token
  if ["delete", "typeof", "void"].any t.isKeyword || ["+", "-", "~", "!", "++", "--"].any t.isPunctuator then
    advance
    g.operand s
  else if s.typed && !s.jsx && t.isPunctuator "<" then asserted g s
  else if ← seesAwait s then
    advance
    g.operand s
  else
    let value ← g.access s
    let t ← token
    if !t.fresh && (t.isPunctuator "++" || t.isPunctuator "--") then advance
    return value

/-- An operator with what stands behind it. -/
def operation (g : Grammar) (s : Setting) : Parse (Option Outline) := do
  if ← sees ">" then
    let (whole, behind) := Scan.rightAngle (← token)
    if isBinaryOperator s whole then
      modify fun c => { c with token := whole, behind := behind }
      advance
      return some (← g.operand s)
    else return none
  else
    let t ← token
    if s.typed && !t.fresh && (t.isKeyword "as" || t.isKeyword "satisfies") then
      advance
      g.type { s.inside with constrains := false }
    else if isBinaryOperator s t then
      advance
      return some (← g.operand s)
    else return none

def operations (g : Grammar) (s : Setting) : Parse Outline :=
  return (← g.operand s) ++ (← g.many (operation g s))

def assignmentOperators : List String :=
  ["=", "+=", "-=", "*=", "**=", "/=", "%=", "<<=", "&=", "|=", "^=", "&&=", "||=", "??=", ">>=", ">>>="]

/-- How sure it is that the parameters of an arrow function begin. -/
inductive Likelihood where
  | no
  | maybe
  | yes
deriving DecidableEq, Repr, Inhabited

/-- Judges by what follows an opening parenthesis. -/
def likelihoodInParentheses : Parse Likelihood := do
  let t ← token
  if ← takes ")" then
    return if (← sees "=>") || (← sees ":") || (← sees "\x7b") then .yes else .no
  else if (← sees "[") || (← sees "\x7b") || (← sees "...") || (← sees "@") then return .maybe
  else if !(t.isIdentifier || t.isKeyword "this") then return .no
  else
    advance
    if ← takes ":" then return .yes
    else if ← takes "?" then
      return if (← sees ":") || (← sees ",") || (← sees "=") || (← sees ")") then .yes else .no
    else if (← sees ",") || (← sees "=") || (← sees ")") then return .maybe
    else return .no

/-- Judges by what follows an opening angle bracket. Among elements, type parameters need a mark. -/
def likelihoodInAngles (s : Setting) : Parse Likelihood := do
  discard (takesWord "const")
  if !(← token).isIdentifier then return .no
  if !s.jsx then return .maybe
  advance
  if ← takesWord "extends" then
    return if (← sees "=") || (← sees ">") || (← sees "/") then .no else .yes
  else return if (← sees ",") || (← sees "=") then .yes else .no

def arrowLikelihood (s : Setting) : Parse Likelihood := do
  let judged ← ahead do
    if (← takesWord "async") && (← token).fresh then return .no
    if ← takes "(" then likelihoodInParentheses
    else if ← takesIf s.typed "<" then likelihoodInAngles s
    else return .no
  return judged.getD .no

/-- Type parameters, parameters and result up to the arrow, and whether the result is written. -/
def arrowHead (g : Grammar) (s : Setting) : Parse (Outline × Bool) := do
  let generics ← typeParameters g s
  let inputs ← parameters g s
  let hasResult ← sees ":"
  let result ← resultAnnotation g s
  if (← token).fresh then unexpected
  expect "=>"
  return (generics ++ inputs ++ result, hasResult)

def arrowBody (g : Grammar) (s : Setting) (awaits : Bool) : Parse Outline := do
  if ← sees "\x7b" then block g (s.body awaits false)
  else g.assignment { s with awaits := awaits, yields := false, decorates := false }

/-- An arrow function with parentheses. In a branch of a conditional whose colon would be lost to a result
type, it is none. -/
def parenthesizedArrow? (g : Grammar) (s : Setting) (tentative : Bool) : Parse (Option Outline) := do
  let start ← get
  let awaits ← takesWord "async"
  let inside := { s with awaits := awaits, yields := false }
  let head ← if tentative then attempt (arrowHead g inside) else some <$> arrowHead g inside
  match head with
  | none =>
    set start
    return none
  | some (inputs, hasResult) =>
    let body ← arrowBody g s awaits
    if s.branches && hasResult && !(← sees ":") then
      set start
      return none
    else return some (inputs ++ body)

def seesBareArrow : Parse Bool := do
  let next ← following
  return (← token).isIdentifier && next.isPunctuator "=>" && !next.fresh

/-- An arrow function of one bare parameter, which may be asynchronous. -/
def bareArrow? (g : Grammar) (s : Setting) : Parse (Option Outline) := do
  let waiting ← ahead do
    expectWord "async"
    if (← token).fresh then unexpected
    unless ← seesBareArrow do unexpected
  let awaits := waiting.isSome
  if awaits then advance
  if awaits || (← seesBareArrow) then
    let input ← bindingName
    expect "=>"
    return some (input ++ (← arrowBody g s awaits))
  else return none

def yielded (g : Grammar) (s : Setting) : Parse Outline := do
  expectWord "yield"
  let t ← token
  if ← takesIf (!t.fresh) "*" then g.assignment s
  else if !t.fresh && startsOperand t then g.assignment s
  else return .empty

def conditionalRest (g : Grammar) (s : Setting) : Parse Outline := do
  if ← takes "?" then
    let yes ← g.assignment { s with withoutIn := false, branches := true }
    expect ":"
    return yes ++ (← g.assignment s)
  else return .empty

def assignment (g : Grammar) (s : Setting) : Parse Outline := do
  if s.yields && (← seesWord "yield") then yielded g s
  else
    let likelihood ← arrowLikelihood s
    let arrow ← if likelihood = .no then bareArrow? g s else parenthesizedArrow? g s (likelihood = .maybe)
    match arrow with
    | some found => return found
    | none =>
      let left ← operations g s
      if ← sees ">" then
        let (whole, behind) := Scan.rightAngle (← token)
        if assignmentOperators.any whole.isPunctuator then
          modify fun c => { c with token := whole, behind := behind }
      if assignmentOperators.any (← token).isPunctuator then
        advance
        return left ++ (← g.assignment s)
      else return left ++ (← conditionalRest g s)

def expression (g : Grammar) (s : Setting) : Parse Outline := g.separated "," (g.assignment s)

end ComponentLint.TypeScript.ExpressionRule
