import ComponentLint.TypeScript.Classes

/-! Declarations: variables, functions, classes, and what exists only among types. -/
namespace ComponentLint.TypeScript.DeclarationRule

open Parse

/-- A missing value is noted where nothing else gives one. -/
def checkValue (s : Setting) (isConstant isName : Bool) (span : Span) : Parse Unit :=
  if s.ambient then return ()
  else if !isName then note .missingPatternInitializer span
  else if isConstant then note .missingInitializer ⟨span.stop, span.stop⟩
  else return ()

def declarator (g : Grammar) (s : Setting) (isConstant isStatement : Bool) : Parse Declarator := do
  let t ← token
  let pattern ← g.pattern s
  let span : Span := ⟨t.span.start, ← previousStop⟩
  if s.typed && !(← token).fresh then discard (takes "!")
  let type ← annotation g s
  if ← takes "=" then return ⟨pattern, type ++ (← g.assignment s)⟩
  else
    if isStatement then checkValue s isConstant t.isIdentifier span
    return ⟨pattern, type⟩

def declarators (g : Grammar) (s : Setting) (isConstant isStatement : Bool) : Parse (List Declarator) := do
  let first ← declarator g s isConstant isStatement
  let rest ← many (do
    if ← takes "," then return some (← declarator g s isConstant isStatement) else return none) g.room
  return first :: rest

def letOperators : List String := ["=", "==", "===", ".", "(", ";", "+", "-", "*", "/", "?", ",", ")", ":", "=>"]

def seesVariables : Parse Bool := do
  let t ← token
  let next ← following
  match t.word with
  | "var" | "const" => return true
  | "let" => return !(letOperators.any next.isPunctuator || next.isKeyword "in" || next.isKeyword "instanceof")
  | "using" => return next.isIdentifier && !next.fresh && !next.isKeyword "of"
  | "await" =>
    if next.isKeyword "using" && !next.fresh then
      let found ← ahead do
        advance
        advance
        unless (← token).isIdentifier && !(← token).fresh do unexpected
      return found.isSome
    else return false
  | _ => return false

/-- Passes the words in front of the variables, and tells whether they are constants. -/
def variablesHead : Parse Bool := do
  discard (takesWord "await")
  let isConstant ← seesWord "const"
  advance
  return isConstant

def interfaceDeclaration (g : Grammar) (s : Setting) : Parse Named := do
  expectWord "interface"
  let declared ← bindingName
  let generics ← typeParameters g s
  let above ←
    if ← takesWord "extends" then
      g.separated "," do return (← TypeRule.qualified g TypeRule.entityName) ++ (← typeArgumentsIfAny g s)
    else pure .empty
  return .of declared (generics ++ above ++ (← TypeRule.members g s))

def typeAlias (g : Grammar) (s : Setting) : Parse Named := do
  expectWord "type"
  let declared ← bindingName
  let generics ← typeParameters g s
  expect "="
  let value ← g.type s
  endStatement
  return .of declared (generics ++ value)

def enumerationMember (g : Grammar) (s : Setting) : Parse Outline := do
  let key ← propertyName g s
  let value ← if ← takes "=" then g.assignment s else pure .empty
  return key ++ value

def enumeration (g : Grammar) (s : Setting) : Parse Named := do
  discard (takesWord "const")
  expectWord "enum"
  let declared ← bindingName
  expect "\x7b"
  let inside ← g.list "\x7d" (enumerationMember g s.inside)
  expect "\x7d"
  return .of declared inside

/-- A namespace, a module, or what a module adds to the global scope. -/
def scope (g : Grammar) (s : Setting) : Parse Named := do
  let declared ←
    if ← takesWord "global" then pure .empty
    else
      advance
      if (← token).kind = .string then
        advance
        pure .empty
      else TypeRule.qualified g bindingName
  if ← sees "\x7b" then return .of declared (← block g s)
  else
    endStatement
    return .of declared .empty

/-- The part of an import behind the name that it gives to something. -/
def importAliasRest (g : Grammar) (s : Setting) (declared : Outline) : Parse Named := do
  expect "="
  let value ←
    if (← seesWord "require") && (← following).isPunctuator "(" then
      advance
      advance
      unless (← token).kind = .string do unexpected
      advance
      expect ")"
      pure .empty
    else (· ++ ·) <$> TypeRule.qualified g TypeRule.entityName <*> typeArgumentsIfAny g s
  endStatement
  return .of declared value

/-- Whether the words at this place declare something, behind `declare` or `abstract`. -/
def declaresAfter (t next : Token) : Bool :=
  let onLine := !next.fresh
  match t.word with
  | "interface" | "type" => next.isIdentifier && onLine
  | "namespace" => next.isIdentifier && onLine
  | "module" => (next.isIdentifier || next.kind = .string) && onLine
  | "global" => next.isPunctuator "\x7b"
  | "abstract" => next.isKeyword "class" && onLine
  | "async" => next.isKeyword "function" && onLine
  | "enum" | "const" | "var" | "let" | "class" | "function" => true
  | _ => false

/-- Whether a declaration that only types need begins here. -/
def seesTyped : Parse Bool := do
  let t ← token
  let next ← following
  match t.word with
  | "declare" =>
    if next.fresh then return false
    else
      let found ← ahead do
        advance
        unless declaresAfter (← token) (← following) do unexpected
      return found.isSome
  | "const" => return next.isKeyword "enum"
  | "enum" => return true
  | "interface" | "type" | "namespace" | "module" | "global" | "abstract" => return declaresAfter t next
  | _ => return false

def seesClass : Parse Bool := do
  let next ← following
  return (← seesWord "class") || ((← seesWord "abstract") && next.isKeyword "class" && !next.fresh)

def classDeclaration (g : Grammar) (s : Setting) : Parse Named := do
  discard (takesWord "abstract")
  ClassRule.rule g s

def functionDeclaration (g : Grammar) (s : Setting) : Parse Named := do
  let inside ← functionHead s
  let declared ← if ← sees "(" then pure .empty else bindingName
  return .of declared (← functionRest g inside endStatement)

def seesDeclaration (s : Setting) : Parse Bool :=
  return (← seesVariables) || (← isFunctionStart) || (← seesClass) || (s.typed && (← seesTyped))

def rule (g : Grammar) (s : Setting) : Parse Declaration := do
  let isAmbient ← if s.typed && (← seesTyped) then takesWord "declare" else pure false
  let s := { s with ambient := s.ambient || isAmbient }
  if ← isFunctionStart then return .single (← functionDeclaration g s)
  else if ← seesClass then return .single (← classDeclaration g s)
  else if s.typed && (← seesTyped) then
    match (← token).word with
    | "interface" => return .single (← interfaceDeclaration g s)
    | "type" => return .single (← typeAlias g s)
    | "const" | "enum" => return .single (← enumeration g s)
    | _ => return .scope (← scope g s)
  else if ← seesVariables then
    let isConstant ← variablesHead
    let found ← declarators g s isConstant true
    endStatement
    return .variableList found
  else unexpected

end ComponentLint.TypeScript.DeclarationRule
