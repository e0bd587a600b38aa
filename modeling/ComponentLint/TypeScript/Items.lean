import ComponentLint.TypeScript.Module
import ComponentLint.TypeScript.Expressions
import ComponentLint.TypeScript.Statements

/-! Imports and exports, and the whole of a script. -/
namespace ComponentLint.TypeScript.ItemRule

open Parse

/-- A name on the far side, of any kind. -/
def moduleName : Parse ModuleName := do
  let t ← token
  if t.kind = .string then
    advance
    return ⟨t.text, t.span, true⟩
  else return ⟨← name, t.span, false⟩

def canBeModuleName (t : Token) : Bool := t.kind = .word || t.kind = .string

/-- A name and perhaps another one behind `as`. The word `type` marks them, unless it is itself the name. -/
def specifier : Parse (ModuleName × Option ModuleName) := do
  let marked := (← seesWord "type") && canBeModuleName (← following)
  let first ← moduleName
  if marked then
    if ← seesWord "as" then
      let second ← moduleName
      if ← seesWord "as" then
        let third ← moduleName
        if canBeModuleName (← token) then return (second, some (← moduleName))
        else return (first, some third)
      else if canBeModuleName (← token) then return (first, some (← moduleName))
      else return (second, none)
    else
      let second ← moduleName
      if ← takesWord "as" then return (second, some (← moduleName)) else return (second, none)
  else if ← takesWord "as" then return (first, some (← moduleName))
  else return (first, none)

/-- The name that an import gives must be one of the script. -/
def checkLocal (given : ModuleName) : Parse Unit :=
  if given.quoted then fail .unexpectedToken given.span
  else if Token.isReservedName given.name then
    note (.reservedWord (String.ofList given.name)) given.span
  else return ()

def importSpecifier : Parse ImportBinding := do
  let start := (← token).span.start
  let (imported, renamed) ← specifier
  let stop ← previousStop
  let given := renamed.getD imported
  checkLocal given
  return ⟨.named imported, given.name, given.span, ⟨start, stop⟩⟩

/-- A binding of the script. -/
def localBinding : Parse (Text × Span) := do
  match ← bindingName with
  | .binding name span => return (name, span)
  | _ => unexpected

def namespaceSpecifier : Parse ImportBinding := do
  let start := (← token).span.start
  expect "*"
  expectWord "as"
  let (name, span) ← localBinding
  return ⟨.namespace, name, span, ⟨start, span.stop⟩⟩

def namedSpecifiers (room : Nat) : Parse (List ImportBinding) := do
  expect "\x7b"
  let found ← list room "\x7d" importSpecifier
  expect "\x7d"
  return found

def defaultBinding (name : Text) (span : Span) : ImportBinding := ⟨.default, name, span, span⟩

/-- What stands between `import` and the module, behind a name for the default if there is one. -/
def importClause (room : Nat) (default : Option (Text × Span)) : Parse (List ImportBinding) := do
  match default with
  | some (name, span) =>
    let first := defaultBinding name span
    if ← takes "," then
      if ← sees "*" then return [first, ← namespaceSpecifier]
      else if ← sees "\x7b" then return first :: (← namedSpecifiers room)
      else unexpected
    else return [first]
  | none =>
    if ← sees "*" then return [← namespaceSpecifier]
    else if ← sees "\x7b" then namedSpecifiers room
    else return []

def source : Parse ModuleSource := do
  let t ← token
  if t.kind = .string then
    advance
    return ⟨t.text, t.span⟩
  else unexpected

/-- What is said of the module's form. -/
def attributes (g : Grammar) (s : Setting) : Parse Unit := do
  let t ← token
  if t.isKeyword "with" || (t.isKeyword "assert" && !t.fresh) then
    advance
    expect "\x7b"
    discard (g.list "\x7d" do
      discard moduleName
      expect ":"
      g.assignment s.inside)
    expect "\x7d"

/-- Whether the word here marks an import of types: something to import follows. -/
def marksTypes : Parse Bool := do
  if ← seesWord "type" then
    let found ← ahead do
      advance
      if ← takesWord "from" then
        -- a name for the default, or the word before the module
        unless (← seesWord "from") || (← sees "=") do unexpected
      else unless (← token).isIdentifier || (← sees "\x7b") || (← sees "*") do unexpected
    return found.isSome
  else return false

/-- Words that choose when a module is loaded. -/
def passPhase : Parse Unit := do
  let next ← following
  let deferred := (← seesWord "defer") && next.isPunctuator "*"
  let sourced := (← seesWord "source") && next.isIdentifier && !next.isKeyword "from"
  if deferred || sourced then advance

def importItem (g : Grammar) (s : Setting) : Parse Item := do
  let start := (← token).span.start
  expectWord "import"
  if (← token).kind = .string then
    let source ← source
    attributes g s
    endStatement
    return .imports ⟨⟨start, ← previousStop⟩, [], source, false⟩
  let typeOnly ← if s.typed then marksTypes else pure false
  if typeOnly then advance else passPhase
  let default ← if (← token).isIdentifier then some <$> localBinding else pure none
  match default, s.typed && (← sees "=") with
  | some (name, span), true =>
    return .statement (← DeclarationRule.importAliasRest g s (.binding name span)).outline
  | _, _ =>
    let bindings ← importClause g.room default
    expectWord "from"
    let source ← source
    attributes g s
    endStatement
    return .imports ⟨⟨start, ← previousStop⟩, bindings, source, typeOnly⟩

def exportSpecifier : Parse ExportSpecifier := do
  let (first, renamed) ← specifier
  return ⟨first, renamed.getD first⟩

/-- A name given away must be one of the script. -/
def checkExported (e : ExportSpecifier) : Parse Unit :=
  if e.localName.quoted then note .stringExport e.localName.span
  else if Token.isReservedName e.localName.name then note .reservedExport e.localName.span
  else return ()

/-- Names in braces, of the script or of another module. -/
def exportNames (g : Grammar) (s : Setting) (typeOnly : Bool) : Parse Item := do
  expect "\x7b"
  let specifiers ← list g.room "\x7d" exportSpecifier
  expect "\x7d"
  if ← takesWord "from" then
    let source ← source
    attributes g s
    endStatement
    return .passes specifiers source typeOnly
  else
    specifiers.forM checkExported
    endStatement
    return .exports specifiers

def exportAll (g : Grammar) (s : Setting) (typeOnly : Bool) : Parse Item := do
  expect "*"
  let name ← if ← takesWord "as" then some <$> moduleName else pure none
  expectWord "from"
  let source ← source
  attributes g s
  endStatement
  return .passesAll name source typeOnly

/-- What is exported without a name of its own. -/
def exportDefault (g : Grammar) (s : Setting) : Parse Outline := do
  let before ← decorators g s
  let isInterface := s.typed && (← seesWord "interface") && (← following).isIdentifier && !(← following).fresh
  if (← isFunctionStart) || (← DeclarationRule.seesClass) || isInterface then
    return before ++ (← DeclarationRule.rule g s).outline
  else
    let value ← g.assignment s.inside
    endStatement
    return before ++ value

/-- Another name for something, given away. -/
def exportAlias (g : Grammar) (s : Setting) : Parse Declaration := do
  expectWord "import"
  if ← marksTypes then advance
  let declared ← bindingName
  return .single (← DeclarationRule.importAliasRest g s declared)

def exportItem (g : Grammar) (s : Setting) (before : Outline) : Parse Item := do
  expectWord "export"
  let next ← following
  if ← takesIf s.typed "=" then
    let value ← g.expression s.inside
    endStatement
    return .exportsValue value
  else if s.typed && (← seesWord "as") && next.isKeyword "namespace" then
    advance
    advance
    discard name
    endStatement
    return .statement .empty
  else if ← takesWord "default" then return .exportsDefault (before ++ (← exportDefault g s))
  else if ← sees "*" then exportAll g s false
  else if ← sees "\x7b" then exportNames g s false
  else if s.typed && (← seesWord "type") && next.isPunctuator "*" then
    advance
    exportAll g s true
  else if s.typed && (← seesWord "type") && next.isPunctuator "\x7b" then
    advance
    exportNames g s true
  else if s.typed && (← seesWord "import") then return .exportsDeclaration (← exportAlias g s)
  else
    let inner ← decorators g s
    match ← DeclarationRule.rule g s with
    | .single d => return .exportsDeclaration (.single { d with outline := before ++ inner ++ d.outline })
    | d => return .exportsDeclaration d

/-- Whether an import declares here, instead of loading a module in an expression. -/
def seesImport : Parse Bool := do
  let next ← following
  return (← seesWord "import") && !next.isPunctuator "(" && !next.isPunctuator "."

def rule (g : Grammar) (s : Setting) : Parse Item := do
  if ← seesImport then importItem g s
  else if ← seesWord "export" then exportItem g s .empty
  else if ← sees "@" then
    let before ← decorators g s
    if ← seesWord "export" then exportItem g s before
    else return .statement (before ++ (← DeclarationRule.rule g s).outline)
  else return .statement (← StatementRule.rule g s)

end ItemRule

/-- How a part is read, given how its parts are. -/
def Grammar.rule (g : Grammar) (part : Part) (s : Setting) : Parse Outline :=
  match part with
  | .type => TypeRule.rule g s
  | .pattern => Pattern.rule g s
  | .expression => ExpressionRule.expression g s
  | .assignment => ExpressionRule.assignment g s
  | .operand => ExpressionRule.operand g s
  | .access => ExpressionRule.access g s
  | .element => ElementRule.rule g s
  | .statement => return (← ItemRule.rule g s).outline

/-- Reads a part that nests no deeper than `depth`. -/
def readPart (room : Nat) : Nat → Part → Setting → Parse Outline
  | 0, _, _ => do Parse.fail .tooDeep (← Parse.token).span
  | depth + 1, part, s => Grammar.rule ⟨fun part s => readPart room depth part s, room⟩ part s

namespace Module

/-- Every part of a script takes up a character at least before the same kind of part begins again inside it,
so that no script nests deeper than this. -/
def depth (t : Text) : Nat := 8 * t.length + 64

/-- Items up to the end. -/
def readItems (g : Grammar) (s : Setting) : Parse (List Item) :=
  Parse.many (do
    if (← Parse.token).kind = .eof then return none else return some (← ItemRule.rule g s)) g.room

/-- The first line of a command file. -/
def skipCommandLine (t : Text) : Stand :=
  let marked := if t.head? = some '\uFEFF' then 3 else 0
  let body := if t.head? = some '\uFEFF' then t.tail else t
  match body with
  | '#' :: '!' :: _ =>
    let line := body.takeWhile fun c => !isLineBreak c
    ⟨marked + Text.byteSize line, body.drop line.length⟩
  | _ => ⟨marked, body⟩

/-- Reads a script. A comment without end is found wrong, but only at the end. -/
def ofText (kind : SourceKind) (t : Text) : Module :=
  let room := t.length + 2
  let (first, behind) := Scan.next (skipCommandLine t)
  let g : Grammar := ⟨readPart room (depth t), room⟩
  match (readItems g (.ofKind kind)).run { token := first, behind := behind } with
  | .ok items c => ⟨items, c.token.fault.toList ++ c.noted⟩
  | .error fault c => ⟨[], c.noted ++ [fault]⟩

end Module

end ComponentLint.TypeScript
