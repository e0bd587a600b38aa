import ComponentLint.TypeScript.Cursor
import ComponentLint.Source.Kind

/-! What the rules of the grammar share: the parts that they ask one another for, and the setting in which a
part is read. A rule does not call the others by itself; it is given the parts. -/
namespace ComponentLint.TypeScript

inductive Part where
  | type
  | pattern
  /-- An expression, commas included. -/
  | expression
  /-- An expression without commas. -/
  | assignment
  | operand
  /-- An expression without operators, calls included. -/
  | access
  | element
  | statement
deriving DecidableEq, Repr

structure Setting where
  /-- Types are written. -/
  typed : Bool
  /-- Elements are written. -/
  jsx : Bool
  /-- Declarations only, without bodies and values. -/
  ambient : Bool := false
  /-- The word `await` is an operator. -/
  awaits : Bool := false
  /-- The word `yield` is an operator. -/
  yields : Bool := false
  /-- The word `in` belongs to the statement around the expression. -/
  withoutIn : Bool := false
  /-- The brackets belong to what follows the decorator. -/
  decorates : Bool := false
  /-- The colon may belong to the conditional around the expression. -/
  branches : Bool := false
  /-- The question mark belongs to the conditional type around the type. -/
  constrains : Bool := false
  /-- The element stands among the children of another. -/
  isChild : Bool := false
deriving DecidableEq, Repr

namespace Setting

/-- The setting between brackets. -/
def inside (s : Setting) : Setting :=
  { s with withoutIn := false, decorates := false, branches := false, constrains := false, isChild := false }

def ofKind (k : SourceKind) : Setting :=
  { typed := k.isTypeScript, jsx := k.jsx, ambient := k.language = .declarations, awaits := k.system ≠ .commonJs }

end Setting

structure Grammar where
  part : Part → Setting → Parse Outline
  /-- A bound on the length of every list, which no script reaches. -/
  room : Nat

namespace Grammar

def type (g : Grammar) (s : Setting) : Parse Outline := g.part .type s
def pattern (g : Grammar) (s : Setting) : Parse Outline := g.part .pattern s
def expression (g : Grammar) (s : Setting) : Parse Outline := g.part .expression s
def assignment (g : Grammar) (s : Setting) : Parse Outline := g.part .assignment s
def operand (g : Grammar) (s : Setting) : Parse Outline := g.part .operand s
def access (g : Grammar) (s : Setting) : Parse Outline := g.part .access s
def element (g : Grammar) (s : Setting) : Parse Outline := g.part .element s
def statement (g : Grammar) (s : Setting) : Parse Outline := g.part .statement s

def list (g : Grammar) (closing : String) (item : Parse Outline) : Parse Outline :=
  return .join (← Parse.list g.room closing item)

def many (g : Grammar) (step : Parse (Option Outline)) : Parse Outline :=
  return .join (← Parse.many step g.room)

/-- Parts with a separator between them. -/
def separated (g : Grammar) (separator : String) (item : Parse Outline) : Parse Outline := do
  let first ← item
  return first ++ (← g.many do
    if ← Parse.takes separator then return some (← item) else return none)

end Grammar

open Parse

/-- A name of any kind, keywords included. -/
def name : Parse Text := do
  let t ← token
  if t.kind = .word then
    advance
    return t.text
  else unexpected

/-- A name that stands for a declaration. -/
def reference : Parse Outline := do
  let t ← token
  if t.isIdentifier then
    advance
    return .use t.text t.span
  else unexpected

/-- A name that is declared. -/
def bindingName : Parse Outline := do
  let t ← token
  if t.isIdentifier then
    advance
    return .binding t.text t.span
  else if t.isReserved then fail (.reservedWord (String.ofList t.text)) t.span
  else unexpected

/-- Where a property gets its name; only a computed one says something. -/
def propertyName (g : Grammar) (s : Setting) : Parse Outline := do
  let t ← token
  match t.kind with
  | .word | .string | .number | .privateName =>
    advance
    return .empty
  | _ =>
    if ← takes "[" then
      let key ← g.assignment s.inside
      expect "]"
      return key
    else unexpected

/-- Whether a property's name may begin here. -/
def isPropertyName (t : Token) : Bool :=
  t.kind = .word || t.kind = .string || t.kind = .number || t.kind = .privateName || t.isPunctuator "["

/-- Whether a word before the token marks what follows instead of naming it. -/
def canFollowModifier (t : Token) : Bool :=
  isPropertyName t || t.isPunctuator "\x7b" || t.isPunctuator "*" || t.isPunctuator "..."

/-- A template, from its first piece on. -/
def template (g : Grammar) (hole : Parse Outline) (marks : Bool) : Parse Outline := do
  let start := (← token).span.start
  if (← token).kind = .templateWhole then
    advance
    return .template ⟨start, ← previousStop⟩ .empty
  let first ← (do advance; hole)
  let rest ← g.many do
    unless ← sees "\x7d" do
      let found ← token
      fail (.expected "`" found.shown) found.span
    reread Scan.templatePiece
    match (← token).kind with
    | .templateMiddle =>
      advance
      return some (← hole)
    | .templateTail => return none
    | _ => unexpected
  advance
  let stop ← previousStop
  return if marks then .template ⟨start, stop⟩ (first ++ rest) else first ++ rest

end ComponentLint.TypeScript
