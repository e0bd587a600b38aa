import ComponentLint.TypeScript.Declarations

/-! Statements. -/
namespace ComponentLint.TypeScript.StatementRule

open Parse

/-- An expression in parentheses. -/
def condition (g : Grammar) (s : Setting) : Parse Outline := do
  expect "("
  let inside ← g.expression s.inside
  expect ")"
  return inside

def conditional (g : Grammar) (s : Setting) : Parse Outline := do
  expectWord "if"
  let test ← condition g s
  let yes ← g.statement s
  let no ← if ← takesWord "else" then g.statement s else pure .empty
  return test ++ yes ++ no

def doLoop (g : Grammar) (s : Setting) : Parse Outline := do
  expectWord "do"
  let body ← g.statement s
  expectWord "while"
  let test ← condition g s
  discard (takes ";")
  return body ++ test

/-- A keyword, a condition and a statement. -/
def guarded (g : Grammar) (s : Setting) : Parse Outline := do
  advance
  return (← condition g s) ++ (← g.statement s)

/-- What a loop begins with. -/
def loopHead (g : Grammar) (s : Setting) : Parse Outline := do
  if ← sees ";" then return .empty
  let inside := { s.inside with withoutIn := true }
  if ← DeclarationRule.seesVariables then
    let isConstant ← DeclarationRule.variablesHead
    return .join ((← DeclarationRule.declarators g inside isConstant false).map Declarator.outline)
  else g.expression inside

def loop (g : Grammar) (s : Setting) : Parse Outline := do
  expectWord "for"
  discard (takesWord "await")
  expect "("
  let head ← loopHead g s
  let rest ←
    if ← takesWord "of" then g.assignment s.inside
    else if ← takesWord "in" then g.expression s.inside
    else
      expect ";"
      let test ← if ← sees ";" then pure .empty else g.expression s.inside
      expect ";"
      let step ← if ← sees ")" then pure .empty else g.expression s.inside
      pure (test ++ step)
  expect ")"
  return head ++ rest ++ (← g.statement s)

/-- Leaves a loop or a switch, perhaps by a label. -/
def leave : Parse Outline := do
  advance
  let t ← token
  if t.isIdentifier && !t.fresh then advance
  endStatement
  return .empty

def giveBack (g : Grammar) (s : Setting) : Parse Outline := do
  advance
  let value ← if (← sees ";") || endsByItself (← token) then pure .empty else g.expression s.inside
  endStatement
  return value

def throwing (g : Grammar) (s : Setting) : Parse Outline := do
  advance
  let value ← g.expression s.inside
  endStatement
  return value

def switchCase (g : Grammar) (s : Setting) : Parse Outline := do
  let test ←
    if ← takesWord "default" then pure .empty
    else
      expectWord "case"
      g.expression s.inside
  expect ":"
  return test ++ (← g.many do
    if (← seesWord "case") || (← seesWord "default") || (← sees "\x7d") || (← token).kind = .eof then return none
    else return some (← g.statement s))

def switch (g : Grammar) (s : Setting) : Parse Outline := do
  expectWord "switch"
  let value ← condition g s
  expect "\x7b"
  let cases ← g.many do
    if (← sees "\x7d") || (← token).kind = .eof then return none else return some (← switchCase g s)
  expect "\x7d"
  return value ++ cases

def handler (g : Grammar) (s : Setting) : Parse Outline := do
  let caught ←
    if ← takes "(" then
      let pattern ← g.pattern s.inside
      let type ← annotation g s.inside
      expect ")"
      pure (pattern ++ type)
    else pure .empty
  return caught ++ (← block g s)

def trying (g : Grammar) (s : Setting) : Parse Outline := do
  expectWord "try"
  let body ← block g s
  let handled ← if ← takesWord "catch" then handler g s else pure .empty
  let last ← if ← takesWord "finally" then block g s else pure .empty
  return body ++ handled ++ last

def expressionStatement (g : Grammar) (s : Setting) : Parse Outline := do
  let value ← g.expression s.inside
  endStatement
  return value

/-- A class with decorators in front. -/
def decorated (g : Grammar) (s : Setting) : Parse Outline := do
  let before ← decorators g s
  return before ++ (← DeclarationRule.rule g s).outline

def rule (g : Grammar) (s : Setting) : Parse Outline := do
  if ← sees "\x7b" then block g s
  else if ← takes ";" then return .empty
  else if ← sees "@" then decorated g s
  else
    match (← token).word with
    | "if" => conditional g s
    | "do" => doLoop g s
    | "while" => guarded g s
    | "with" => guarded g s
    | "for" => loop g s
    | "break" => leave
    | "continue" => leave
    | "return" => giveBack g s
    | "throw" => throwing g s
    | "switch" => switch g s
    | "try" => trying g s
    | "debugger" => leave
    | _ =>
      if ← DeclarationRule.seesDeclaration s then return (← DeclarationRule.rule g s).outline
      else if (← token).isIdentifier && (← following).isPunctuator ":" then
        advance
        advance
        g.statement s
      else expressionStatement g s

end ComponentLint.TypeScript.StatementRule
