import ComponentLint.TypeScript.Scanner
import ComponentLint.TypeScript.Outline

/-! Reading a script token by token. A fault ends the reading, unless it is only noted. -/
namespace ComponentLint.TypeScript

/-- How far a script is read. -/
structure Cursor where
  token : Token
  /-- What follows the token. -/
  behind : Stand
  /-- Where the token before ends. -/
  previousStop : Nat := 0
  /-- What was found wrong without ending the reading. -/
  noted : List Fault := []
deriving Inhabited

abbrev Parse := EStateM Fault Cursor

namespace Parse

def token : Parse Token := return (← get).token

def previousStop : Parse Nat := return (← get).previousStop

/-- Goes on to the token that a scan finds behind this one. -/
def advanceBy (scan : Stand → Token × Stand) : Parse Unit :=
  modify fun c =>
    let (t, behind) := scan c.behind
    { c with token := t, behind := behind, previousStop := c.token.span.stop }

def advance : Parse Unit := advanceBy Scan.next

/-- Reads the current token anew, in another way. -/
def reread (scan : Token → Token × Stand) : Parse Unit :=
  modify fun c =>
    let (t, behind) := scan c.token
    { c with token := t, behind := behind }

def following : Parse Token := return (Scan.next (← get).behind).1

/-- Runs a reading and goes back to where it began. -/
def ahead (p : Parse α) : Parse (Option α) := fun c =>
  match p c with
  | .ok a _ => .ok (some a) c
  | .error _ _ => .ok none c

/-- Runs a reading, and goes back to where it began if it fails. -/
def attempt (p : Parse α) : Parse (Option α) := fun c =>
  match p c with
  | .ok a c' => .ok (some a) c'
  | .error _ _ => .ok none c

def fail (cause : Cause) (span : Span) : Parse α := throw ⟨cause, span⟩

def note (cause : Cause) (span : Span) : Parse Unit :=
  modify fun c => { c with noted := c.noted ++ [⟨cause, span⟩] }

/-- The current token has no place here; what the scanner found wrong with it says more. -/
def unexpected : Parse α := do
  let t ← token
  match t.fault with
  | some fault => throw fault
  | none => fail .unexpectedToken t.span

def sees (p : String) : Parse Bool := return (← token).isPunctuator p

def seesWord (w : String) : Parse Bool := return (← token).isKeyword w

def isDone : Parse Bool := return (← token).kind = .eof || (← token).kind = .broken

def takes (p : String) : Parse Bool := do
  if ← sees p then
    advance
    return true
  else return false

def takesWord (w : String) : Parse Bool := do
  if ← seesWord w then
    advance
    return true
  else return false

def takesAny (ps : List String) : Parse Bool := do
  if ps.any (← token).isPunctuator then
    advance
    return true
  else return false

/-- Takes a mark only where it may stand; otherwise nothing moves. -/
def takesIf (allowed : Bool) (p : String) : Parse Bool := if allowed then takes p else return false

def takesWordIf (allowed : Bool) (w : String) : Parse Bool := if allowed then takesWord w else return false

def expect (p : String) : Parse Unit := do
  unless ← takes p do
    let t ← token
    fail (.expected p t.shown) t.span

def expectWord (w : String) : Parse Unit := do
  unless ← takesWord w do
    let t ← token
    fail (.expected w t.shown) t.span

/-- Whether a statement may end before the current token without a semicolon. -/
def endsByItself (t : Token) : Bool := t.isPunctuator "\x7d" || t.kind = .eof || t.fresh

def endStatement : Parse Unit := do
  unless ← takes ";" do
    unless endsByItself (← token) do
      let stop ← previousStop
      fail .missingSemicolon ⟨stop, stop⟩

/-- What a step gives until it gives nothing. -/
def many (step : Parse (Option α)) : Nat → Parse (List α)
  | 0 => do fail .tooDeep (← token).span
  | room + 1 => do
    match ← step with
    | none => return []
    | some a => return a :: (← many step room)

/-- The rest of a list behind an item, up to the mark that closes it, which stays. A comma may stand before
that mark. -/
def listRest (closing : String) (item : Parse α) : Nat → Parse (List α)
  | 0 => do fail .tooDeep (← token).span
  | room + 1 => do
    if (← sees closing) || (← isDone) then return []
    unless ← sees "," do
      let t ← token
      fail (.expectedEither "," closing t.shown) t.span
    advance
    if ← sees closing then return []
    let a ← item
    return a :: (← listRest closing item room)

/-- A list with commas, up to the mark that closes it, which stays. -/
def list (room : Nat) (closing : String) (item : Parse α) : Parse (List α) := do
  if (← sees closing) || (← isDone) then return []
  let a ← item
  return a :: (← listRest closing item room)

end Parse

end ComponentLint.TypeScript
