import ComponentLint.Path.Basic

/-! Wildcard patterns: `?`, `*`, `[..]`, `[!..]`, and `**` as a whole path component. -/
namespace ComponentLint.Glob

structure CharRange where
  low : Char
  high : Char
deriving DecidableEq, Repr, Inhabited

namespace CharRange

def contains (r : CharRange) (c : Char) : Bool := r.low ≤ c && c ≤ r.high

end CharRange

inductive Token where
  | char (c : Char)
  | any
  | sequence
  /-- `**` with the slash behind it: any number of whole components. -/
  | recursive
  | oneOf (ranges : List CharRange)
  | noneOf (ranges : List CharRange)
deriving DecidableEq, Repr, Inhabited

structure Pattern where
  tokens : List Token
  isRecursive : Bool
deriving DecidableEq, Repr, Inhabited

inductive PatternCause where
  | wildcards
  | recursiveWildcards
  | range
deriving DecidableEq, Repr, Inhabited

namespace PatternCause

def message : PatternCause → String
  | wildcards => "wildcards are either regular `*` or recursive `**`"
  | recursiveWildcards => "recursive wildcards must form a single path component"
  | range => "invalid range pattern"

end PatternCause

/-- Why a text is no pattern; the position counts characters. -/
structure PatternFault where
  position : Nat
  cause : PatternCause
deriving DecidableEq, Repr, Inhabited

namespace PatternFault

def message (f : PatternFault) : String :=
  s!"Pattern syntax error near position {f.position}: {f.cause.message}"

end PatternFault

/-- The ranges between brackets; a character alone is a range of one. -/
def ranges : Text → List CharRange
  | low :: '-' :: high :: rest => ⟨low, high⟩ :: ranges rest
  | c :: rest => ⟨c, c⟩ :: ranges rest
  | [] => []

/-- Cuts at a closing bracket, which the first character inside cannot be. -/
def bracketed? : Text → Option (Text × Text)
  | first :: rest =>
    if rest.contains ']' then
      some (first :: rest.takeWhile (· ≠ ']'), (rest.dropWhile (· ≠ ']')).drop 1)
    else none
  | [] => none

/-- The class behind an opening bracket, and what follows it. -/
def bracketClass? : Text → Option (Token × Text)
  | '!' :: inside => (bracketed? inside).map fun (members, rest) => (.noneOf (ranges members), rest)
  | inside => (bracketed? inside).map fun (members, rest) => (.oneOf (ranges members), rest)

namespace Pattern

/-- Adds `**`; right behind another one that is not the first token it adds nothing. -/
def addRecursive (p : Pattern) : Pattern :=
  if 1 < p.tokens.length ∧ p.tokens.getLast? = some .recursive then p
  else ⟨p.tokens ++ [.recursive], true⟩

/-- Reads a pattern from a position on; `previous` is the character before it. -/
def read (p : Pattern) (position : Nat) (previous : Option Char) : Nat → Text → Except PatternFault Pattern
  | 0, _ => .ok p
  | _ + 1, [] => .ok p
  | fuel + 1, '?' :: rest => read ⟨p.tokens ++ [.any], p.isRecursive⟩ (position + 1) (some '?') fuel rest
  | fuel + 1, '*' :: t =>
    let more := t.takeWhile (· = '*')
    let rest := t.dropWhile (· = '*')
    let stop := position + 1 + more.length
    match more.length with
    | 0 => read ⟨p.tokens ++ [.sequence], p.isRecursive⟩ stop (some '*') fuel rest
    | 1 =>
      if previous.all (· = '/') then
        match rest with
        | [] => .ok p.addRecursive
        | '/' :: rest => read p.addRecursive (stop + 1) (some '/') fuel rest
        | _ => .error ⟨stop, .recursiveWildcards⟩
      else .error ⟨position - 1, .recursiveWildcards⟩
    | _ => .error ⟨position + 2, .wildcards⟩
  | fuel + 1, '[' :: inside =>
    match bracketClass? inside with
    | none => .error ⟨position, .range⟩
    | some (token, rest) =>
      read ⟨p.tokens ++ [token], p.isRecursive⟩ (position + 1 + (inside.length - rest.length)) (some ']') fuel rest
  | fuel + 1, c :: rest => read ⟨p.tokens ++ [.char c], p.isRecursive⟩ (position + 1) (some c) fuel rest

def ofText (t : Text) : Except PatternFault Pattern := read ⟨[], false⟩ 0 none t.length t

/-- The text of a pattern without wildcards. -/
def plain? (p : Pattern) : Option Text := p.tokens.mapM fun
  | .char c => some c
  | _ => none

end Pattern

/-- What wildcards may not stand for. -/
structure Options where
  /-- A slash needs a slash. -/
  separator : Bool
  /-- A dot at the start of a component needs a dot. -/
  leadingDot : Bool
deriving DecidableEq, Repr, Inhabited

/-- Lets `*` or `**` take characters one at a time and goes on behind each with `onward`; `**` goes on
only behind slashes and at the end. `fresh` tells that a component starts here. -/
def take (o : Options) (whole : Bool) (onward : Bool → Text → Bool) (fresh : Bool) : Text → Bool
  | [] => onward fresh []
  | c :: rest =>
    if fresh && o.leadingDot && c = '.' then false
    else
      let slash : Bool := c = '/'
      if whole && !slash then take o whole onward slash rest
      else if !whole && o.separator && slash then false
      else onward slash rest || take o whole onward slash rest

/-- Whether a token that stands for one character stands for this one. -/
def Token.accepts (o : Options) (fresh : Bool) (c : Char) (t : Token) : Bool :=
  let barred := (o.separator && c = '/') || (fresh && o.leadingDot && c = '.')
  match t with
  | .char d => c = d
  | .any => !barred
  | .oneOf rs => !barred && rs.any (·.contains c)
  | .noneOf rs => !barred && !rs.any (·.contains c)
  | .sequence => false
  | .recursive => false

def matchFrom (o : Options) : List Token → Bool → Text → Bool
  | [], _, t => t.isEmpty
  | .sequence :: rest, fresh, t => matchFrom o rest fresh t || take o false (matchFrom o rest) fresh t
  | .recursive :: rest, fresh, t => matchFrom o rest fresh t || take o true (matchFrom o rest) fresh t
  | token :: rest, fresh, t =>
    match t with
    | [] => false
    | c :: t => token.accepts o fresh c && matchFrom o rest (c = '/') t

namespace Pattern

def covers (o : Options) (p : Pattern) (t : Text) : Bool := matchFrom o p.tokens true t

end Pattern

end ComponentLint.Glob
