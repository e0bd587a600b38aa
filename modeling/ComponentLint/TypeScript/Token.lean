import ComponentLint.TypeScript.Fault

/-! Tokens, and the character classes that tell them apart. -/
namespace ComponentLint.TypeScript

inductive TokenKind where
  | eof
  /-- A name or a keyword; which of them depends on where it stands. -/
  | word
  | privateName
  | number
  | string
  /-- A template, or the piece of one up to the next substitution. -/
  | templateWhole
  | templateHead
  | templateMiddle
  | templateTail
  | regex
  | jsxText
  | punctuator
  /-- Characters that are no token. -/
  | broken
deriving DecidableEq, Repr, Inhabited

structure Token where
  kind : TokenKind
  /-- The name, the value of a string, or the punctuator. -/
  text : Text
  span : Span
  /-- Whether a line break stands before the token. -/
  fresh : Bool
  /-- Whether the name is written with an escape, so that it is no keyword. -/
  escaped : Bool := false
  /-- What the scanner found wrong here. -/
  fault : Option Fault := none
  /-- The script from the first character of the token on. -/
  chars : Text := []
deriving DecidableEq, Repr, Inhabited

namespace Token

def isPunctuator (t : Token) (p : String) : Bool := t.kind = .punctuator && t.text = p.toList

def isKeyword (t : Token) (w : String) : Bool := t.kind = .word && !t.escaped && t.text = w.toList

/-- Words that name nothing. -/
def reservedWords : List String :=
  ["break", "case", "catch", "class", "const", "continue", "debugger", "default", "delete", "do", "else", "enum",
    "export", "extends", "false", "finally", "for", "function", "if", "import", "in", "instanceof", "new", "null",
    "return", "super", "switch", "this", "throw", "true", "try", "typeof", "var", "void", "while", "with"]

def isReservedName (name : Text) : Bool := reservedWords.any (·.toList = name)

def isReserved (t : Token) : Bool := t.kind = .word && !t.escaped && isReservedName t.text

/-- Words that mean something in some places. -/
def contextualWords : List String :=
  ["abstract", "accessor", "any", "as", "asserts", "assert", "async", "await", "bigint", "boolean", "constructor",
    "declare", "defer", "from", "get", "global", "implements", "infer", "interface", "intrinsic", "is", "keyof", "let",
    "meta", "module", "namespace", "never", "number", "object", "of", "out", "override", "package", "private",
    "protected", "public", "readonly", "require", "satisfies", "set", "source", "static", "string", "symbol", "target",
    "type", "undefined", "unique", "unknown", "using", "yield"]

/-- The word that the token is written with, or nothing. -/
def word (t : Token) : String := if t.kind = .word && !t.escaped then String.ofList t.text else ""

/-- Whether the token may stand for a name of its own. -/
def isIdentifier (t : Token) : Bool := t.kind = .word && !t.isReserved

/-- What messages call a number, by how it is written. -/
def numberShown : Text → String
  | '0' :: 'x' :: _ => "hex"
  | '0' :: 'X' :: _ => "hex"
  | '0' :: 'o' :: _ => "octal"
  | '0' :: 'O' :: _ => "octal"
  | '0' :: 'b' :: _ => "binary"
  | '0' :: 'B' :: _ => "binary"
  | t => if t.contains '.' then "float" else "decimal"

/-- What messages call the token. -/
def shown (t : Token) : String :=
  match t.kind with
  | .eof => "EOF"
  | .string => "string"
  | .number => numberShown t.text
  | .templateWhole => "template"
  | .templateHead => "template"
  | .templateMiddle => "template"
  | .templateTail => "template"
  | .regex => "/regexp/"
  | .jsxText => "jsx"
  | .privateName => "PrivateIdentifier"
  | .punctuator => String.ofList t.text
  | .broken => "Unknown"
  | .word =>
    if t.isReserved || contextualWords.any (·.toList = t.text) then String.ofList t.text else "Identifier"

end Token

def isLineBreak (c : Char) : Bool := c = '\n' || c = '\r' || c = '\u2028' || c = '\u2029'

/-- The blanks between tokens, line breaks aside. -/
def isSpace (c : Char) : Bool :=
  let n := c.toNat
  n = 0x20 || n = 0x09 || n = 0x0B || n = 0x0C || n = 0x85 || n = 0xA0 || n = 0x1680 || n = 0x180E ||
    (0x2000 ≤ n && n ≤ 0x200B) || n = 0x202F || n = 0x205F || n = 0x3000 || n = 0xFEFF

/-- Every character beyond ASCII that is no blank may begin a name. -/
def isNameStart (c : Char) : Bool :=
  c.isAlpha || c = '$' || c = '_' || (127 < c.toNat && !isSpace c && !isLineBreak c)

def isNamePart (c : Char) : Bool := isNameStart c || c.isDigit

end ComponentLint.TypeScript
