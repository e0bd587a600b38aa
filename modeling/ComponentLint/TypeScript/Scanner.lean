import ComponentLint.TypeScript.Token

/-! Cutting a script into tokens, one at a time. What a slash, a closing brace or an angle bracket begins
depends on the grammar, so the parser asks for the reading that it needs; `scan` gives the common one. -/
namespace ComponentLint.TypeScript

structure Stand where
  offset : Nat
  rest : Text
deriving DecidableEq, Repr, Inhabited

/-- What is passed between two tokens. -/
structure Gap where
  stand : Stand
  fresh : Bool
  /-- A comment without end, which takes up the rest of the script. -/
  openComment : Option Nat := none
deriving DecidableEq, Repr, Inhabited

/-- What is being passed between two tokens. -/
inductive Passing where
  | blanks
  | line
  /-- A comment that starts at an offset. -/
  | comment (start : Nat)
deriving DecidableEq, Repr, Inhabited

namespace Gap

/-- Passes blanks and comments. -/
def skip (passing : Passing) (offset : Nat) (fresh : Bool) : Text → Gap
  | [] =>
    match passing with
    | .comment start => ⟨⟨offset, []⟩, fresh, some start⟩
    | _ => ⟨⟨offset, []⟩, fresh, none⟩
  | [c] =>
    match passing with
    | .comment start => ⟨⟨offset + c.utf8Size, []⟩, fresh, some start⟩
    | .line => ⟨⟨offset + c.utf8Size, []⟩, fresh || isLineBreak c, none⟩
    | .blanks =>
      if isLineBreak c then ⟨⟨offset + c.utf8Size, []⟩, true, none⟩
      else if isSpace c then ⟨⟨offset + c.utf8Size, []⟩, fresh, none⟩
      else ⟨⟨offset, [c]⟩, fresh, none⟩
  | c :: d :: rest =>
    match passing with
    | .comment start =>
      if c = '*' && d = '/' then skip .blanks (offset + 2) fresh rest
      else skip (.comment start) (offset + c.utf8Size) (fresh || isLineBreak c) (d :: rest)
    | .line =>
      if isLineBreak c then skip .blanks (offset + c.utf8Size) true (d :: rest)
      else skip .line (offset + c.utf8Size) fresh (d :: rest)
    | .blanks =>
      if c = '/' && d = '/' then skip .line (offset + 2) fresh rest
      else if c = '/' && d = '*' then skip (.comment offset) (offset + 2) fresh rest
      else if isLineBreak c then skip .blanks (offset + c.utf8Size) true (d :: rest)
      else if isSpace c then skip .blanks (offset + c.utf8Size) fresh (d :: rest)
      else ⟨⟨offset, c :: d :: rest⟩, fresh, none⟩

def behind (s : Stand) : Gap := skip .blanks s.offset false s.rest

end Gap

namespace Scan

/-- A token of the given length in characters, and the place behind it. -/
def token (kind : TokenKind) (text : Text) (length : Nat) (fresh : Bool) (s : Stand) : Token × Stand :=
  let stop := s.offset + Text.byteSize (s.rest.take length)
  ({ kind := kind, text := text, span := ⟨s.offset, stop⟩, fresh := fresh, chars := s.rest },
    ⟨stop, s.rest.drop length⟩)

def broken (cause : Cause) (length : Nat) (fresh : Bool) (s : Stand) : Token × Stand :=
  let (t, behind) := token .broken [] length fresh s
  ({ t with fault := some ⟨cause, t.span⟩ }, behind)

def hexValue? (c : Char) : Option Nat :=
  if c.isDigit then some (c.toNat - '0'.toNat)
  else if 'a' ≤ c && c ≤ 'f' then some (c.toNat - 'a'.toNat + 10)
  else if 'A' ≤ c && c ≤ 'F' then some (c.toNat - 'A'.toNat + 10)
  else none

def hex? (digits : Text) : Option Nat :=
  if digits = [] then none
  else (digits.mapM hexValue?).map fun values => values.foldl (fun n d => n * 16 + d) 0

/-- The code of an escape behind its `\u`, and its length. -/
def unicodeEscape? : Text → Option (Nat × Nat)
  | '\x7b' :: rest =>
    let digits := rest.takeWhile (· ≠ '\x7d')
    if digits.length < rest.length then (hex? digits).map fun n => (n, digits.length + 2) else none
  | t => if (t.take 4).length = 4 then (hex? (t.take 4)).map fun n => (n, 4) else none

def isHighHalf (n : Nat) : Bool := 0xD800 ≤ n && n ≤ 0xDBFF

def isLowHalf (n : Nat) : Bool := 0xDC00 ≤ n && n ≤ 0xDFFF

/-- The character with a code; half a pair alone stands for the replacement character. -/
def charOf (n : Nat) : Char := if isHighHalf n || isLowHalf n then '\uFFFD' else Char.ofNat n

/-- What an escape behind a backslash stands for, and its length. -/
def stringEscape (t : Text) : Text × Nat :=
  match t with
  | 'n' :: _ => (['\n'], 1)
  | 't' :: _ => (['\t'], 1)
  | 'r' :: _ => (['\r'], 1)
  | 'b' :: _ => (['\x08'], 1)
  | 'v' :: _ => (['\x0b'], 1)
  | 'f' :: _ => (['\x0c'], 1)
  | '\r' :: '\n' :: _ => ([], 2)
  | 'x' :: rest =>
    match hex? (rest.take 2) with
    | some n => ([Char.ofNat n], 3)
    | none => (['x'], 1)
  | 'u' :: rest =>
    match unicodeEscape? rest with
    | none => (['u'], 1)
    | some (n, length) =>
      let low := match rest.drop length with
        | '\\' :: 'u' :: more => unicodeEscape? more
        | _ => none
      match isHighHalf n, low with
      | true, some (m, lowLength) =>
        if isLowHalf m then
          ([Char.ofNat ((n - 0xD800) * 0x400 + (m - 0xDC00) + 0x10000)], 3 + length + lowLength)
        else ([charOf n], 1 + length)
      | _, _ => ([charOf n], 1 + length)
  | '0' :: _ => (['\x00'], 1)
  | c :: _ => if isLineBreak c then ([], 1) else ([c], 1)
  | [] => ([], 0)

/-- The value of a string up to its quote, and the characters read, the quote included; without a quote on
the line, the characters up to the end of the line. So many characters are `skipped`, being part of an escape. -/
def stringBody (quote : Char) (skipped : Nat) : Text → Except Nat (Text × Nat)
  | [] => .error 0
  | c :: rest =>
    let (read, step) : Text × Except Nat (Text × Nat) :=
      match skipped with
      | more + 1 => ([], stringBody quote more rest)
      | 0 =>
        if c = '\\' then
          let (value, length) := stringEscape rest
          (value, stringBody quote length rest)
        else if c = quote then ([], .ok ([], 0))
        else if c = '\n' || c = '\r' then ([], .error 0)
        else ([c], stringBody quote 0 rest)
    match step with
    | .ok (value, n) => .ok (read ++ value, n + 1)
    | .error n => .error (n + 1)

def string (quote : Char) (fresh : Bool) (s : Stand) : Token × Stand :=
  let inside := s.rest.drop 1
  match stringBody quote 0 inside with
  | .ok (value, n) => token .string value (n + 1) fresh s
  | .error n => broken .unterminatedString (n + 1) fresh s

/-- The length of a template piece with its end, and whether a substitution follows. -/
def templateBody : Text → Option (Nat × Bool)
  | [] => none
  | '`' :: _ => some (1, false)
  | '$' :: '\x7b' :: _ => some (2, true)
  | '\\' :: _ :: rest => (templateBody rest).map fun (n, more) => (n + 2, more)
  | _ :: rest => (templateBody rest).map fun (n, more) => (n + 1, more)

/-- A template, or its next piece where `inside` one, whose first character is a backquote or a brace. -/
def template (inside fresh : Bool) (s : Stand) : Token × Stand :=
  match templateBody (s.rest.drop 1) with
  | some (n, true) => token (if inside then .templateMiddle else .templateHead) [] (n + 1) fresh s
  | some (n, false) => token (if inside then .templateTail else .templateWhole) [] (n + 1) fresh s
  | none => broken .unterminatedString s.rest.length fresh s

/-- The characters of a name, how many characters they are written with, and whether some are escaped. So
many characters are `skipped`, being part of an escape. -/
def nameBody (first : Bool) (skipped : Nat) : Text → Text × Nat × Bool
  | [] => ([], 0, false)
  | c :: rest =>
    match skipped with
    | more + 1 =>
      let (name, taken, escaped) := nameBody false more rest
      (name, taken + 1, escaped)
    | 0 =>
      if c = '\\' then
        match rest with
        | 'u' :: code =>
          match unicodeEscape? code with
          | some (n, length) =>
            let (name, taken, _) := nameBody false (length + 1) rest
            (charOf n :: name, taken + 1, true)
          | none => ([], 0, false)
        | _ => ([], 0, false)
      else if isNameStart c || (!first && isNamePart c) then
        let (name, taken, escaped) := nameBody false 0 rest
        (c :: name, taken + 1, escaped)
      else ([], 0, false)

def isNumberPart (c : Char) : Bool := c.isAlphanum || c = '_'

/-- The length of a number: digits and letters with one dot, and a sign behind an exponent's letter. -/
def numberLength (hexadecimal dotted : Bool) (previous : Char) : Text → Nat
  | [] => 0
  | c :: rest =>
    if isNumberPart c then numberLength hexadecimal dotted c rest + 1
    else if c = '.' && !dotted && !hexadecimal then numberLength hexadecimal true c rest + 1
    else if (c = '+' || c = '-') && !hexadecimal && (previous = 'e' || previous = 'E') then
      numberLength hexadecimal true c rest + 1
    else 0

def number (fresh : Bool) (s : Stand) : Token × Stand :=
  let hexadecimal := match s.rest with
    | '0' :: c :: _ => c.isAlpha && c ≠ 'e' && c ≠ 'E'
    | _ => false
  let length := numberLength hexadecimal false ' ' s.rest
  token .number (s.rest.take length) length fresh s

/-- Punctuators by their first characters, longest first. A `>` is always read alone. -/
def punctuators : List Text :=
  ["...", "=>", "===", "!==", "==", "!=", "**=", "**", "*=", "++", "+=", "--", "-=", "<<=", "<<", "<=", "&&=", "&&",
    "&=", "||=", "||", "|=", "??=", "??", "/=", "%=", "^=", "\x7b", "\x7d", "(", ")", "[", "]", ".", ";", ",", "<",
    ">", "=", "!", "+", "-", "*", "/", "%", "&", "|", "^", "~", "?", ":", "@", "#"].map String.toList

def punctuator? (t : Text) : Option Text :=
  match t with
  | '?' :: '.' :: rest => if rest.head?.any Char.isDigit then some ['?'] else some ['?', '.']
  | _ => punctuators.find? t.startsWith

/-- The token at a place where no blank stands. -/
def tokenAt (fresh : Bool) (s : Stand) : Token × Stand :=
  match s.rest with
  | [] => ({ kind := .eof, text := [], span := ⟨s.offset, s.offset⟩, fresh := fresh }, s)
  | c :: rest =>
    if c = '"' || c = '\'' then string c fresh s
    else if c = '`' then template false fresh s
    else if c.isDigit || (c = '.' && rest.head?.any Char.isDigit) then number fresh s
    else
      let named := nameBody true 0 s.rest
      if named.1 ≠ [] then
        let (t, behind) := token .word named.1 named.2.1 fresh s
        ({ t with escaped := named.2.2 }, behind)
      else
        let hidden := if c = '#' then nameBody true 0 rest else ([], 0, false)
        if hidden.1 ≠ [] then token .privateName hidden.1 (hidden.2.1 + 1) fresh s
        else
          match punctuator? s.rest with
          | some p => token .punctuator p p.length fresh s
          | none => broken (.invalidCharacter c) 1 fresh s

/-- The next token. A comment without end makes it the last one. -/
def next (s : Stand) : Token × Stand :=
  let gap := Gap.behind s
  match gap.openComment with
  | none => tokenAt gap.fresh gap.stand
  | some start =>
    let span : Span := ⟨start, gap.stand.offset⟩
    ({ kind := .eof, text := [], span := span, fresh := gap.fresh, fault := some ⟨.unterminatedComment, span⟩ },
      gap.stand)

/-- The length of a regular expression up to its closing slash; brackets hide slashes. -/
def regexBody (bracketed : Bool) : Text → Option Nat
  | [] => none
  | '\\' :: c :: rest => if isLineBreak c then none else (regexBody bracketed rest).map (· + 2)
  | c :: rest =>
    if isLineBreak c then none
    else if c = '/' && !bracketed then some 1
    else if c = '[' then (regexBody true rest).map (· + 1)
    else if c = ']' then (regexBody false rest).map (· + 1)
    else (regexBody bracketed rest).map (· + 1)

/-- Reads a regular expression where a slash was read. -/
def regex (t : Token) : Token × Stand :=
  let s : Stand := ⟨t.span.start, t.chars⟩
  match regexBody false (s.rest.drop 1) with
  | none => broken .unterminatedRegex ((s.rest.takeWhile fun c => !isLineBreak c).length) t.fresh s
  | some n =>
    let flags := ((s.rest.drop (n + 1)).takeWhile isNamePart).length
    token .regex [] (n + 1 + flags) t.fresh s

/-- Operators that begin with `>`, longest first. -/
def angleOperators : List Text :=
  [">>>=", ">>>", ">>=", ">>", ">=", ">"].map String.toList

/-- Reads the whole operator where `>` was read. -/
def rightAngle (t : Token) : Token × Stand :=
  let s : Stand := ⟨t.span.start, t.chars⟩
  let p := (angleOperators.find? s.rest.startsWith).getD ['>']
  token .punctuator p p.length t.fresh s

/-- Reads a single `<` where a longer operator was read. -/
def leftAngle (t : Token) : Token × Stand :=
  token .punctuator ['<'] 1 t.fresh ⟨t.span.start, t.chars⟩

/-- Reads the next piece of a template where a closing brace was read. -/
def templatePiece (t : Token) : Token × Stand := template true t.fresh ⟨t.span.start, t.chars⟩

/-- Adds the hyphenated rest to a name, as element names have it. -/
def jsxName (t : Token) : Token × Stand :=
  let s : Stand := ⟨t.span.start, t.chars⟩
  let name := s.rest.takeWhile fun c => isNamePart c || c = '-'
  token .word name name.length t.fresh s

/-- The value of an attribute, in which nothing is escaped. -/
def jsxString (quote : Char) (fresh : Bool) (s : Stand) : Token × Stand :=
  let value := (s.rest.drop 1).takeWhile (· ≠ quote)
  if value.length + 1 < s.rest.length then token .string value (value.length + 2) fresh s
  else broken .unterminatedString s.rest.length fresh s

/-- The next token behind the `=` of an attribute. -/
def jsxValue (s : Stand) : Token × Stand :=
  let gap := Gap.behind s
  match gap.stand.rest with
  | '"' :: _ => jsxString '"' gap.fresh gap.stand
  | '\'' :: _ => jsxString '\'' gap.fresh gap.stand
  | _ => next s

/-- The next child of an element: text, a brace or a tag. -/
def jsxChild (s : Stand) : Token × Stand :=
  match s.rest with
  | [] => tokenAt false s
  | '<' :: _ => token .punctuator ['<'] 1 false s
  | '\x7b' :: _ => token .punctuator ['\x7b'] 1 false s
  | _ =>
    let content := s.rest.takeWhile fun c => c ≠ '<' && c ≠ '\x7b'
    token .jsxText content content.length false s

end Scan

end ComponentLint.TypeScript
