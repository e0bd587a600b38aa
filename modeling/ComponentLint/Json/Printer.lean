import ComponentLint.Json.Value

/-! Writing values, each member and element on a line of its own. -/
namespace ComponentLint.Json

def escaped (c : Char) : Text :=
  match c with
  | '"' => "\\\"".toList
  | '\\' => "\\\\".toList
  | '\n' => "\\n".toList
  | '\r' => "\\r".toList
  | '\t' => "\\t".toList
  | '\x08' => "\\b".toList
  | '\x0c' => "\\f".toList
  | c =>
    if c.toNat < 0x20 then
      let digits := Nat.toDigits 16 c.toNat
      "\\u".toList ++ List.replicate (4 - digits.length) '0' ++ digits
    else [c]

def written (t : Text) : Text := '"' :: t.flatMap escaped ++ ['"']

def Number.written : Number → Text
  | natural n => (toString n).toList
  | negative n => '-' :: (toString n).toList
  | real digits => digits.toList

/-- Puts parts between two brackets, each on a line of its own, indented one level deeper. -/
def bracketed (indent : Nat) (opening closing : Char) (parts : List Text) : Text :=
  let line (level : Nat) : Text := '\n' :: List.replicate (2 * level) ' '
  if parts = [] then [opening, closing]
  else opening :: Text.join [','] (parts.map (line (indent + 1) ++ ·)) ++ line indent ++ [closing]

mutual

/-- Writes a value that begins on a line with such an indentation. -/
def Value.pretty (indent : Nat) : Value → Text
  | .null => "null".toList
  | .bool b => (toString b).toList
  | .number n => n.written
  | .string s => written s
  | .list items => bracketed indent '[' ']' (prettyItems (indent + 1) items)
  | .object members => bracketed indent '\x7b' '\x7d' (prettyMembers (indent + 1) members)

def prettyItems (indent : Nat) : List Value → List Text
  | [] => []
  | v :: rest => v.pretty indent :: prettyItems indent rest

def prettyMembers (indent : Nat) : List (Text × Value) → List Text
  | [] => []
  | (k, v) :: rest => (written k ++ ": ".toList ++ v.pretty indent) :: prettyMembers indent rest

end

end ComponentLint.Json
