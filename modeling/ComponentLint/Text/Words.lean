import ComponentLint.Text.Basic

/-! Names in running text: whole-word search and the hyphenated spelling of a name. -/
namespace ComponentLint.Text

def isWordChar (c : Char) : Bool := c.isAlphanum || c = '_' || c = '$'

def isWordBoundary (neighbour : Option Char) : Bool := !neighbour.any isWordChar

/-- Looks at the occurrences of `word` from left to right, each search going on behind the last
occurrence; `skip` characters are still part of it, and `previous` stands before the rest. -/
def wordOccurs (word : Text) (skip : Nat) (previous : Option Char) : Text → Bool
  | [] => skip = 0 && word = [] && isWordBoundary previous
  | c :: rest =>
    match skip with
    | skip + 1 => wordOccurs word skip (some c) rest
    | 0 =>
      match after? word (c :: rest) with
      | none => wordOccurs word 0 (some c) rest
      | some following =>
        (isWordBoundary previous && isWordBoundary following.head?) ||
          wordOccurs word (word.length - 1) (some c) rest

/-- Whether some occurrence of `word` has no word character on either side. -/
def containsWord (word haystack : Text) : Bool := wordOccurs word 0 none haystack

def kebabTail : Text → Text
  | [] => []
  | c :: rest => if c.isUpper then '-' :: c.toLower :: kebabTail rest else c :: kebabTail rest

/-- The spelling with a hyphen before each capital but the first letter, all in lower case. -/
def kebab : Text → Text
  | [] => []
  | c :: rest => c.toLower :: kebabTail rest

/-- Whether a name stands in a text, as it is or hyphenated. -/
def mentions (name haystack : Text) : Bool :=
  containsWord name haystack || (kebab name ≠ name && containsWord (kebab name) haystack)

end ComponentLint.Text
