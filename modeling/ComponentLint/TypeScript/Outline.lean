import ComponentLint.Text.Basic

/-! The outline of a script: of all that a script says, the names that it uses and binds, its
templates, and the modules that it loads while it runs, in the order in which they are written. -/
namespace ComponentLint.TypeScript

inductive Outline where
  | empty
  | both (first second : Outline)
  /-- A name that stands for something declared elsewhere. -/
  | use (name : Text) (span : Span)
  /-- A name that is declared here. -/
  | binding (name : Text) (span : Span)
  | template (span : Span) (inside : Outline)
  /-- A module that a call loads by its name. -/
  | load (specifier : Text) (span : Span)
  /-- What stands inside a pattern without being part of it: a default value or a computed key. -/
  | aside (inside : Outline)
deriving DecidableEq, Repr, Inhabited

namespace Outline

def append : Outline → Outline → Outline
  | empty, b => b
  | a, empty => a
  | a, b => both a b

instance : Append Outline := ⟨append⟩

def join (parts : List Outline) : Outline := parts.foldr append empty

def uses : Outline → List Text
  | empty => []
  | both a b => uses a ++ uses b
  | use name _ => [name]
  | binding _ _ => []
  | template _ inside => uses inside
  | load _ _ => []
  | aside inside => uses inside

def bindings : Outline → List Text
  | empty => []
  | both a b => bindings a ++ bindings b
  | use _ _ => []
  | binding name _ => [name]
  | template _ inside => bindings inside
  | load _ _ => []
  | aside inside => bindings inside

/-- The names that a pattern binds by itself. -/
def bound : Outline → List Text
  | both a b => bound a ++ bound b
  | binding name _ => [name]
  | _ => []

/-- The spans of the templates, an outer one before those inside it. -/
def templates : Outline → List Span
  | empty => []
  | both a b => templates a ++ templates b
  | use _ _ => []
  | binding _ _ => []
  | template span inside => span :: templates inside
  | load _ _ => []
  | aside inside => templates inside

/-- The modules loaded by name, with the span of the name. -/
def loads : Outline → List (Text × Span)
  | empty => []
  | both a b => loads a ++ loads b
  | use _ _ => []
  | binding _ _ => []
  | template _ inside => loads inside
  | load specifier span => [(specifier, span)]
  | aside inside => loads inside

end Outline

end ComponentLint.TypeScript
