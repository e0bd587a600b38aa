import ComponentLint.TypeScript.Outline

/-! What a declaration declares. -/
namespace ComponentLint.TypeScript

/-- A declaration of one thing, which may go without a name. -/
structure Named where
  name : Option Text
  outline : Outline
deriving DecidableEq, Repr, Inhabited

/-- One of the patterns of a declaration of variables, and what stands behind it. -/
structure Declarator where
  pattern : Outline
  rest : Outline
deriving DecidableEq, Repr, Inhabited

inductive Declaration where
  | variableList (declarators : List Declarator)
  /-- A function, a class, an enumeration, a type, or another name for something. -/
  | single (d : Named)
  /-- A namespace; a module with a string for its name has none. -/
  | scope (n : Named)
deriving DecidableEq, Repr, Inhabited

namespace Named

/-- A declaration from the part that has its name and the part behind. -/
def of (declared rest : Outline) : Named := ⟨declared.bound.head?, declared ++ rest⟩

end Named

namespace Declarator

def outline (d : Declarator) : Outline := d.pattern ++ d.rest

end Declarator

namespace Declaration

def outline : Declaration → Outline
  | variableList declarators => .join (declarators.map Declarator.outline)
  | single d => d.outline
  | scope d => d.outline

end Declaration

end ComponentLint.TypeScript
