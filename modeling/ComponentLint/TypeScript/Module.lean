import ComponentLint.Source.Kind
import ComponentLint.TypeScript.Declaration
import ComponentLint.TypeScript.Fault

/-! A script as a module: what it imports, what it exports, and the other statements between. -/
namespace ComponentLint.TypeScript

/-- A name on the far side of an import or an export, which may be written as a string. -/
structure ModuleName where
  name : Text
  span : Span
  quoted : Bool := false
deriving DecidableEq, Repr, Inhabited

/-- The module that a declaration names. -/
structure ModuleSource where
  specifier : Text
  span : Span
deriving DecidableEq, Repr, Inhabited

/-- What an import takes from the module. -/
inductive ImportedPart where
  | default
  | namespace
  | named (imported : ModuleName)
deriving DecidableEq, Repr, Inhabited

/-- A name that an import brings into the script. -/
structure ImportBinding where
  part : ImportedPart
  localName : Text
  localSpan : Span
  /-- The whole of it, as in `a as b`. -/
  span : Span
deriving DecidableEq, Repr, Inhabited

structure ImportDeclaration where
  span : Span
  bindings : List ImportBinding
  source : ModuleSource
  typeOnly : Bool
deriving DecidableEq, Repr, Inhabited

structure ExportSpecifier where
  localName : ModuleName
  exported : ModuleName
deriving DecidableEq, Repr, Inhabited

inductive Item where
  | imports (d : ImportDeclaration)
  /-- Names of the script given to others. -/
  | exports (specifiers : List ExportSpecifier)
  /-- Names of another module given on. -/
  | passes (specifiers : List ExportSpecifier) (source : ModuleSource) (typeOnly : Bool)
  /-- Everything of another module given on, under one name or as it is. -/
  | passesAll (name : Option ModuleName) (source : ModuleSource) (typeOnly : Bool)
  | exportsDeclaration (d : Declaration)
  | exportsDefault (value : Outline)
  /-- The module is a single value. -/
  | exportsValue (value : Outline)
  | statement (s : Outline)
deriving DecidableEq, Repr, Inhabited

namespace ExportSpecifier

/-- The name of the script that is given away. -/
def outline (e : ExportSpecifier) : Outline :=
  if e.localName.quoted then .empty else .use e.localName.name e.localName.span

end ExportSpecifier

namespace Item

def outline : Item → Outline
  | imports d => .join (d.bindings.map fun b => .binding b.localName b.localSpan)
  | exports specifiers => .join (specifiers.map ExportSpecifier.outline)
  | passes _ _ _ => .empty
  | passesAll _ _ _ => .empty
  | exportsDeclaration d => d.outline
  | exportsDefault value => value
  | exportsValue value => value
  | statement s => s

end Item

/-- What was read of a script. A fault that ends the reading leaves no items. -/
structure Module where
  items : List Item
  faults : List Fault
deriving DecidableEq, Repr, Inhabited

/-- A way to read scripts. -/
abbrev Parsing := SourceKind → Text → Module

namespace Module

def outline (m : Module) : Outline := .join (m.items.map Item.outline)

def imports (m : Module) : List ImportDeclaration :=
  m.items.filterMap fun
    | .imports d => some d
    | _ => none

end Module

end ComponentLint.TypeScript
