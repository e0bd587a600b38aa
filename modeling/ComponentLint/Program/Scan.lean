import ComponentLint.Program.Record
import ComponentLint.TypeScript.Items

/-! The record of a script. A name is exported by the declaration or the list that gives it away; of a
variable pattern, every name that is bound inside it counts. -/
namespace ComponentLint

open TypeScript

namespace TypeScript

def Declaration.exported : Declaration → List Text
  | variableList declarators => declarators.flatMap fun d => d.pattern.bindings
  | single d => d.name.toList
  | scope _ => []

namespace Item

def exported : Item → List Text
  | imports _ => []
  | exports specifiers => specifiers.map (·.exported.name)
  | passes specifiers _ _ => specifiers.map (·.exported.name)
  | passesAll name _ _ => (name.map ModuleName.name).toList
  | exportsDeclaration d => d.exported
  | exportsDefault _ => ["default".toList]
  | exportsValue _ => []
  | statement _ => []

/-- Whether an item exports names that are not written in it. -/
def exportsUnknown : Item → Bool
  | passesAll none _ _ => true
  | exportsValue _ => true
  | _ => false

end Item

/-- The name that an import looks for, if it looks for one. -/
def ImportBinding.wanted (b : ImportBinding) : Option WantedName :=
  match b.part with
  | .default => some ⟨"default".toList, b.localSpan⟩
  | .namespace => none
  | .named imported => some ⟨imported.name, imported.span⟩

/-- The request that an item makes, if it makes one. -/
def Item.request : Item → Option Request
  | imports d => some ⟨d.source.specifier, d.source.span, .imported, d.typeOnly, d.bindings.filterMap (·.wanted)⟩
  | passes specifiers source typeOnly =>
    some ⟨source.specifier, source.span, .reExported, typeOnly,
      specifiers.map fun e => ⟨e.localName.name, e.localName.span⟩⟩
  | passesAll _ source typeOnly => some ⟨source.specifier, source.span, .reExported, typeOnly, []⟩
  | _ => none

end TypeScript

namespace ModuleRecord

def ofModule (m : Module) : ModuleRecord where
  requests := m.items.filterMap (·.request) ++
    m.outline.loads.map fun (specifier, span) => ⟨specifier, span, .dynamic, false, []⟩
  exports := { Exports.empty.insertAll (m.items.flatMap (·.exported)) with isOpen := m.items.any (·.exportsUnknown) }
  faults := m.faults

/-- Reads a script in some way and keeps what others need to know. -/
def scanWith (parse : Parsing) (t : Text) (kind : SourceKind) : ModuleRecord := ofModule (parse kind t)

def scan (t : Text) (kind : SourceKind) : ModuleRecord := scanWith Module.ofText t kind

end ModuleRecord

end ComponentLint
