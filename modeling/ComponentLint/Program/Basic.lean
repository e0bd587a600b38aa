import ComponentLint.Program.Record
import ComponentLint.Resolution.Search
import ComponentLint.Sorting

/-! The units of a project, linked by what their requests mean. How a text is read is a parameter: a program
holds the records that a reading gives. -/
namespace ComponentLint

/-- How a script of some dialect is read. -/
abbrev Reader := Text → SourceKind → ModuleRecord

/-- A unit of a program, with what each of its requests means. -/
structure LinkedUnit where
  unit : SourceUnit
  record : ModuleRecord
  targets : List (Option Path)
deriving DecidableEq, Repr, Inhabited

structure Program where
  resolver : Resolver
  /-- The language level of the project. -/
  target : Option Text
  units : List LinkedUnit
deriving DecidableEq, Repr, Inhabited

namespace ModuleRecord

/-- A component always has a default export, and one without a script may have any. -/
def inComponent (r : ModuleRecord) (text : Text) : ModuleRecord :=
  let exports := r.exports.insert "default".toList
  { r with exports := if text = [] then exports.opened else exports }

end ModuleRecord

namespace LinkedUnit

/-- What a specifier means in the unit; none where the unit does not ask for it. -/
def targetOf? (u : LinkedUnit) (specifier : Text) : Option (Option Path) :=
  (u.record.requests.zip u.targets).findSome? fun (request, target) =>
    if request.specifier = specifier then some target else none

end LinkedUnit

namespace Program

def record (read : Reader) (u : SourceUnit) : ModuleRecord :=
  let found := read u.text u.kind
  if u.isComposite then found.inComponent u.text else found

def link (search : Search) (r : Resolver) (read : Reader) (u : SourceUnit) : LinkedUnit :=
  let found := record read u
  ⟨u, found, found.requests.map fun request => search.resolve r request.specifier u.path⟩

/-- Links units that are loaded. All of them count as existing files. -/
def ofUnits (read : Reader) (r : Resolver) (host : SourceHost) (units : List SourceUnit) : Program :=
  ⟨r, none, units.map (link ⟨host, units.map (·.path)⟩ r read)⟩

def size (p : Program) : Nat := p.units.length

def isEmpty (p : Program) : Bool := p.units.isEmpty

/-- The unit at a place; of several, the last. -/
def at? (p : Program) (place : Path) : Option LinkedUnit := p.units.reverse.find? (·.unit.path.same place)

/-- The unit at a path, however it is spelled. -/
def get? (p : Program) (path : Path) : Option LinkedUnit := p.at? path.normalize

def contains (p : Program) (path : Path) : Bool := (p.get? path).isSome

def unit? (p : Program) (path : Path) : Option SourceUnit := (p.get? path).map (·.unit)

def requests? (p : Program) (path : Path) : Option (List Request) := (p.get? path).map (·.record.requests)

def exports? (p : Program) (path : Path) : Option Exports := (p.get? path).map (·.record.exports)

/-- What a specifier means in the unit at a path. -/
def resolveImport (p : Program) (path : Path) (specifier : Text) : Option Path :=
  (p.get? path).bind fun u => (u.targetOf? specifier).join

end Program

end ComponentLint
