import ComponentLint.Program.Basic

/-! What is wrong between the units of a program: modules that are not found, and names that a module does
not export. -/
namespace ComponentLint

inductive Finding where
  | syntaxFault (message : String)
  | unresolved (specifier : Text)
  | missing (specifier name : Text)
deriving DecidableEq, Repr, Inhabited

namespace Finding

def message : Finding → String
  | syntaxFault message => message
  | unresolved specifier =>
    s!"Cannot find module '{String.ofList specifier}' or its corresponding type declarations."
  | missing specifier name =>
    if name = "default".toList then s!"Module '{String.ofList specifier}' has no default export."
    else s!"Module '{String.ofList specifier}' has no exported member '{String.ofList name}'."

end Finding

/-- Something wrong at a place of a unit. -/
structure Located where
  finding : Finding
  span : Span
deriving DecidableEq, Repr, Inhabited

namespace Located

def message (l : Located) : String := l.finding.message

end Located

namespace Program

/-- The names of a request that its module does not export. -/
def missingNames (request : Request) (exports : Exports) : List Located :=
  (request.names.filter fun wanted => !exports.contains wanted.name).map fun wanted =>
    ⟨.missing request.specifier wanted.name, wanted.span⟩

/-- What is wrong with a request, given what it means. Modules outside the program are not looked into, and
neither are the ones loaded at run time. -/
def judge (p : Program) (request : Request) : Option Path → List Located
  | none => [⟨.unresolved request.specifier, request.span⟩]
  | some target =>
    match p.at? target with
    | none => []
    | some found => if request.kind = .dynamic then [] else missingNames request found.record.exports

/-- What is wrong with a request of a unit, or of a new version of it that asks for nothing new. -/
def judgeIn (p : Program) (u : LinkedUnit) (request : Request) : List Located :=
  match u.targetOf? request.specifier with
  | none => []
  | some target => p.judge request target

/-- What is wrong with a reading of a unit, in the order of the places. -/
def diagnoseUnit (p : Program) (u : LinkedUnit) (record : ModuleRecord) : List Located :=
  let faults := record.faults.map fun f => ⟨.syntaxFault f.message, f.span⟩
  Sorting.sort (fun a b => decide (a.span.start ≤ b.span.start)) (faults ++ record.requests.flatMap (p.judgeIn u))

/-- What is wrong with another reading of the unit at a path. -/
def diagnose (p : Program) (path : Path) (record : ModuleRecord) : List Located :=
  match p.get? path with
  | none => []
  | some u => p.diagnoseUnit u record

/-- What is wrong with the unit at a path. -/
def diagnostics (p : Program) (path : Path) : List Located :=
  match p.get? path with
  | none => []
  | some u => p.diagnoseUnit u u.record

end Program

end ComponentLint
