import ComponentLint.Source.Kind

/-! A script as it is linted, with the component document that it was taken from, if any. -/
namespace ComponentLint

/-- The document around a script, and where in it the script starts. -/
structure Origin where
  document : Text
  offset : Nat
deriving DecidableEq, Repr, Inhabited

structure SourceUnit where
  path : Path
  text : Text
  kind : SourceKind
  origin : Option Origin := none
deriving DecidableEq, Repr, Inhabited

namespace SourceUnit

def ofFile (p : Path) (text : Text) : SourceUnit :=
  { path := p.normalize, text := text, kind := .ofPath p }

def isComposite (u : SourceUnit) : Bool := u.origin.isSome

/-- Where the script starts in the document that findings are reported against. -/
def originOffset (u : SourceUnit) : Nat :=
  match u.origin with
  | none => 0
  | some o => o.offset

def document (u : SourceUnit) : Text :=
  match u.origin with
  | none => u.text
  | some o => o.document

end SourceUnit

end ComponentLint
