import ComponentLint.Component.Blocks
import ComponentLint.Component.Frame

/-! The script of a component that can be linted: the plain script if there is one, else the setup
script, provided that its language is TypeScript. -/
namespace ComponentLint.Component

structure Script where
  lang : Text
  content : Text
  span : Span
deriving DecidableEq, Repr, Inhabited

namespace Script

def isTsx (s : Script) : Bool := s.lang = "tsx".toList

end Script

def isSupportedLang (lang : Option Text) : Bool :=
  lang = some "ts".toList || lang = some "tsx".toList

def script? (document : Text) : Except DuplicateBlock (Option Script) :=
  match blocks document with
  | .error d => .error d
  | .ok bs =>
    .ok do
      let b ← bs.script.or bs.scriptSetup
      let lang ← b.lang?
      if isSupportedLang (some lang) then some ⟨lang, b.content, b.span⟩ else none

/-- Takes the script out of a document and shelves the frame around it. -/
def extract (shelf : Shelf) (p : Path) (document : Text) :
    Except DuplicateBlock (Option Script) × Shelf :=
  match script? document with
  | .error d => (.error d, shelf)
  | .ok none => (.ok none, shelf)
  | .ok (some s) =>
    let before := (document.splitAt? s.span.start).map (·.1)
    let after := (document.splitAt? s.span.stop).map (·.2)
    (.ok (some s), (shelf.insert p (before.getD []) (after.getD [])).1)

end ComponentLint.Component
