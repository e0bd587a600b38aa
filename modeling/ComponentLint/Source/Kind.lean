import ComponentLint.Path.Basic

/-! What a file is by its name: a component, a source file, and the dialect its script is read in. -/
namespace ComponentLint

inductive Language where
  | javaScript
  | typeScript
  /-- A declaration file, where nothing has a body. -/
  | declarations
deriving DecidableEq, Repr, Inhabited

inductive ModuleSystem where
  | module
  | commonJs
  | script
  /-- Decided by the content. -/
  | unambiguous
deriving DecidableEq, Repr, Inhabited

/-- The dialect that a script is read in. -/
structure SourceKind where
  language : Language
  jsx : Bool
  system : ModuleSystem
deriving DecidableEq, Repr, Inhabited

namespace SourceKind

def ts : SourceKind := ⟨.typeScript, false, .unambiguous⟩

def tsx : SourceKind := ⟨.typeScript, true, .unambiguous⟩

/-- The text before the last occurrence of `.d.`. -/
def stemBeforeDeclarationMark : Text → Option Text
  | [] => none
  | c :: rest =>
    match stemBeforeDeclarationMark rest with
    | some stem => some (c :: stem)
    | none => if Text.startsWith (c :: rest) ['.', 'd', '.'] then some [] else none

/-- A `.ts` name declares when its last `.d.` has something before it; `.mts` and `.cts` names need it
right before the extension. -/
def declares (name extension : Text) : Bool :=
  if extension = "ts".toList then (stemBeforeDeclarationMark name).any (· ≠ [])
  else
    let stem := name.take (name.length - 4)
    Text.endsWith stem ['.', 'd'] && 2 < Text.byteSize stem

def ofName (name extension : Text) : SourceKind :=
  let typed := if declares name extension then Language.declarations else .typeScript
  match String.ofList extension with
  | "js" => ⟨.javaScript, false, .unambiguous⟩
  | "jsx" => ⟨.javaScript, true, .unambiguous⟩
  | "mjs" => ⟨.javaScript, false, .module⟩
  | "cjs" => ⟨.javaScript, false, .commonJs⟩
  | "ts" => ⟨typed, false, .unambiguous⟩
  | "tsx" => tsx
  | "mts" => ⟨typed, false, .module⟩
  | "cts" => ⟨typed, false, .commonJs⟩
  | _ => ts

def ofPath (p : Path) : SourceKind :=
  match p.fileName? with
  | none => ts
  | some name =>
    match Path.extensionOfName name with
    | none => ts
    | some extension => ofName name extension

def isTypeScript (k : SourceKind) : Bool := k.language ≠ .javaScript

end SourceKind

namespace Path

/-- A component document by its name. -/
def isComponent (p : Path) : Bool :=
  p.fileName?.any fun name => name.endsWith ".vue".toList || name.endsWith ".vue.ts".toList

/-- A file that belongs to a program by its name. -/
def isSource (p : Path) : Bool :=
  p.fileName?.any fun name =>
    name.endsWith ".ts".toList || name.endsWith ".tsx".toList || name.endsWith ".vue".toList

end Path

end ComponentLint
