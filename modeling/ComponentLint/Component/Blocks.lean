import ComponentLint.Component.Element

/-! The blocks of a component document. `visited` lists the top-level elements from left to right with
the place of each; `blocks` puts them into their slots and refuses a second template, script or setup
script. -/
namespace ComponentLint.Component

inductive BlockKind where
  | template
  | script
  | scriptSetup
  | style
  | custom
deriving DecidableEq, Repr, Inhabited

/-- An element at a place of the document: the byte offset and the line of its `<`. -/
structure Placed where
  element : Element
  offset : Nat
  line : Nat
deriving DecidableEq, Repr, Inhabited

/-- The length in characters of the comment at the beginning of a text; one that is never closed goes
on to the end. -/
def commentLength? (t : Text) : Option Nat :=
  (Text.after? "<!--".toList t).map fun inside =>
    match Text.breakOn? "-->".toList inside with
    | some (_, rest) => t.length - rest.length
    | none => t.length

/-- The elements found from a place on; the first `skip` characters belong to what was found before. -/
def visitedFrom (skip offset line : Nat) : Text → List Placed
  | [] => []
  | c :: rest =>
    let onward (skip : Nat) := visitedFrom skip (offset + c.utf8Size) (if c = '\n' then line + 1 else line) rest
    match skip with
    | skip + 1 => onward skip
    | 0 =>
      if c = '<' then
        match commentLength? (c :: rest) with
        | some length => onward (length - 1)
        | none =>
          match Element.read? (c :: rest) with
          | some element => ⟨element, offset, line⟩ :: onward (element.source.length - 1)
          | none => onward 0
      else onward 0

/-- The top-level elements of a document. -/
def visited (document : Text) : List Placed := visitedFrom 0 0 1 document

/-- A block: its content with the byte range that it takes up. -/
structure Block where
  kind : BlockKind
  tag : Text
  content : Text
  span : Span
  line : Nat
  attributes : Attributes
deriving DecidableEq, Repr, Inhabited

namespace Block

def lang? (b : Block) : Option Text := b.attributes.get? "lang".toList

def src? (b : Block) : Option Text := b.attributes.get? "src".toList

end Block

namespace Placed

def kind (p : Placed) : BlockKind :=
  if equalsIgnoringCase p.element.tag templateName then .template
  else if equalsIgnoringCase p.element.tag "script".toList then
    if (p.element.attributes.get? "setup".toList).isSome then .scriptSetup else .script
  else if equalsIgnoringCase p.element.tag "style".toList then .style
  else .custom

def block (p : Placed) : Block :=
  let start := p.offset + p.element.opening.byteSize
  { kind := p.kind, tag := p.element.tag, content := p.element.content,
    span := ⟨start, start + p.element.content.byteSize⟩, line := p.line,
    attributes := p.element.attributes }

end Placed

structure Blocks where
  template : Option Block := none
  script : Option Block := none
  scriptSetup : Option Block := none
  styles : List Block := []
  custom : List Block := []
deriving DecidableEq, Repr, Inhabited

/-- The block that came second where only one may be. -/
structure DuplicateBlock where
  block : Block
deriving DecidableEq, Repr, Inhabited

namespace DuplicateBlock

def tag (d : DuplicateBlock) : String :=
  match d.block.kind with
  | .template => "template"
  | .script => "script"
  | .scriptSetup => "script setup"
  | .style => "style"
  | .custom => String.ofList d.block.tag

def message (d : DuplicateBlock) : String :=
  s!"SFC can only contain one <{d.tag}> block (line {d.block.line})"

end DuplicateBlock

namespace Blocks

def add (bs : Blocks) (b : Block) : Except DuplicateBlock Blocks :=
  match b.kind with
  | .template => if bs.template.isSome then .error ⟨b⟩ else .ok { bs with template := some b }
  | .script => if bs.script.isSome then .error ⟨b⟩ else .ok { bs with script := some b }
  | .scriptSetup => if bs.scriptSetup.isSome then .error ⟨b⟩ else .ok { bs with scriptSetup := some b }
  | .style => .ok { bs with styles := bs.styles ++ [b] }
  | .custom => .ok { bs with custom := bs.custom ++ [b] }

def addAll (bs : Blocks) : List Block → Except DuplicateBlock Blocks
  | [] => .ok bs
  | b :: rest =>
    match bs.add b with
    | .ok bs => addAll bs rest
    | .error d => .error d

end Blocks

def blocks (document : Text) : Except DuplicateBlock Blocks :=
  Blocks.addAll {} ((visited document).map Placed.block)

end ComponentLint.Component
