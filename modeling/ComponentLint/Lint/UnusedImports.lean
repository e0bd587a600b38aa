import ComponentLint.Lint.Rule
import ComponentLint.Text.Words

/-! Imports that nothing refers to. In a component, the markup around the script refers to an import by
mentioning its name. Each declaration with an unused import gets one fix. -/
namespace ComponentLint.UnusedImports

open TypeScript

/-- The document of a component in front of its script and behind it. -/
def markup (u : SourceUnit) : List Text :=
  match u.origin with
  | none => []
  | some o =>
    let stop := min (o.offset + u.text.byteSize) o.document.byteSize
    [Text.slice o.document ⟨0, o.offset⟩, Text.slice o.document ⟨stop, o.document.byteSize⟩]

/-- Whether a binding is referred to, by the names that the script uses or in the markup. -/
def isUsed (uses : List Text) (parts : List Text) (b : ImportBinding) : Bool :=
  uses.contains b.localName || parts.any (Text.mentions b.localName)

def isNamed (b : ImportBinding) : Bool :=
  match b.part with
  | .named _ => true
  | _ => false

/-- The bytes that go with a declaration when the rest of its line is blank: that rest and the line break. -/
def lineRest (after : Text) : Nat :=
  let rest := after.dropWhile fun c => c = ' ' || c = '\t'
  let blanks := Text.byteSize after - Text.byteSize rest
  if Text.startsWith rest ['\r', '\n'] then blanks + 2
  else if Text.startsWith rest ['\n'] then blanks + 1
  else 0

/-- Removes a declaration, and its line with it. -/
def removal (source : Text) (span : Span) : Fix :=
  let after := Text.slice source ⟨span.stop, source.byteSize⟩
  .single "Remove unused import declaration" ⟨span.start, span.stop + lineRest after⟩ []

/-- Where the names of a declaration start: at the first, or at the brace in front of it. -/
def clauseStart (source : Text) (first : ImportBinding) : Nat :=
  let start := first.span.start
  if isNamed first then ((Text.slice source ⟨0, start⟩).lastOffset? '\x7b').getD start else start

/-- Where the names of a declaration stop: behind the last, or behind the brace that follows it. -/
def clauseStop (source : Text) (last : ImportBinding) : Nat :=
  let stop := last.span.stop
  if isNamed last then
    stop + ((Text.slice source ⟨stop, source.byteSize⟩).offsetBehind? '\x7d').getD 0
  else stop

/-- The names of a declaration, written anew. -/
def clause (source : Text) (kept : List ImportBinding) : Text :=
  let written (bs : List ImportBinding) : List Text := bs.map fun b => Text.slice source b.span
  let plain := written (kept.filter fun b => !isNamed b)
  let named := written (kept.filter isNamed)
  let braced := if named = [] then [] else ["\x7b ".toList ++ Text.join ", ".toList named ++ " \x7d".toList]
  Text.join ", ".toList (plain ++ braced)

/-- Leaves the kept bindings of a declaration. -/
def reduction (source : Text) (first last : ImportBinding) (kept : List ImportBinding) : Fix :=
  .single "Remove unused imports" ⟨clauseStart source first, clauseStop source last⟩ (clause source kept)

def fix (source : Text) (d : ImportDeclaration) (kept : List ImportBinding) : Fix :=
  match kept, d.bindings.head?, d.bindings.getLast? with
  | _ :: _, some first, some last => reduction source first last kept
  | _, _, _ => removal source d.span

def message (b : ImportBinding) : String :=
  s!"'{String.ofList b.localName}' is declared but its value is never read."

/-- A remark for each unused binding, of which the first has the fix. -/
def remarksFor (fix : Fix) : List ImportBinding → List Remark
  | [] => []
  | first :: rest =>
    ⟨message first, first.localSpan, none, some fix⟩ :: rest.map fun b => ⟨message b, b.localSpan, none, none⟩

def remarks (source : Text) (used : ImportBinding → Bool) (d : ImportDeclaration) : List Remark :=
  let unused := d.bindings.filter fun b => !used b
  let kept := d.bindings.filter used
  if unused = [] then []
  else if kept = [] && 1 < d.bindings.length then
    [⟨"All imports in import declaration are unused.", d.span, none, some (fix source d kept)⟩]
  else remarksFor (fix source d kept) unused

def check (s : Subject) : List Remark :=
  let uses := s.script.outline.uses
  let parts := markup s.unit
  s.script.imports.flatMap (remarks s.source (isUsed uses parts))

def rule : Rule where
  name := "no-unused-imports"
  severity := .error
  check := check

end ComponentLint.UnusedImports
