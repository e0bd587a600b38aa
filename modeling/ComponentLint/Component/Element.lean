import ComponentLint.Text.Basic

/-! One top-level element of a component document: an opening tag, raw content, a closing tag. Only
the tags are read; content ends at the closing tag of the same name, and for a template at the one
that matches its nesting. Reading an element takes a beginning of the text and nothing else. -/
namespace ComponentLint.Component

def isTagBlank (c : Char) : Bool := c = ' ' || c = '\t' || c = '\n' || c = '\r'

def isTagNameChar (c : Char) : Bool := c.isAlphanum || c = '-' || c = '_'

/-- Whether a text begins with a word, the case of ASCII letters left aside. -/
def startsWithIgnoringCase : Text → Text → Bool
  | [], _ => true
  | _ :: _, [] => false
  | w :: word, c :: t => w.toLower = c.toLower && startsWithIgnoringCase word t

def equalsIgnoringCase (a b : Text) : Bool := a.map Char.toLower = b.map Char.toLower

abbrev Attributes := List (Text × Text)

namespace Attributes

/-- A repeated name takes the later value in the place of the first. -/
def set (name value : Text) : Attributes → Attributes
  | [] => [(name, value)]
  | (n, v) :: rest => if n = name then (n, value) :: rest else (n, v) :: set name value rest

def get? (name : Text) (as : Attributes) : Option Text := as.lookup name

end Attributes

/-- Where the reader of a tag stands behind the tag's name. -/
inductive TagState where
  | between
  | name (read : Text)
  | named (name : Text)
  | valued (name : Text)
  | quoted (name : Text) (mark : Char) (read : Text)
  | bare (name : Text) (read : Text)
deriving DecidableEq, Repr

inductive TagStep where
  | more (state : TagState) (attributes : Attributes)
  | closed (attributes : Attributes)
  /-- The tag ends in a slash; its bracket is still to come. -/
  | selfClosed (attributes : Attributes)
deriving DecidableEq, Repr

namespace TagState

/-- A character that belongs to no attribute: it ends the tag, separates, or begins a name. A slash
closes the tag only right before the bracket. -/
def apart (as : Attributes) (c : Char) (next : Option Char) : TagStep :=
  if c = '>' then .closed as
  else if c = '/' then if next = some '>' then .selfClosed as else .more .between as
  else if isTagBlank c || c = '=' then .more .between as
  else .more (.name [c]) as

def afterName (as : Attributes) (name : Text) (c : Char) (next : Option Char) : TagStep :=
  if c = ' ' || c = '\t' then .more (.named name) as
  else if c = '=' then .more (.valued name) as
  else apart (as.set name []) c next

def inBare (as : Attributes) (name read : Text) (c : Char) (next : Option Char) : TagStep :=
  if isTagBlank c || c = '>' then apart (as.set name read) c next
  else .more (.bare name (read ++ [c])) as

def step (as : Attributes) (c : Char) (next : Option Char) : TagState → TagStep
  | between => apart as c next
  | name read =>
    if c = '=' || c = '>' || c = '/' || isTagBlank c then afterName as read c next
    else .more (.name (read ++ [c])) as
  | named n => afterName as n c next
  | valued n =>
    if c = ' ' || c = '\t' then .more (.valued n) as
    else if c = '"' || c = '\'' then .more (.quoted n c []) as
    else inBare as n [] c next
  | quoted n mark read =>
    if c = mark then .more .between (as.set n read) else .more (.quoted n mark (read ++ [c])) as
  | bare n read => inBare as n read c next

end TagState

/-- Reads the rest of an opening tag: its attributes, whether it closes itself, and what follows. -/
def readTag (state : TagState) (as : Attributes) : Text → Option (Attributes × Bool × Text)
  | [] => none
  | c :: rest =>
    match state.step as c rest.head? with
    | .more state as => readTag state as rest
    | .closed as => some (as, false, rest)
    | .selfClosed as => some (as, true, rest.drop 1)

def closingTag (name : Text) : Text := "</".toList ++ name ++ ['>']

/-- Cuts raw content from the first closing tag on. -/
def rawContent? (closing : Text) : Text → Option (Text × Text)
  | [] => none
  | c :: rest =>
    if startsWithIgnoringCase closing (c :: rest) then some ([], c :: rest)
    else (rawContent? closing rest).map fun (content, from_) => (c :: content, from_)

def templateName : Text := "template".toList

def opensTemplate (t : Text) : Bool :=
  startsWithIgnoringCase ('<' :: templateName) t &&
    ((t.drop (templateName.length + 1)).head?).any fun c => c = '>' || isTagBlank c

/-- Cuts template content from its closing tag on. `depth` templates are open inside it; `nested` is
set within the opening tag of another one and says whether the last character was a slash. -/
def templateContent? (depth : Nat) (nested : Option Bool) : Text → Option (Text × Text)
  | [] => none
  | c :: rest =>
    let through (found : Option (Text × Text)) := found.map fun (content, from_) => (c :: content, from_)
    match nested with
    | some slash =>
      if c = '>' then through (templateContent? (if slash then depth else depth + 1) none rest)
      else through (templateContent? depth (some (c = '/')) rest)
    | none =>
      if startsWithIgnoringCase (closingTag templateName) (c :: rest) then
        match depth with
        | 0 => some ([], c :: rest)
        | depth + 1 => through (templateContent? depth none rest)
      else if opensTemplate (c :: rest) then through (templateContent? depth (some false) rest)
      else through (templateContent? depth none rest)

def content? (tag : Text) (t : Text) : Option (Text × Text) :=
  if equalsIgnoringCase tag templateName then templateContent? 0 none t
  else rawContent? (closingTag tag) t

/-- An element in three pieces of the document: the tags with their brackets and what is between. -/
structure Element where
  tag : Text
  attributes : Attributes
  selfClosing : Bool
  opening : Text
  content : Text
  closing : Text
deriving DecidableEq, Repr, Inhabited

namespace Element

def source (e : Element) : Text := e.opening ++ e.content ++ e.closing

/-- Reads the element at the beginning of a text; none where no tag begins or nothing closes it. -/
def read? : Text → Option Element
  | '<' :: t => do
    let tag := t.takeWhile isTagNameChar
    if tag = [] then none
    else
      let (attributes, selfClosing, behind) ← readTag .between [] (t.dropWhile isTagNameChar)
      let opening := ('<' :: t).take (t.length + 1 - behind.length)
      if selfClosing then return ⟨tag, attributes, true, opening, [], []⟩
      else
        let (content, from_) ← content? tag behind
        return ⟨tag, attributes, false, opening, content, from_.take (tag.length + 3)⟩
  | _ => none

end Element

end ComponentLint.Component
