import ComponentLint.Json.Value

/-! Readers of values of a given shape. A value of another shape is named in the fault; records may also
be written as lists of their fields in order. -/
namespace ComponentLint.Json.Reading

/-- Reads what stands ahead as far as the message about it needs, and fails. -/
def mismatch (expected : String) : Reading α := placed do
  match ← peek with
  | some '[' => failSomewhere (.mismatch .sequence expected)
  | some '\x7b' => failSomewhere (.mismatch .map expected)
  | some c =>
    match scalar? c with
    | none => failAhead .expectedValue
    | some reader =>
      match ← reader with
      | .null => failSomewhere (.mismatch .null expected)
      | .bool b => failSomewhere (.mismatch (.bool b) expected)
      | .number n => failSomewhere (.mismatch (.number n) expected)
      | .string s => failSomewhere (.mismatch (.string s) expected)
      | .list _ => failSomewhere (.mismatch .sequence expected)
      | .object _ => failSomewhere (.mismatch .map expected)
  | none => failAhead .expectedValue

/-- Reads with `reader` if the character ahead suits, else fails naming what was expected. -/
def expecting (suits : Char → Bool) (expected : String) (reader : Reading α) : Reading α := placed do
  match ← peekToken with
  | none => failAhead .endInValue
  | some c => if suits c then reader else mismatch expected

def text : Reading Text :=
  expecting (· = '"') "a string" do let _ ← next; string

def bool : Reading Bool :=
  expecting (fun c => c = 't' || c = 'f') "a boolean" do
    match ← next with
    | some 't' => literal "rue".toList; return true
    | _ => literal "alse".toList; return false

def optional (reader : Reading α) : Reading (Option α) := do
  match ← peekToken with
  | some 'n' =>
    let _ ← next
    literal "ull".toList
    return none
  | _ => return some (← reader)

def list (element : Reading α) : Reading (List α) :=
  expecting (· = '[') "a sequence" do
    let _ ← next
    closedBy (elements element) endList

def put (key : Text) (value : α) : List (Text × α) → List (Text × α)
  | [] => [(key, value)]
  | (k, v) :: rest => if k = key then (k, value) :: rest else (k, v) :: put key value rest

/-- A repeated key takes the later value in the place of the first. -/
def map (member : Reading α) : Reading (List (Text × α)) :=
  expecting (· = '\x7b') "a map" do
    let _ ← next
    let pairs ← closedBy (members member) endObject
    return pairs.foldl (fun table (k, v) => put k v table) []

/-- Reads any value and then decides; `nesting` containers are open around it. -/
def deciding (nesting : Nat) (type : String) (decide : Value → Option α) : Reading α := do
  match decide (← value (Value.depthLimit - nesting)) with
  | some a => return a
  | none => failSomewhere (.noVariant type)

/-- A field of a record: how its value changes the record, and whether a list form must have it. -/
structure Field (α : Type) where
  name : String
  required : Bool
  read : α → Reading α

/-- The fields of a record written as an object; `seen` have been read, and others are passed over. -/
def fieldsLoop (fields : List (Field α)) (first : Bool) (seen : List String) (a : α) : Nat → Reading α
  | 0 => return a
  | fuel + 1 => do
    if ← hasKey first then
      let name := String.ofList (← key)
      match fields.find? (·.name = name) with
      | some field =>
        if seen.contains name then failSomewhere (.duplicateField name)
        else
          colon
          fieldsLoop fields false (name :: seen) (← field.read a) fuel
      | none =>
        colon
        skip
        fieldsLoop fields false seen a fuel
    else return a

/-- The fields of a record written as a list; those at its end may be left out if not required. -/
def positional (expected : String) (first : Bool) (index : Nat) (a : α) : List (Field α) → Reading α
  | [] => return a
  | field :: rest => do
    if ← hasElement first then positional expected false (index + 1) (← field.read a) rest
    else if field.required then failSomewhere (.tooShort index expected)
    else positional expected first (index + 1) a rest

/-- A record, starting from its value without any field. -/
def record (name : String) (fields : List (Field α)) (a : α) : Reading α :=
  expecting (fun c => c = '\x7b' || c = '[') s!"struct {name}" do
    match ← next with
    | some '[' =>
      let count := fields.length
      let elements := if count = 1 then "1 element" else s!"{count} elements"
      closedBy (positional s!"struct {name} with {elements}" true 0 a fields) endList
    | _ => closedBy (do fieldsLoop fields true [] a (← room)) endObject

end ComponentLint.Json.Reading
