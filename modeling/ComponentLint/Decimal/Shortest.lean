/-! The fewest decimal digits that read back as a binary64 number, found with exact arithmetic, and
their layout: positional from ten to the minus five up to sixteen digits, else with an exponent. -/
namespace ComponentLint.Decimal

/-- A positive binary64 number `mantissa * 2 ^ (power - 1074)`. -/
structure Binary where
  mantissa : Nat
  power : Nat
deriving DecidableEq, Repr

namespace Binary

def ofFloat (x : Float) : Binary :=
  let bits := x.toBits.toNat
  let exponent := bits / Nat.pow 2 52 % Nat.pow 2 11
  let fraction := bits % Nat.pow 2 52
  if exponent = 0 then ⟨fraction, 0⟩ else ⟨fraction + Nat.pow 2 52, exponent - 1⟩

/-- Numerator and denominator of four times the number. -/
def quadruple (b : Binary) : Nat × Nat := (4 * b.mantissa * Nat.pow 2 b.power, Nat.pow 2 1074)

/-- Half the distance to the neighbour below, counted in quarters of the last place. -/
def below (b : Binary) : Nat := if b.mantissa = Nat.pow 2 52 ∧ 0 < b.power then 1 else 2

/-- Whether the fraction `n / d`, given as four times itself, reads back as the number. -/
def readsBack (b : Binary) (n d : Nat) : Bool :=
  let least := (4 * b.mantissa - b.below) * Nat.pow 2 b.power * d
  let greatest := (4 * b.mantissa + 2) * Nat.pow 2 b.power * d
  let n := n * Nat.pow 2 1074
  if b.mantissa % 2 = 0 then least ≤ n && n ≤ greatest else least < n && n < greatest

end Binary

/-- The least `k` with `n / d < 10 ^ (k - shift)`, from `k` on. -/
def magnitude (n d shift : Nat) : Nat → Nat → Nat
  | 0, k => k
  | fuel + 1, k => if n * Nat.pow 10 shift < d * Nat.pow 10 k then k else magnitude n d shift fuel (k + 1)

/-- Digits and the place of the decimal point before which all of them stand. -/
structure Digits where
  digits : Nat
  exponent : Int
deriving DecidableEq, Repr

def gridPoint? (b : Binary) (k : Int) (count : Nat) : Option Digits :=
  let (n, d) := b.quadruple
  let d := 4 * d
  let e := k - count
  let scaledN := if e < 0 then n * Nat.pow 10 e.natAbs else n
  let scaledD := if e < 0 then d else d * Nat.pow 10 e.natAbs
  let low := scaledN / scaledD
  let twice := 2 * (scaledN % scaledD)
  let value (m : Nat) : Nat × Nat := if e < 0 then (4 * m, Nat.pow 10 e.natAbs) else (4 * m * Nat.pow 10 e.natAbs, 1)
  let fits (m : Nat) : Bool := b.readsBack (value m).1 (value m).2
  let lowFits := fits low
  let highFits := fits (low + 1)
  if lowFits && highFits then
    some ⟨if twice < scaledD || (twice = scaledD && low % 2 = 0) then low else low + 1, e⟩
  else if lowFits then some ⟨low, e⟩
  else if highFits then some ⟨low + 1, e⟩
  else none

def shortestFrom (b : Binary) (k : Int) : Nat → Nat → Digits
  | 0, count => (gridPoint? b k count).getD ⟨0, 0⟩
  | fuel + 1, count =>
    match gridPoint? b k count with
    | some found => found
    | none => shortestFrom b k fuel (count + 1)

def shortest (b : Binary) : Digits :=
  let (n, d) := b.quadruple
  let k : Int := (magnitude n (4 * d) 330 700 0 : Nat) - (330 : Int)
  shortestFrom b k 17 1

def zeros (n : Nat) : String := String.ofList (List.replicate n '0')

/-- Lays out digits that end at a power of ten. -/
def layout (d : Digits) : String :=
  let text := toString d.digits
  let point := text.length + d.exponent
  if 0 ≤ d.exponent ∧ point ≤ 16 then text ++ zeros d.exponent.natAbs ++ ".0"
  else if 0 < point ∧ point ≤ 16 then
    String.ofList (text.toList.take point.toNat) ++ "." ++ String.ofList (text.toList.drop point.toNat)
  else if -5 < point ∧ point ≤ 0 then "0." ++ zeros point.natAbs ++ text
  else
    let exponent := "e" ++ toString (point - 1)
    if text.length = 1 then text ++ exponent
    else String.ofList (text.toList.take 1) ++ "." ++ String.ofList (text.toList.drop 1) ++ exponent

def strip : Nat → Digits → Digits
  | 0, d => d
  | fuel + 1, d => if d.digits % 10 = 0 ∧ 0 < d.digits then strip fuel ⟨d.digits / 10, d.exponent + 1⟩ else d

def render (x : Float) : String :=
  let sign := if x.toBits.toNat < Nat.pow 2 63 then "" else "-"
  let b := Binary.ofFloat x
  if b.mantissa = 0 then sign ++ "0.0" else sign ++ layout (strip 20 (shortest b))

end ComponentLint.Decimal
