import BlastRadius.Decimal.Shortest

namespace BlastRadius.Json

/-!
# Numbers in JSON texts

* `Number` — an integer, or a double.
* `Numeral` — a number as it is written.
* `numeral?` — reads a numeral from the beginning of a text.
* `Numeral.value?` — the number that a numeral stands for, unless it is too large for a double.
-/

/-- A number: an integer of 64 bits, or a double. -/
inductive Number where
  | int (value : Int)
  | real (value : Float)
deriving Repr

/-- The text of a number. -/
def Number.text : Number → List Char
  | .int value => (toString value).toList
  | .real value => Decimal.ofFloat value

/-- The value of a decimal digit. -/
def digit? (c : Char) : Option Nat :=
  if c.isDigit then some (c.toNat - '0'.toNat) else none

/-- An exponent as it is written: its sign and its digits. -/
structure Exponent where
  isNegative : Bool
  digits : List Nat
deriving DecidableEq, Repr

/-- A number as it is written: sign, digits before the point, digits behind it, and exponent. -/
structure Numeral where
  isNegative : Bool
  whole : List Nat
  fraction : Option (List Nat)
  exponent : Option Exponent
deriving DecidableEq, Repr

/-! ### Reading -/

/-- The digits at the beginning of a text, and what follows them. -/
def digits : List Char → List Nat × List Char
  | [] => ([], [])
  | c :: s =>
    match digit? c with
    | some d => let (ds, rest) := digits s; (d :: ds, rest)
    | none => ([], c :: s)

/-- At least one digit at the beginning of a text. -/
def digits1? (s : List Char) : Option (List Nat × List Char) :=
  match digits s with
  | ([], _) => none
  | found => some found

/-- The digits before the point. A leading zero stands alone. -/
def whole? (s : List Char) : Option (List Nat × List Char) := do
  let (ds, rest) ← digits1? s
  if ds.head? = some 0 ∧ ds.length ≠ 1 then none else some (ds, rest)

/-- A point with digits behind it, if there is a point. -/
def fraction? : List Char → Option (Option (List Nat) × List Char)
  | '.' :: s => do
    let (ds, rest) ← digits1? s
    return (some ds, rest)
  | s => some (none, s)

/-- The sign of an exponent, if there is one. -/
def exponentSign : List Char → Bool × List Char
  | '-' :: s => (true, s)
  | '+' :: s => (false, s)
  | s => (false, s)

/-- The mark of an exponent with what belongs to it, if there is a mark. -/
def exponent? : List Char → Option (Option Exponent × List Char)
  | [] => some (none, [])
  | c :: s =>
    if c = 'e' ∨ c = 'E' then do
      let (isNegative, s) := exponentSign s
      let (digits, rest) ← digits1? s
      return (some { isNegative, digits }, rest)
    else some (none, c :: s)

/-- A numeral at the beginning of a text, and what follows it. -/
def numeral? (s : List Char) : Option (Numeral × List Char) := do
  let (isNegative, s) := match s with
    | '-' :: s => (true, s)
    | s => (false, s)
  let (whole, s) ← whole? s
  let (fraction, s) ← fraction? s
  let (exponent, s) ← exponent? s
  return ({ isNegative, whole, fraction, exponent }, s)

/-! ### The value of a numeral -/

/-- The bound of the significand: it has 64 bits. -/
def significandBound : Nat := Nat.pow 2 64

/-- Appends digits to a significand as long as it stays below its bound. Yields the significand and
    the number of digits that are left over. -/
def appendDigits (significand : Nat) : List Nat → Nat × Nat
  | [] => (significand, 0)
  | d :: ds =>
    if significand * 10 + d < significandBound then appendDigits (significand * 10 + d) ds
    else (significand, ds.length + 1)

/-- The power of ten as a double. -/
def powerOfTen (n : Nat) : Float :=
  Float.ofScientific 1 false n

/-- The largest power of ten that a double can hold. -/
def maxPower : Nat := 308

/-- `x / 10 ^ n`, in steps that a double can hold. -/
def divideByPower (x : Float) (n : Nat) : Float :=
  if n ≤ maxPower then x / powerOfTen n
  else if x == 0 then x
  else divideByPower (x / powerOfTen maxPower) (n - maxPower)
termination_by n
decreasing_by simp [maxPower] at *; omega

/-- `significand * 10 ^ exponent` as a double, unless it is too large for one. -/
def scale? (significand : Nat) (exponent : Int) : Option Float :=
  let x := significand.toUInt64.toFloat
  if exponent < 0 then some (divideByPower x (-exponent).toNat)
  else if exponent.toNat ≤ maxPower then
    let scaled := x * powerOfTen exponent.toNat
    if scaled.isInf then none else some scaled
  else if significand = 0 then some x
  else none

/-- The bound of exponents: they have 32 bits, one of them for the sign. -/
def exponentBound : Nat := Nat.pow 2 31

/-- The number that digits stand for. -/
def ofDigits (ds : List Nat) : Nat :=
  ds.foldl (fun n d => n * 10 + d) 0

/-- The value of a significand with a written exponent on top of `base`. An exponent beyond its
    bound gives zero, or a number that is too large. -/
def withExponent? (significand : Nat) (base : Int) : Option Exponent → Option Float
  | none => scale? significand base
  | some e =>
    let written := ofDigits e.digits
    if exponentBound ≤ written then
      if significand ≠ 0 ∧ ¬e.isNegative then none else some 0
    else scale? significand (if e.isNegative then base - written else base + written)

/-- The magnitude of a numeral as a double. Digits that the significand has no room for are
    dropped. -/
def Numeral.magnitude? (n : Numeral) : Option Float :=
  let (significand, skipped) := appendDigits 0 n.whole
  match n.fraction with
  | none => withExponent? significand skipped n.exponent
  | some ds =>
    let (extended, dropped) := appendDigits significand ds
    withExponent? extended ((skipped : Int) - ((ds.length : Int) - dropped)) n.exponent

/-- The integer that a numeral without fraction and exponent stands for, if it has 64 bits. Minus
    zero is not an integer. -/
def Numeral.int? (n : Numeral) : Option Int :=
  let value := ofDigits n.whole
  if n.fraction.isSome ∨ n.exponent.isSome then none
  else if n.isNegative then
    if 0 < value ∧ value ≤ Nat.pow 2 63 then some (-value) else none
  else if value < Nat.pow 2 64 then some value
  else none

/-- The number that a numeral stands for, unless it is too large for a double. -/
def Numeral.value? (n : Numeral) : Option Number :=
  match n.int? with
  | some value => some (.int value)
  | none => n.magnitude?.map fun x => .real (if n.isNegative then -x else x)

end BlastRadius.Json
