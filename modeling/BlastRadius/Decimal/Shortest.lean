namespace BlastRadius.Decimal

/-!
# The shortest decimal of a double

Every double stands for the real numbers that round to it. Its shortest decimal is the one with the
fewest digits among those numbers, and of these the nearest to the double.

* `Binary` — a positive double as `significand * 2 ^ exponent`.
* `Window` — a positive double and the numbers that round to it, over one denominator.
* `shortest` — the fewest digits that lie in the window.
* `ofFloat` — the decimal text of a double.
-/

/-- A positive number `significand * 2 ^ exponent`. The gap below it is half as wide as the one
    above it when `narrowBelow`. -/
structure Binary where
  significand : Nat
  exponent : Int
  narrowBelow : Bool
deriving DecidableEq, Repr

/-- The number that the bits of a finite double hold, without its sign. -/
def Binary.ofBits (bits : UInt64) : Binary :=
  let fraction : Nat := bits.toNat % Nat.pow 2 52
  let field : Nat := bits.toNat / Nat.pow 2 52 % Nat.pow 2 11
  if field = 0 then { significand := fraction, exponent := -1074, narrowBelow := false }
  else {
    significand := fraction + Nat.pow 2 52
    exponent := (field : Int) - 1075
    narrowBelow := fraction = 0 ∧ field ≠ 1 }

/-- A positive number `value / unit`, with the bounds of what rounds to it. The bounds themselves
    round to it when `closed`. -/
structure Window where
  low : Nat
  value : Nat
  high : Nat
  unit : Nat
  closed : Bool

/-- The window of a double: up to the middle of the gaps to its neighbours. -/
def Binary.window (b : Binary) : Window :=
  let up := Nat.pow 2 (b.exponent - 2).toNat
  let scaled := 4 * b.significand
  {
    low := (scaled - if b.narrowBelow then 1 else 2) * up
    value := scaled * up
    high := (scaled + 2) * up
    unit := Nat.pow 2 (2 - b.exponent).toNat
    closed := b.significand % 2 = 0 }

/-- A decimal number `digits * 10 ^ exponent`. -/
structure Digits where
  digits : Nat
  exponent : Int
deriving DecidableEq, Repr

/-- The number of decimal digits. -/
def width (n : Nat) : Nat :=
  (Nat.toDigits 10 n).length

/-- The exponent of the first digit of `value / unit`. -/
def Window.magnitude (w : Window) : Int :=
  if w.unit ≤ w.value then (width (w.value / w.unit) : Int) - 1
  else
    let k := width (w.unit / w.value)
    if w.value * Nat.pow 10 (k - 1) = w.unit then 1 - (k : Int) else -(k : Int)

/-- Whether `d * 10 ^ exponent` lies in the window. -/
def Window.holds (w : Window) (d : Digits) : Bool :=
  let point := d.digits * Nat.pow 10 d.exponent.toNat * w.unit
  let scale := Nat.pow 10 (-d.exponent).toNat
  if w.closed then w.low * scale ≤ point && point ≤ w.high * scale
  else w.low * scale < point && point < w.high * scale

/-- The nearest decimal of `count` digits in the window, if there is one. Of two at the same
    distance the even one is taken. -/
def Window.nearest? (w : Window) (count : Nat) : Option Digits :=
  let exponent := w.magnitude - ((count : Int) - 1)
  let target := w.value * Nat.pow 10 (-exponent).toNat
  let grid := w.unit * Nat.pow 10 exponent.toNat
  let below : Digits := ⟨target / grid, exponent⟩
  let above : Digits := ⟨target / grid + 1, exponent⟩
  match w.holds below, w.holds above with
  | true, true =>
    let remainder := target % grid
    if 2 * remainder < grid ∨ (2 * remainder = grid ∧ below.digits % 2 = 0) then some below
    else some above
  | true, false => some below
  | false, true => some above
  | false, false => none

/-- The decimal with the fewest digits in the window. Seventeen digits always suffice. -/
def Window.shortest (w : Window) : Digits :=
  ((List.range 17).findSome? fun n => w.nearest? (n + 1)).getD ⟨0, 0⟩

/-- A decimal without the zeros at the end of its digits. -/
def Digits.trimmed (d : Digits) : Digits :=
  let text := Nat.toDigits 10 d.digits
  let zeros := (text.reverse.takeWhile (· == '0')).length
  if d.digits = 0 then d else ⟨d.digits / Nat.pow 10 zeros, d.exponent + zeros⟩

/-- Decimals with a first digit at most this many places before the point are written without
    exponent. -/
def positionalBefore : Int := 16

/-- Decimals with fewer than this many zeros behind the point, before the first digit, are written
    without exponent. -/
def positionalBehind : Int := 5

/-- The text of a decimal. It always has a fraction or an exponent. -/
def Digits.text (d : Digits) : List Char :=
  let text := Nat.toDigits 10 d.digits
  let point := (text.length : Int) + d.exponent
  if 0 ≤ d.exponent ∧ point ≤ positionalBefore then
    text ++ List.replicate d.exponent.toNat '0' ++ ['.', '0']
  else if 0 < point ∧ point ≤ positionalBefore then
    text.take point.toNat ++ '.' :: text.drop point.toNat
  else if -positionalBehind < point ∧ point ≤ 0 then
    '0' :: '.' :: List.replicate (-point).toNat '0' ++ text
  else
    let fraction := if text.length = 1 then [] else '.' :: text.drop 1
    text.take 1 ++ fraction ++ 'e' :: (toString (point - 1)).toList

/-- The decimal text of a finite double. -/
def ofFloat (x : Float) : List Char :=
  let bits := x.toBits
  let sign := if bits.toNat < Nat.pow 2 63 then [] else ['-']
  let magnitude := Binary.ofBits bits
  if magnitude.significand = 0 then sign ++ ['0', '.', '0']
  else sign ++ magnitude.window.shortest.trimmed.text

end BlastRadius.Decimal
