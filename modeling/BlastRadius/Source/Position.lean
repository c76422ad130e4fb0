import BlastRadius.Source.Region
import BlastRadius.Text.Utf8

namespace BlastRadius.Source

/-!
# Positions in a source text

* `lineStarts` — the byte offsets at which the lines of a text start.
* `locate` — where a number stands in an ascending table, found by halving.
* `lineOf` — the line that a byte offset falls in.
* `literalBody?` — the body of the literal that opens at a byte offset.
-/

open Text

/-! ### Lines -/

/-- The offsets right behind the newlines among some bytes, the first of which stands at
    `offset`. -/
def startsFrom (offset : Nat) : List UInt8 → List Nat
  | [] => []
  | b :: bytes =>
    if b = newline then (offset + 1) :: startsFrom (offset + 1) bytes
      else startsFrom (offset + 1) bytes

/-- The byte offsets at which the lines of a text start. -/
def lineStarts (source : List Char) : Array Nat :=
  (0 :: startsFrom 0 (utf8 source)).toArray

/-- Where a number stands in an ascending table. -/
inductive Slot where
  /-- It is the entry at this index. -/
  | taken (index : Nat)
  /-- It is no entry, and would have to be put at this index. -/
  | vacant (index : Nat)
deriving DecidableEq, Repr

/-- The number of entries that are not greater than the number. -/
def Slot.passed : Slot → Nat
  | .taken index => index + 1
  | .vacant index => index

/-- Where `x` stands in an ascending table, if the entries in front of `low` are less and those from
    `high` on are greater. -/
def locateBetween (table : Array Nat) (x low high : Nat) (hhigh : high ≤ table.size) : Slot :=
  if hlow : low < high then
    let mid := low + (high - low) / 2
    if table[mid] < x then locateBetween table x (mid + 1) high hhigh
    else if x < table[mid] then locateBetween table x low mid (by omega)
    else .taken mid
  else .vacant low
termination_by high - low

/-- Where a number stands in an ascending table. -/
def locate (table : Array Nat) (x : Nat) : Slot :=
  locateBetween table x 0 table.size (Nat.le_refl _)

/-- The line that a byte offset falls in: the last one that does not start behind it. The first line
    is 1. -/
def lineOf (source : List Char) (offset : Nat) : Nat :=
  (locate (lineStarts source) offset).passed

/-- The number of lines of a text. -/
def lineCount (source : List Char) : Nat :=
  1 + source.count '\n'

/-! ### Literals -/

/-- The number of bytes before the one that closes a literal. Only a backquote may be followed by
    another line before it is closed. -/
def bodySize? (mark : UInt8) : List UInt8 → Option Nat
  | [] => none
  | b :: bytes =>
    if b = mark then some 0
    else if b = newline ∧ ¬spansLines mark then none
    else (bodySize? mark bytes).map (· + 1)

/-- The body of the literal whose opening mark is the byte of `masked` at `opening`. Masked text
    says where the literal ends, and the body is read at the same bytes of `source`. -/
def literalBody? (masked source : List Char) (opening : Nat) : Option (List Char) :=
  match (utf8 masked).drop opening with
  | [] => none
  | mark :: bytes => do
    let size ← bodySize? mark bytes
    slice? source (opening + 1) (opening + 1 + size)

end BlastRadius.Source
