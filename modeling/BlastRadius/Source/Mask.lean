import BlastRadius.Source.Region
import BlastRadius.Text.Utf8

namespace BlastRadius.Source

/-!
# Masking

Masking replaces what is not to be read by spaces and moves nothing: every byte that goes is
replaced by one space, and newlines stay.

* `MaskMode` — whether the bodies of literals go as well as the comments.
* `maskBytes` — the bytes of the masked text.
* `mask` — the masked text.
-/

open Text

/-- What masking takes out of a text. -/
inductive MaskMode where
  /-- Comments and the bodies of literals. -/
  | literals
  /-- Comments only. -/
  | comments
deriving DecidableEq, Repr

/-- Whether the bytes of a region stay. -/
def MaskMode.keeps : MaskMode → Region → Bool
  | _, .code => true
  | _, .opening => true
  | _, .closing => true
  | _, .comment => false
  | .literals, .body => false
  | .comments, .body => true

/-- The byte of a space. -/
def space : UInt8 := 0x20

/-- A byte of a region after masking: itself, or a space. -/
def maskByte (mode : MaskMode) (b : UInt8) (region : Region) : UInt8 :=
  if b = newline ∨ mode.keeps region then b else space

/-- The bytes of a text with comments, or comments and the bodies of literals, replaced by
    spaces. -/
def maskBytes (mode : MaskMode) (bytes : List UInt8) : List UInt8 :=
  (classified bytes).map fun (b, region) => maskByte mode b region

/-- A text with comments, or comments and the bodies of literals, replaced by spaces. Should the
    bytes be no text, what can be read of them stands in for it. -/
def mask (mode : MaskMode) (s : List Char) : List Char :=
  let bytes := maskBytes mode (utf8 s)
  (decode? bytes).getD (decodeLossy bytes)

end BlastRadius.Source
