namespace BlastRadius.Digest

/-!
# Words of 64 bits

* `turn` — a word rotated by two bits.
* `mixLengths` — one word for a list of lengths.
* `littleEndian` — the bytes of a word.
-/

/-- A word rotated to the right by two bits. -/
def turn (w : UInt64) : UInt64 :=
  (w >>> 2) ||| (w <<< 62)

/-- One word for a list of lengths. Different lists may have the same word. -/
def mixLengths (lengths : List Nat) : UInt64 :=
  lengths.foldl (fun w n => turn (w + n.toUInt64)) 0

/-- The eight bytes of a word, the lowest first. -/
def littleEndian (w : UInt64) : List UInt8 :=
  [w, w >>> 8, w >>> 16, w >>> 24, w >>> 32, w >>> 40, w >>> 48, w >>> 56].map UInt64.toUInt8

end BlastRadius.Digest
