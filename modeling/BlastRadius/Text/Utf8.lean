namespace BlastRadius.Text

/-!
# Texts as bytes

Offsets into a text count the bytes of its UTF-8 form.

* `utf8`, `byteSize` — the bytes of a text and their number.
* `slice?` — the part of a text between two byte offsets, when both fall between characters.
* `decodeLossy` — the text that a byte sequence holds, with `U+FFFD` for every maximal broken part.
-/

/-- The UTF-8 form of a text. -/
def utf8 (s : List Char) : List UInt8 :=
  s.flatMap String.utf8EncodeChar

/-- The number of bytes in the UTF-8 form of a text. -/
def byteSize : List Char → Nat
  | [] => 0
  | c :: s => c.utf8Size + byteSize s

/-- `byteSize` counts the bytes of `utf8`. -/
theorem length_utf8 (s : List Char) : (utf8 s).length = byteSize s := by
  induction s with
  | nil => rfl
  | cons c s ih => simp [utf8, byteSize, ← ih]

/-- Byte sizes add up. -/
theorem byteSize_append (s t : List Char) : byteSize (s ++ t) = byteSize s + byteSize t := by
  induction s with
  | nil => simp [byteSize]
  | cons c s ih => simp [byteSize, ih, Nat.add_assoc]

/-- The text behind the first `n` bytes, when they end between two characters. -/
def dropBytes? : (n : Nat) → List Char → Option (List Char)
  | 0, s => some s
  | _ + 1, [] => none
  | n + 1, c :: s => if c.utf8Size ≤ n + 1 then dropBytes? (n + 1 - c.utf8Size) s else none

/-- The text of the first `n` bytes, when they end between two characters. -/
def takeBytes? : (n : Nat) → List Char → Option (List Char)
  | 0, _ => some []
  | _ + 1, [] => none
  | n + 1, c :: s =>
    if c.utf8Size ≤ n + 1 then (takeBytes? (n + 1 - c.utf8Size) s).map (c :: ·) else none

/-- The text between two byte offsets, when they are in order and fall between characters. -/
def slice? (s : List Char) (start stop : Nat) : Option (List Char) :=
  if start ≤ stop then (dropBytes? start s).bind (takeBytes? (stop - start)) else none

/-- The byte offset at which the final part `rest` of `s` starts. -/
def offsetOf (s rest : List Char) : Nat :=
  byteSize s - byteSize rest

/-- The final part of `front ++ rest` starts behind the bytes of `front`. -/
theorem offsetOf_append (front rest : List Char) :
    offsetOf (front ++ rest) rest = byteSize front := by
  simp [offsetOf, byteSize_append]

/-! ### Decoding -/

/-- What a first byte announces: the number of bytes that follow it, the bits that it holds, and the
    range that the second byte has to lie in. -/
structure LeadByte where
  followers : Nat
  bits : Nat
  low : UInt8
  high : UInt8

/-- The first bytes of characters beyond ASCII. The narrower ranges for the second byte keep out
    overlong forms, surrogates and numbers beyond the last code point. -/
def leadByte? (b : UInt8) : Option LeadByte :=
  let n := b.toNat
  if 0xc2 ≤ n ∧ n ≤ 0xdf then some ⟨1, n - 0xc0, 0x80, 0xbf⟩
  else if n = 0xe0 then some ⟨2, n - 0xe0, 0xa0, 0xbf⟩
  else if n = 0xed then some ⟨2, n - 0xe0, 0x80, 0x9f⟩
  else if 0xe1 ≤ n ∧ n ≤ 0xef then some ⟨2, n - 0xe0, 0x80, 0xbf⟩
  else if n = 0xf0 then some ⟨3, n - 0xf0, 0x90, 0xbf⟩
  else if 0xf1 ≤ n ∧ n ≤ 0xf3 then some ⟨3, n - 0xf0, 0x80, 0xbf⟩
  else if n = 0xf4 then some ⟨3, n - 0xf0, 0x80, 0x8f⟩
  else none

/-- What the decoder waits for inside a character: the bits so far, how many bytes are missing, and
    the range of the next one. -/
structure Pending where
  bits : Nat
  missing : Nat
  low : UInt8
  high : UInt8

/-- The replacement character. -/
def replacement : Char := Char.ofNat 0xfffd

/-- The start of a character at byte `b`: either decoded text, or text and what is pending. -/
def startByte (b : UInt8) : List Char × Option Pending :=
  if b < 0x80 then ([Char.ofNat b.toNat], none)
  else
    match leadByte? b with
    | some lead => ([], some ⟨lead.bits, lead.followers, lead.low, lead.high⟩)
    | none => ([replacement], none)

/-- One byte of input: the text that it settles and what is pending after it. A byte that cannot go
    on with the pending character breaks it off and starts afresh. -/
def decodeByte (pending : Option Pending) (b : UInt8) : List Char × Option Pending :=
  match pending with
  | none => startByte b
  | some p =>
    if p.low ≤ b ∧ b ≤ p.high then
      let bits := p.bits * 64 + (b.toNat - 0x80)
      if p.missing ≤ 1 then ([Char.ofNat bits], none)
      else ([], some ⟨bits, p.missing - 1, 0x80, 0xbf⟩)
    else
      let (text, next) := startByte b
      (replacement :: text, next)

/-- Decoding with a character pending. -/
def decodeFrom (pending : Option Pending) : List UInt8 → List Char
  | [] => if pending.isSome then [replacement] else []
  | b :: bytes =>
    let (text, next) := decodeByte pending b
    text ++ decodeFrom next bytes

/-- The text that a byte sequence holds, with `U+FFFD` for every maximal broken part. -/
def decodeLossy (bytes : List UInt8) : List Char :=
  decodeFrom none bytes

/-- The text of a byte sequence that is the UTF-8 form of one. -/
def decode? (bytes : List UInt8) : Option (List Char) :=
  let s := decodeLossy bytes
  if utf8 s = bytes then some s else none

end BlastRadius.Text
