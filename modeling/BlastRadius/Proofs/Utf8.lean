import BlastRadius.Text.Utf8
import Mathlib.Data.List.Basic

namespace BlastRadius.Text

/-!
# Texts and their bytes

* `decodeLossy_utf8`, `decode?_utf8` — a text is read back from its bytes.
* `utf8EncodeChar_of_ascii`, `le_of_mem_utf8EncodeChar` — the bytes below 128 are the ASCII
  characters.
* `exists_append_of_utf8` — a text can be cut at any of them.
* `utf8_slice?`, `exists_slice?` — a slice of a text has the bytes between its ends, and between two
  bytes of ASCII there is one.
-/

/-- The empty text has no bytes. -/
theorem utf8_nil : utf8 [] = [] := rfl

/-- The bytes of the first character come first. -/
theorem utf8_cons (c : Char) (s : List Char) :
    utf8 (c :: s) = String.utf8EncodeChar c ++ utf8 s := rfl

/-- The bytes of two texts follow each other. -/
theorem utf8_append (s t : List Char) : utf8 (s ++ t) = utf8 s ++ utf8 t :=
  List.flatMap_append

/-! ### Decoding -/

/-- A byte of ASCII is a character. -/
theorem decodeFrom_ascii {b : UInt8} (h : b < 0x80) (bytes : List UInt8) :
    decodeFrom none (b :: bytes) = Char.ofNat b.toNat :: decodeFrom none bytes := by
  rw [decodeFrom]
  simp only [decodeByte, startByte, if_pos h]
  rfl

/-- A lead byte says how many follow. -/
theorem decodeFrom_lead {b : UInt8} (h : ¬b < 0x80) {lead : LeadByte}
    (hlead : leadByte? b = some lead) (bytes : List UInt8) :
    decodeFrom none (b :: bytes)
      = decodeFrom (some ⟨lead.bits, lead.followers, lead.low, lead.high⟩) bytes := by
  rw [decodeFrom]
  simp only [decodeByte, startByte, if_neg h, hlead]
  rfl

/-- A follower adds six bits. -/
theorem decodeFrom_next {p : Pending} {b : UInt8} (h : p.low ≤ b ∧ b ≤ p.high)
    (hmissing : 1 < p.missing) (bytes : List UInt8) :
    decodeFrom (some p) (b :: bytes)
      = decodeFrom (some ⟨p.bits * 64 + (b.toNat - 0x80), p.missing - 1, 0x80, 0xbf⟩) bytes := by
  rw [decodeFrom]
  simp only [decodeByte, if_pos h, if_neg (Nat.not_le.2 hmissing)]
  rfl

/-- The last follower completes the character. -/
theorem decodeFrom_last {p : Pending} {b : UInt8} (h : p.low ≤ b ∧ b ≤ p.high)
    (hmissing : p.missing ≤ 1) (bytes : List UInt8) :
    decodeFrom (some p) (b :: bytes)
      = Char.ofNat (p.bits * 64 + (b.toNat - 0x80)) :: decodeFrom none bytes := by
  rw [decodeFrom]
  simp only [decodeByte, if_pos h, if_pos hmissing]
  rfl

section
variable {n : Nat}

/-- A byte has the value that it was made of. -/
theorem toNat_byte (h : n < 256) : (UInt8.ofNat n).toNat = n :=
  UInt8.toNat_ofNat_of_lt' h

/-- The lead bytes of two. -/
theorem leadByte?_two (h : 0xc2 ≤ n) (h' : n ≤ 0xdf) :
    leadByte? (UInt8.ofNat n) = some ⟨1, n - 0xc0, 0x80, 0xbf⟩ := by
  unfold leadByte?
  rw [toNat_byte (by omega)]
  dsimp only
  rw [if_pos ⟨h, h'⟩]

/-- The lead bytes of three. -/
theorem leadByte?_three (h : 0xe0 ≤ n) (h' : n ≤ 0xef) :
    leadByte? (UInt8.ofNat n)
      = some ⟨2, n - 0xe0, if n = 0xe0 then 0xa0 else 0x80, if n = 0xed then 0x9f else 0xbf⟩ := by
  unfold leadByte?
  rw [toNat_byte (by omega)]
  dsimp only
  rw [if_neg (by omega)]
  by_cases hlow : n = 0xe0
  · simp [hlow]
  · by_cases hhigh : n = 0xed
    · simp [hhigh]
    · rw [if_neg hlow, if_neg hhigh, if_pos (by omega), if_neg hlow, if_neg hhigh]

/-- The lead bytes of four. -/
theorem leadByte?_four (h : 0xf0 ≤ n) (h' : n ≤ 0xf4) :
    leadByte? (UInt8.ofNat n)
      = some ⟨3, n - 0xf0, if n = 0xf0 then 0x90 else 0x80, if n = 0xf4 then 0x8f else 0xbf⟩ := by
  unfold leadByte?
  rw [toNat_byte (by omega)]
  dsimp only
  rw [if_neg (by omega), if_neg (by omega), if_neg (by omega), if_neg (by omega)]
  by_cases hlow : n = 0xf0
  · simp [hlow]
  · by_cases hhigh : n = 0xf4
    · simp [hhigh]
    · rw [if_neg hlow, if_pos (by omega), if_neg hlow, if_neg hhigh]

/-- Bytes from 128 on are not ASCII. -/
theorem not_ascii_byte (h : 0x80 ≤ n) (h' : n < 256) : ¬UInt8.ofNat n < 0x80 := by
  rw [UInt8.lt_iff_toNat_lt, toNat_byte h']
  exact Nat.not_lt.2 h

/-- A range of bytes, said with their values. -/
theorem inRange_byte {low high : UInt8} (h : low.toNat ≤ n) (h' : n ≤ high.toNat) :
    low ≤ UInt8.ofNat n ∧ UInt8.ofNat n ≤ high := by
  have hlt : n < 256 := Nat.lt_of_le_of_lt h' high.toNat_lt
  rw [UInt8.le_iff_toNat_le, UInt8.le_iff_toNat_le, toNat_byte hlt]
  exact ⟨h, h'⟩

end

/-! A character of two, three or four bytes is read back if the bytes, taken as numbers, are in
range and make it up. -/

section
variable {n₁ n₂ n₃ n₄ : Nat} {c : Char}

/-- Two bytes of a character are decoded to it. -/
theorem decodeFrom_two (h₁ : 0xc2 ≤ n₁ ∧ n₁ ≤ 0xdf) (h₂ : 0x80 ≤ n₂ ∧ n₂ ≤ 0xbf)
    (hbits : (n₁ - 0xc0) * 64 + (n₂ - 0x80) = c.val.toNat) (bytes : List UInt8) :
    decodeFrom none (UInt8.ofNat n₁ :: UInt8.ofNat n₂ :: bytes) = c :: decodeFrom none bytes := by
  rw [decodeFrom_lead (not_ascii_byte (by omega) (by omega)) (leadByte?_two h₁.1 h₁.2),
    decodeFrom_last (inRange_byte h₂.1 h₂.2) (Nat.le_refl _), toNat_byte (by omega), hbits]
  exact congrArg (· :: _) (Char.ofNat_toNat c)

/-- The second byte is narrowed after `e0`, where the form would be too long, and after `ed`, where
    it would be a surrogate. -/
theorem decodeFrom_three (h₁ : 0xe0 ≤ n₁ ∧ n₁ ≤ 0xef) (h₂ : 0x80 ≤ n₂ ∧ n₂ ≤ 0xbf)
    (hlow : n₁ = 0xe0 → 0xa0 ≤ n₂) (hhigh : n₁ = 0xed → n₂ ≤ 0x9f) (h₃ : 0x80 ≤ n₃ ∧ n₃ ≤ 0xbf)
    (hbits : ((n₁ - 0xe0) * 64 + (n₂ - 0x80)) * 64 + (n₃ - 0x80) = c.val.toNat)
    (bytes : List UInt8) :
    decodeFrom none (UInt8.ofNat n₁ :: UInt8.ofNat n₂ :: UInt8.ofNat n₃ :: bytes)
      = c :: decodeFrom none bytes := by
  have hrange : (if n₁ = 0xe0 then 0xa0 else 0x80 : UInt8) ≤ UInt8.ofNat n₂ ∧
      UInt8.ofNat n₂ ≤ (if n₁ = 0xed then 0x9f else 0xbf : UInt8) := by
    refine inRange_byte ?_ ?_
    · split
      · next h => exact hlow h
      · exact h₂.1
    · split
      · next h => exact hhigh h
      · exact h₂.2
  rw [decodeFrom_lead (not_ascii_byte (by omega) (by omega)) (leadByte?_three h₁.1 h₁.2),
    decodeFrom_next hrange (Nat.lt_succ_self 1),
    decodeFrom_last (inRange_byte h₃.1 h₃.2) (Nat.le_refl _), toNat_byte (by omega),
    toNat_byte (by omega), hbits]
  exact congrArg (· :: _) (Char.ofNat_toNat c)

/-- The second byte is narrowed after `f0`, where the form would be too long, and after `f4`, where
    it would be beyond the last character. -/
theorem decodeFrom_four (h₁ : 0xf0 ≤ n₁ ∧ n₁ ≤ 0xf4) (h₂ : 0x80 ≤ n₂ ∧ n₂ ≤ 0xbf)
    (hlow : n₁ = 0xf0 → 0x90 ≤ n₂) (hhigh : n₁ = 0xf4 → n₂ ≤ 0x8f) (h₃ : 0x80 ≤ n₃ ∧ n₃ ≤ 0xbf)
    (h₄ : 0x80 ≤ n₄ ∧ n₄ ≤ 0xbf)
    (hbits : (((n₁ - 0xf0) * 64 + (n₂ - 0x80)) * 64 + (n₃ - 0x80)) * 64 + (n₄ - 0x80) = c.val.toNat)
    (bytes : List UInt8) :
    decodeFrom none (UInt8.ofNat n₁ :: UInt8.ofNat n₂ :: UInt8.ofNat n₃ :: UInt8.ofNat n₄ :: bytes)
      = c :: decodeFrom none bytes := by
  -- The first follower is bounded more narrowly behind the first and the last lead byte.
  have hrange : (if n₁ = 0xf0 then 0x90 else 0x80 : UInt8) ≤ UInt8.ofNat n₂ ∧
      UInt8.ofNat n₂ ≤ (if n₁ = 0xf4 then 0x8f else 0xbf : UInt8) := by
    refine inRange_byte ?_ ?_
    · split
      · next h => exact hlow h
      · exact h₂.1
    · split
      · next h => exact hhigh h
      · exact h₂.2
  rw [decodeFrom_lead (not_ascii_byte (by omega) (by omega)) (leadByte?_four h₁.1 h₁.2),
    decodeFrom_next hrange (Nat.lt_of_sub_eq_succ rfl),
    decodeFrom_next (inRange_byte h₃.1 h₃.2) (Nat.lt_succ_self 1),
    decodeFrom_last (inRange_byte h₄.1 h₄.2) (Nat.le_refl _), toNat_byte (by omega),
    toNat_byte (by omega), toNat_byte (by omega), hbits]
  exact congrArg (· :: _) (Char.ofNat_toNat c)

end

/-- A character is read back from its bytes, whatever follows them. -/
theorem decodeFrom_utf8EncodeChar (c : Char) (bytes : List UInt8) :
    decodeFrom none (String.utf8EncodeChar c ++ bytes) = c :: decodeFrom none bytes := by
  -- Without surrogates, three bytes never fall into the range that their lead byte excludes.
  have hvalid : c.val.toNat < 0xd800 ∨ 0xdfff < c.val.toNat ∧ c.val.toNat < 0x110000 := c.valid
  unfold String.utf8EncodeChar
  dsimp only
  split
  · next h₁ =>
    have hlt : UInt8.ofNat c.val.toNat < 0x80 := by
      rw [UInt8.lt_iff_toNat_lt, toNat_byte (by omega)]
      exact Nat.lt_succ_of_le h₁
    rw [List.singleton_append, decodeFrom_ascii hlt, toNat_byte (by omega)]
    exact congrArg (· :: _) (Char.ofNat_toNat c)
  split
  · next h₁ h₂ => exact decodeFrom_two (by omega) (by omega) (by omega) bytes
  split
  · next h₁ h₂ h₃ =>
    exact decodeFrom_three (by omega) (by omega) (by omega) (by omega) (by omega) (by omega) bytes
  · next h₁ h₂ h₃ =>
    exact decodeFrom_four (by omega) (by omega) (by omega) (by omega) (by omega) (by omega)
      (by omega) bytes

/-- A text is read back from its bytes. -/
theorem decodeLossy_utf8 (s : List Char) : decodeLossy (utf8 s) = s := by
  unfold decodeLossy
  induction s with
  | nil => rfl
  | cons c s ih => rw [utf8_cons, decodeFrom_utf8EncodeChar, ih]

/-- Encoding and decoding gives the text back. -/
theorem decode?_utf8 (s : List Char) : decode? (utf8 s) = some s := by
  rw [decode?, decodeLossy_utf8]
  exact if_pos rfl

/-- Different texts have different bytes. -/
theorem utf8_injective : Function.Injective utf8 := by
  intro s t h
  have hdecode := decode?_utf8 s
  rw [h, decode?_utf8, Option.some_inj] at hdecode
  exact hdecode.symm

/-! ### ASCII -/

/-- A character of ASCII has one byte. -/
theorem utf8EncodeChar_of_ascii {c : Char} (h : c.toNat < 0x80) :
    String.utf8EncodeChar c = [UInt8.ofNat c.toNat] := by
  unfold String.utf8EncodeChar
  exact if_pos (Nat.le_of_lt_succ h)

/-- The bytes of a character beyond ASCII are all beyond ASCII. -/
theorem le_of_mem_utf8EncodeChar {c : Char} (h : 0x80 ≤ c.toNat) {b : UInt8}
    (hb : b ∈ String.utf8EncodeChar c) : 0x80 ≤ b := by
  have hbyte : ∀ n, 0x80 ≤ n → n < 256 → 0x80 ≤ UInt8.ofNat n := by
    intro n hn hlt
    rw [UInt8.le_iff_toNat_le, toNat_byte hlt]
    exact hn
  have hv : 0x80 ≤ c.val.toNat := h
  unfold String.utf8EncodeChar at hb
  generalize c.val.toNat = v at *
  dsimp only at hb
  rw [if_neg (by omega)] at hb
  -- Two, three or four bytes, each of them with its highest bit set.
  split at hb
  · simp only [List.mem_cons, List.not_mem_nil, or_false] at hb
    rcases hb with rfl | rfl <;> exact hbyte _ (by omega) (by omega)
  split at hb
  · simp only [List.mem_cons, List.not_mem_nil, or_false] at hb
    rcases hb with rfl | rfl | rfl <;> exact hbyte _ (by omega) (by omega)
  · simp only [List.mem_cons, List.not_mem_nil, or_false] at hb
    rcases hb with rfl | rfl | rfl | rfl <;> exact hbyte _ (by omega) (by omega)

/-- A byte of ASCII stands for itself only. -/
theorem eq_of_mem_utf8EncodeChar {c : Char} {b : UInt8} (hb : b ∈ String.utf8EncodeChar c)
    (h : b < 0x80) : c = Char.ofNat b.toNat := by
  by_cases hc : c.toNat < 0x80
  · rw [utf8EncodeChar_of_ascii hc, List.mem_singleton] at hb
    rw [hb, toNat_byte (by omega), Char.ofNat_toNat]
  · exact absurd h (UInt8.not_lt.2 (le_of_mem_utf8EncodeChar (Nat.not_lt.1 hc) hb))

/-- A byte of ASCII is a character of its own, and what stands before and behind it is text. -/
theorem exists_append_of_utf8 {s : List Char} {front rest : List UInt8} {b : UInt8} (hb : b < 0x80)
    (h : utf8 s = front ++ b :: rest) :
    ∃ before c after, s = before ++ c :: after ∧ utf8 before = front ∧ utf8 [c] = [b] ∧
      utf8 after = rest := by
  induction s generalizing front with
  | nil => simp [utf8_nil] at h
  | cons c s ih =>
    rw [utf8_cons] at h
    -- The byte comes behind the first character, or it is one of its bytes and then the only one.
    rcases List.append_eq_append_iff.1 h with ⟨more, rfl, hmore⟩ | ⟨more, hc, hmore⟩
    · obtain ⟨before, d, after, rfl, rfl, hd, rfl⟩ := ih hmore
      exact ⟨c :: before, d, after, rfl, rfl, hd, rfl⟩
    · cases more with
      | nil =>
        obtain ⟨before, d, after, rfl, hbefore, hd, rfl⟩ := @ih [] hmore.symm
        refine ⟨c :: before, d, after, rfl, ?_, hd, rfl⟩
        rw [utf8_cons, hbefore, hc, List.append_nil, List.append_nil]
      | cons b' more =>
        obtain ⟨rfl, rfl⟩ := List.cons.inj hmore
        have hmem : b ∈ String.utf8EncodeChar c := by simp [hc]
        have hascii : c.toNat < 0x80 := by
          by_contra hbeyond
          exact UInt8.not_lt.2 (le_of_mem_utf8EncodeChar (Nat.not_lt.1 hbeyond) hmem) hb
        rw [utf8EncodeChar_of_ascii hascii] at hc
        obtain ⟨rfl, rfl, rfl⟩ : front = [] ∧ b = UInt8.ofNat c.toNat ∧ more = [] := by
          cases front with
          | nil => simpa [eq_comm] using hc
          | cons b'' front => simp at hc
        refine ⟨[], c, s, rfl, rfl, ?_, rfl⟩
        rw [utf8_cons, utf8_nil, utf8EncodeChar_of_ascii hascii, List.append_nil]

/-! ### Slices -/

/-- Dropping bytes of a text drops them from its encoding. -/
theorem utf8_dropBytes? {n : Nat} {s rest : List Char} (h : dropBytes? n s = some rest) :
    utf8 rest = (utf8 s).drop n := by
  fun_induction dropBytes? n s with
  | case1 s => cases h; rfl
  | case2 n => cases h
  | case3 n c s hsize ih =>
    have hgone : (String.utf8EncodeChar c).drop (n + 1) = [] :=
      List.drop_eq_nil_of_le (by simpa using hsize)
    rw [ih h, utf8_cons, List.drop_append, String.length_utf8EncodeChar, hgone]
    rfl
  | case4 => cases h

/-- Taking bytes of a text takes them from its encoding. -/
theorem utf8_takeBytes? {n : Nat} {s front : List Char} (h : takeBytes? n s = some front) :
    utf8 front = (utf8 s).take n := by
  fun_induction takeBytes? n s generalizing front with
  | case1 s => cases h; rfl
  | case2 n => cases h
  | case3 n c s hsize ih =>
    obtain ⟨front', hfront', rfl⟩ := Option.map_eq_some_iff.1 h
    have hall : (String.utf8EncodeChar c).take (n + 1) = String.utf8EncodeChar c :=
      List.take_of_length_le (by simpa using hsize)
    rw [utf8_cons, utf8_cons, ih hfront', List.take_append, String.length_utf8EncodeChar, hall]
  | case4 => cases h

/-- A slice of a text has the bytes between its ends. -/
theorem utf8_slice? {s t : List Char} {start stop : Nat} (h : slice? s start stop = some t) :
    utf8 t = ((utf8 s).drop start).take (stop - start) := by
  unfold slice? at h
  split at h
  · obtain ⟨rest, hrest, htake⟩ := Option.bind_eq_some_iff.1 h
    rw [utf8_takeBytes? htake, utf8_dropBytes? hrest]
  · cases h

/-- The first character is dropped with its own size. -/
theorem dropBytes?_cons (c : Char) (n : Nat) (s : List Char) :
    dropBytes? (c.utf8Size + n) (c :: s) = dropBytes? n s := by
  obtain ⟨size, hsize⟩ := Nat.exists_eq_add_one.2 c.utf8Size_pos
  rw [hsize, show size + 1 + n = (size + n) + 1 by omega, dropBytes?, if_pos (by omega), hsize,
    show size + n + 1 - (size + 1) = n by omega]

/-- The first character is taken with its own size. -/
theorem takeBytes?_cons (c : Char) (n : Nat) (s : List Char) :
    takeBytes? (c.utf8Size + n) (c :: s) = (takeBytes? n s).map (c :: ·) := by
  obtain ⟨size, hsize⟩ := Nat.exists_eq_add_one.2 c.utf8Size_pos
  rw [hsize, show size + 1 + n = (size + n) + 1 by omega, takeBytes?, if_pos (by omega), hsize,
    show size + n + 1 - (size + 1) = n by omega]

/-- Dropping the size of a front leaves the rest. -/
theorem dropBytes?_append (front rest : List Char) :
    dropBytes? (byteSize front) (front ++ rest) = some rest := by
  induction front with
  | nil => simp [byteSize, dropBytes?]
  | cons c front ih => rw [byteSize, List.cons_append, dropBytes?_cons, ih]

/-- Taking the size of a front gives that front. -/
theorem takeBytes?_append (front rest : List Char) :
    takeBytes? (byteSize front) (front ++ rest) = some front := by
  induction front with
  | nil => simp [byteSize, takeBytes?]
  | cons c front ih => rw [byteSize, List.cons_append, takeBytes?_cons, ih, Option.map_some]

/-- The middle of a text is the slice between its ends. -/
theorem slice?_append (front body rest : List Char) :
    slice? (front ++ (body ++ rest)) (byteSize front) (byteSize front + byteSize body)
      = some body := by
  rw [slice?, if_pos (Nat.le_add_right _ _), dropBytes?_append, Option.bind_some,
    Nat.add_sub_cancel_left, takeBytes?_append]

/-- What stands between two bytes of ASCII is a slice. -/
theorem exists_slice? {s : List Char} {front text rest : List UInt8} {b b' : UInt8} (hb : b < 0x80)
    (hb' : b' < 0x80) (h : utf8 s = front ++ b :: (text ++ b' :: rest)) :
    ∃ body, slice? s (front.length + 1) (front.length + 1 + text.length) = some body ∧
      utf8 body = text := by
  obtain ⟨before, c, after, rfl, rfl, hc, hafter⟩ := exists_append_of_utf8 hb h
  obtain ⟨body, d, later, rfl, rfl, -⟩ := exists_append_of_utf8 hb' hafter
  have hsize : (utf8 before).length + 1 = byteSize (before ++ [c]) := by
    rw [← length_utf8, utf8_append, hc, List.length_append, List.length_singleton]
  refine ⟨body, ?_, rfl⟩
  rw [hsize, length_utf8, ← List.singleton_append, ← List.append_assoc]
  exact slice?_append (before ++ [c]) body (d :: later)

end BlastRadius.Text
