import Mathlib.Data.List.Chain
import BlastRadius.Source.Mask
import BlastRadius.Proofs.Lexeme
import BlastRadius.Proofs.Utf8

namespace BlastRadius.Source

/-!
# Masked texts

Masking goes byte by byte and may turn inside of a character, for a backslash takes only one byte
with it. Its result is a text all the same, with everything in its place.

* `Step`, `Pass` — what one step of the pass over a text can do, and what a whole pass is made of.
* `Follows` — which bytes can stand next to each other; `Pass.chain` says that no others do.
* `exists_utf8_of_chain` — the bytes of a character lie in one region, so what is masked is a text.
* `decode?_maskBytes`, `utf8_mask` — the bytes of a masked text.
* `mask_layout` — a masked text differs from the text only in comments, and in the bodies of
  literals.
-/

open Text

/-! ### One step of the pass -/

/-- What one step of the pass can do: the bytes that it takes, with their regions, and the context
    it goes on in. -/
inductive Step : Context → List (UInt8 × Region) → Context → Prop where
  | lineOpening : Step .code [(0x2f, .comment), (0x2f, .comment)] .lineComment
  | blockOpening : Step .code [(0x2f, .comment), (0x2a, .comment)] .blockComment
  | opening {b : UInt8} (hmark : isMark b = true) : Step .code [(b, .opening)] (.literal b)
  | code {b : UInt8} (hmark : isMark b = false) : Step .code [(b, .code)] .code
  | lineEnd : Step .lineComment [(newline, .code)] .code
  | lineComment (b : UInt8) : Step .lineComment [(b, .comment)] .lineComment
  | blockEnd : Step .blockComment [(0x2a, .comment), (0x2f, .comment)] .code
  | blockComment (b : UInt8) : Step .blockComment [(b, .comment)] .blockComment
  | escape (mark b : UInt8) : Step (.literal mark) [(0x5c, .body), (b, .body)] (.literal mark)
  | closing (mark : UInt8) : Step (.literal mark) [(mark, .closing)] .code
  | broken {mark : UInt8} (hline : spansLines mark = false) :
      Step (.literal mark) [(newline, .code)] .code
  | body {mark b : UInt8} (hmark : b ≠ mark) : Step (.literal mark) [(b, .body)] (.literal mark)

/-- A pass from a context on: one step after another, up to the end of the text. -/
inductive Pass : Context → List (UInt8 × Region) → Prop where
  | nil (context : Context) : Pass context []
  | step {context next : Context} {taken rest : List (UInt8 × Region)}
      (hstep : Step context taken next) (hrest : Pass next rest) : Pass context (taken ++ rest)

/-- The regions of a text come from such a pass. -/
theorem pass_classifiedFrom (context : Context) (bytes : List UInt8) :
    Pass context (classifiedFrom context bytes) := by
  unfold classifiedFrom
  -- Every equation of the definition is one kind of step.
  fun_induction regionsFrom context bytes with
  | case1 context => exact .nil context
  | case2 bytes ih => exact .step .lineOpening ih
  | case3 bytes ih => exact .step .blockOpening ih
  | case4 b bytes _ _ hmark ih => exact .step (.opening hmark) ih
  | case5 b bytes _ _ hmark ih => exact .step (.code (Bool.eq_false_iff.2 hmark)) ih
  | case6 bytes ih => exact .step .lineEnd ih
  | case7 b bytes _ ih => exact .step (.lineComment b) ih
  | case8 bytes ih => exact .step .blockEnd ih
  | case9 b bytes _ ih => exact .step (.blockComment b) ih
  | case10 mark b bytes ih => exact .step (.escape mark b) ih
  | case11 b bytes _ ih => exact .step (.closing b) ih
  | case12 mark b bytes _ _ hline ih =>
    obtain ⟨rfl, hline⟩ := hline
    exact .step (.broken (Bool.eq_false_iff.2 hline)) ih
  | case13 mark b bytes _ hmark _ ih => exact .step (.body hmark) ih

/-! ### Neighbours -/

/-- Whether a literal is open behind a byte of a region. -/
def Region.inLiteral : Region → Bool
  | .opening => true
  | .body => true
  | _ => false

/-- Whether a literal is open in a context. -/
def Context.inLiteral : Context → Bool
  | .literal _ => true
  | _ => false

/-- The region of the bytes that mean nothing to the pass. -/
def Context.region : Context → Region
  | .code => .code
  | .lineComment => .comment
  | .blockComment => .comment
  | .literal _ => .body

/-- Whether the pass is in a literal only behind a quotation mark. -/
def Context.Proper : Context → Prop
  | .literal mark => isMark mark = true
  | _ => True

/-- What may be read next in a context. In a literal it is its body, its closing mark, or the
    newline that breaks it off; elsewhere it is code, a comment, or an opening mark. -/
structure Context.Starts (context : Context) (y : UInt8 × Region) : Prop where
  inside : context.inLiteral = true → y.2 = .body ∨ y.2 = .closing ∨ y = (newline, .code)
  outside : context.inLiteral = false → y.2 = .code ∨ y.2 = .comment ∨ y.2 = .opening
  alike : 0x80 ≤ y.1 → y.2 = context.region

/-- What may stand behind a byte: the same, by the region of the byte. Neighbours beyond ASCII are
    of one region. -/
structure Follows (x y : UInt8 × Region) : Prop where
  inside : x.2.inLiteral = true → y.2 = .body ∨ y.2 = .closing ∨ y = (newline, .code)
  outside : x.2.inLiteral = false → y.2 = .code ∨ y.2 = .comment ∨ y.2 = .opening
  alike : 0x80 ≤ x.1 → 0x80 ≤ y.1 → x.2 = y.2

/-- Marks are one byte each. -/
theorem ascii_of_isMark {b : UInt8} (h : isMark b = true) : ¬0x80 ≤ b := by
  unfold isMark at h
  simp only [Bool.or_eq_true, beq_iff_eq] at h
  rcases h with (rfl | rfl) | rfl <;> decide

section
variable {context next : Context} {taken rest : List (UInt8 × Region)}

/-- A literal is entered through a mark only. -/
theorem Step.proper (h : Step context taken next) (hcontext : context.Proper) : next.Proper := by
  cases h with
  | opening hmark => exact hmark
  | escape | body => exact hcontext
  | _ => trivial

/-- Every step takes something. -/
theorem Step.taken_ne_nil (h : Step context taken next) : taken ≠ [] := by
  cases h <;> simp

/-- What a step takes first is what may be read next. -/
theorem Step.starts (h : Step context taken next) (hcontext : context.Proper) :
    ∀ y ∈ taken.head?, context.Starts y := by
  -- Only bytes beyond ASCII have to be alike, and none of them is a mark.
  cases h with
  | lineOpening | blockOpening | lineEnd =>
    rintro _ ⟨⟩
    exact ⟨nofun, by simp, fun h => absurd h (by decide)⟩
  | opening hmark =>
    rintro _ ⟨⟩
    exact ⟨nofun, by simp, fun h => absurd h (ascii_of_isMark hmark)⟩
  | code | lineComment | blockEnd | blockComment =>
    rintro _ ⟨⟩
    exact ⟨nofun, by simp, fun _ => rfl⟩
  | escape | body =>
    rintro _ ⟨⟩
    exact ⟨by simp, nofun, fun _ => rfl⟩
  | closing =>
    rintro _ ⟨⟩
    exact ⟨by simp, nofun, fun h => absurd h (ascii_of_isMark hcontext)⟩
  | broken =>
    rintro _ ⟨⟩
    exact ⟨by simp, nofun, fun h => absurd h (by decide)⟩

/-- What a step takes last agrees with the context that it leaves. -/
theorem Step.leaves (h : Step context taken next) (hcontext : context.Proper) :
    ∀ x ∈ taken.getLast?, x.2.inLiteral = next.inLiteral ∧ (0x80 ≤ x.1 → x.2 = next.region) := by
  cases h with
  | opening hmark =>
    rintro _ ⟨⟩
    exact ⟨rfl, fun h => absurd h (ascii_of_isMark hmark)⟩
  | closing =>
    rintro _ ⟨⟩
    exact ⟨rfl, fun h => absurd h (ascii_of_isMark hcontext)⟩
  | blockEnd =>
    rintro _ ⟨⟩
    exact ⟨rfl, fun h => absurd h (by decide)⟩
  | _ =>
    rintro _ ⟨⟩
    exact ⟨rfl, fun _ => rfl⟩

/-- What one step takes follows the rule of neighbours. -/
theorem Step.chain (h : Step context taken next) : taken.IsChain Follows := by
  cases h with
  | lineOpening | blockOpening | blockEnd =>
    exact List.isChain_pair.2 ⟨nofun, by simp, fun _ _ => rfl⟩
  | escape => exact List.isChain_pair.2 ⟨by simp, nofun, fun _ _ => rfl⟩
  | _ => exact List.isChain_singleton _

/-- What a pass takes first fits the context. -/
theorem Pass.starts (h : Pass context rest) (hcontext : context.Proper) :
    ∀ y ∈ rest.head?, context.Starts y := by
  cases h with
  | nil => exact nofun
  | step hstep _ =>
    intro y hy
    rw [List.head?_append_of_ne_nil _ hstep.taken_ne_nil] at hy
    exact hstep.starts hcontext y hy

/-- **Neighbours in a text.** All that a pass takes follows the rule of neighbours. -/
theorem Pass.chain (h : Pass context rest) (hcontext : context.Proper) : rest.IsChain Follows := by
  induction h with
  | nil => exact List.isChain_nil
  | @step context next taken rest hstep hrest ih =>
    have hnext := hstep.proper hcontext
    refine List.isChain_append.2 ⟨hstep.chain, ih hnext, fun x hx y hy => ?_⟩
    obtain ⟨hliteral, hregion⟩ := hstep.leaves hcontext x hx
    have hy := hrest.starts hnext y hy
    refine ⟨fun h => hy.inside (hliteral ▸ h), fun h => hy.outside (hliteral ▸ h), fun h h' => ?_⟩
    rw [hregion h, hy.alike h']

end

/-- Neighbours in a classified text follow the rule. -/
theorem chain_classified (bytes : List UInt8) : (classified bytes).IsChain Follows :=
  (pass_classifiedFrom .code bytes).chain trivial

/-! ### Bytes of a masked text -/

/-- Classifying keeps the bytes. -/
theorem map_fst_classified (bytes : List UInt8) : (classified bytes).map Prod.fst = bytes :=
  List.map_fst_zip (Nat.le_of_eq (length_regionsFrom .code bytes).symm)

/-- Masking keeps the number of bytes. -/
theorem length_maskBytes (mode : MaskMode) (bytes : List UInt8) :
    (maskBytes mode bytes).length = bytes.length := by
  rw [maskBytes, List.length_map, ← List.length_map (f := Prod.fst), map_fst_classified]

/-- A row of neighbours beyond ASCII lies in one region. -/
theorem region_eq_of_chain {x : UInt8 × Region} {row : List (UInt8 × Region)}
    (h : (x :: row).IsChain Follows) (hrow : ∀ y ∈ x :: row, 0x80 ≤ y.1) :
    ∀ y ∈ x :: row, y.2 = x.2 := by
  induction row generalizing x with
  | nil => simp
  | cons z row ih =>
    rw [List.isChain_cons_cons] at h
    have hz : x.2 = z.2 := h.1.alike (hrow x List.mem_cons_self) (hrow z (by simp))
    have ih := ih h.2 fun y hy => hrow y (List.mem_cons_of_mem _ hy)
    intro y hy
    rcases List.mem_cons.1 hy with rfl | hy
    · rfl
    · rw [ih y hy, hz]

/-- Blanks are one byte each. -/
theorem utf8_replicate_space (n : Nat) : utf8 (List.replicate n ' ') = List.replicate n space := by
  induction n with
  | zero => rfl
  | succ n ih =>
    rw [List.replicate_succ, utf8_cons, ih]
    rfl

/-- The bytes of one character, masked: the character, or a space for each byte. -/
theorem exists_utf8_of_char (mode : MaskMode) {c : Char} {row : List (UInt8 × Region)}
    (hbytes : row.map Prod.fst = String.utf8EncodeChar c) (hchain : row.IsChain Follows) :
    ∃ t, (row.map fun (b, region) => maskByte mode b region) = utf8 t := by
  by_cases hc : c.toNat < 0x80
  · rw [utf8EncodeChar_of_ascii hc, List.map_eq_singleton_iff] at hbytes
    obtain ⟨⟨b, region⟩, rfl, hb⟩ := hbytes
    by_cases hkeep : b = newline ∨ mode.keeps region
    · refine ⟨[c], ?_⟩
      rw [utf8_cons, utf8EncodeChar_of_ascii hc, ← hb]
      simp [maskByte, hkeep, utf8_nil]
    · exact ⟨[' '], by simp [maskByte, hkeep]; rfl⟩
  · have hbeyond : ∀ y ∈ row, 0x80 ≤ y.1 := fun y hy =>
      le_of_mem_utf8EncodeChar (by omega) (hbytes ▸ List.mem_map_of_mem hy)
    -- No byte of the character is a newline, so its region alone decides.
    cases row with
    | nil => exact ⟨[], rfl⟩
    | cons x row =>
      have hregion := region_eq_of_chain hchain hbeyond
      by_cases hkeep : mode.keeps x.2
      · refine ⟨[c], ?_⟩
        rw [utf8_cons, utf8_nil, List.append_nil, ← hbytes]
        refine List.map_congr_left fun y hy => ?_
        simp [maskByte, hregion y hy, hkeep]
      · refine ⟨List.replicate (x :: row).length ' ', ?_⟩
        rw [utf8_replicate_space, ← List.map_const']
        refine List.map_congr_left fun y hy => ?_
        have hnewline : y.1 ≠ newline := fun h => absurd (h ▸ hbeyond y hy) (by decide)
        simp [maskByte, hregion y hy, hkeep, hnewline]

/-- What is masked is a text: the bytes of a character are kept, or replaced, together. -/
theorem exists_utf8_of_chain (mode : MaskMode) {s : List Char} {tagged : List (UInt8 × Region)}
    (hbytes : tagged.map Prod.fst = utf8 s) (hchain : tagged.IsChain Follows) :
    ∃ t, (tagged.map fun (b, region) => maskByte mode b region) = utf8 t := by
  induction s generalizing tagged with
  | nil =>
    rw [utf8_nil, List.map_eq_nil_iff] at hbytes
    exact ⟨[], by rw [hbytes]; rfl⟩
  | cons c s ih =>
    rw [utf8_cons, List.map_eq_append_iff] at hbytes
    obtain ⟨row, rest, rfl, hrow, hrest⟩ := hbytes
    obtain ⟨hrowChain, hrestChain, -⟩ := List.isChain_append.1 hchain
    obtain ⟨t, ht⟩ := exists_utf8_of_char mode hrow hrowChain
    obtain ⟨u, hu⟩ := ih hrest hrestChain
    exact ⟨t ++ u, by rw [List.map_append, ht, hu, utf8_append]⟩

/-- A masked text is a text again. -/
theorem exists_utf8_maskBytes (mode : MaskMode) (s : List Char) :
    ∃ t, maskBytes mode (utf8 s) = utf8 t :=
  exists_utf8_of_chain mode (map_fst_classified (utf8 s)) (chain_classified (utf8 s))

/-- The masked bytes are a text, so nothing stands in for it. -/
theorem decode?_maskBytes (mode : MaskMode) (s : List Char) :
    decode? (maskBytes mode (utf8 s)) = some (mask mode s) := by
  obtain ⟨t, ht⟩ := exists_utf8_maskBytes mode s
  simp [mask, ht, decode?_utf8]

/-- The bytes of a masked text. -/
theorem utf8_mask (mode : MaskMode) (s : List Char) :
    utf8 (mask mode s) = maskBytes mode (utf8 s) := by
  obtain ⟨t, ht⟩ := exists_utf8_maskBytes mode s
  have hdecode := decode?_maskBytes mode s
  rw [ht, decode?_utf8, Option.some_inj] at hdecode
  rw [ht, hdecode]

/-! ### The layout of a masked text -/

/-- Masking keeps line breaks, and makes none. -/
theorem maskByte_eq_newline_iff (mode : MaskMode) (b : UInt8) (region : Region) :
    maskByte mode b region = newline ↔ b = newline := by
  unfold maskByte
  split
  · rfl
  · rename_i h
    have hnewline : b ≠ newline := fun hb => h (.inl hb)
    exact iff_of_false (by decide) hnewline

/-- Comments are always masked, bodies of literals in one mode. -/
theorem keeps_eq_false_iff (mode : MaskMode) (region : Region) :
    mode.keeps region = false ↔ region = .comment ∨ mode = .literals ∧ region = .body := by
  cases mode <;> cases region <;> decide

/-- The bytes of a masked text, one by one. -/
theorem getElem?_utf8_mask (mode : MaskMode) (s : List Char) (i : Nat) :
    (utf8 (mask mode s))[i]?
      = (classified (utf8 s))[i]?.map fun (b, region) => maskByte mode b region := by
  rw [utf8_mask, maskBytes, List.getElem?_map]

/-- The bytes of a text stand where they are classified. -/
theorem getElem?_utf8 (s : List Char) (i : Nat) :
    (utf8 s)[i]? = (classified (utf8 s))[i]?.map Prod.fst := by
  rw [← List.getElem?_map, map_fst_classified]

/-- **Masking keeps the layout.** Take any text, and any way of reading it as a row of lexemes
    (there is one). Its masked bytes are a text, as long as the text and with the same newlines. A
    byte of a comment, and of the body of a literal when these are masked too, is a space, unless it
    is a newline. All others are as they were. -/
theorem mask_layout (mode : MaskMode) (s : List Char) :
    (∃ lexemes, Lexed (utf8 s) lexemes) ∧
    ∀ lexemes, Lexed (utf8 s) lexemes →
      decode? (maskBytes mode (utf8 s)) = some (mask mode s) ∧
      byteSize (mask mode s) = byteSize s ∧
      (∀ i : Nat, (utf8 (mask mode s))[i]? = some newline ↔ (utf8 s)[i]? = some newline) ∧
      ∀ (i : Nat) (b : UInt8) (region : Region),
        (lexemes.flatMap Lexeme.classified)[i]? = some (b, region) → (utf8 s)[i]? = some b ∧
        (utf8 (mask mode s))[i]? =
          some (if b ≠ newline ∧
            (region = .comment ∨ mode = .literals ∧ region = .body) then space else b) := by
  refine ⟨exists_lexed _, fun lexemes hlexed => ⟨decode?_maskBytes mode s, ?_, fun i => ?_, ?_⟩⟩
  · rw [← length_utf8, ← length_utf8, utf8_mask, length_maskBytes]
  · rw [getElem?_utf8_mask, getElem?_utf8]
    simp [maskByte_eq_newline_iff]
  · intro i b region hi
    rw [← classified_of_lexed hlexed] at hi
    rw [getElem?_utf8_mask, getElem?_utf8, hi]
    refine ⟨rfl, ?_⟩
    simp only [← keeps_eq_false_iff, Option.map_some]
    by_cases hb : b = newline <;> by_cases hkeep : mode.keeps region <;> simp [maskByte, hb, hkeep]

/-- A backslash in front of a character of two bytes takes the first of them with it. What looks
    like a comment behind it belongs to the literal, and the comment behind that has no end. -/
theorem Sample.mask_layout_escape :
    Lexed (utf8 "x'\\é//'/*é".toList)
      [.code 0x78, .literal 0x27 [0x5c, 0xc3, 0xa9, 0x2f, 0x2f] true,
        .blockComment [0xc3, 0xa9] false] ∧
    mask .literals "x'\\é//'/*é".toList = "x'     '    ".toList ∧
    (utf8 (mask .literals "x'\\é//'/*é".toList))[4]? = some space := by
  have hlexed : Lexed (utf8 "x'\\é//'/*é".toList)
      [.code 0x78, .literal 0x27 [0x5c, 0xc3, 0xa9, 0x2f, 0x2f] true,
        .blockComment [0xc3, 0xa9] false] := by
    have htext : LiteralText 0x27 [0x5c, 0xc3, 0xa9, 0x2f, 0x2f] := by
      refine .escape _ (.plain (by decide) (by decide) (by decide) ?_)
      exact .plain (by decide) (by decide) (by decide)
        (.plain (by decide) (by decide) (by decide) .nil)
    exact .code (by decide) (by decide) (.literal (by decide) htext (.openComment (by decide)))
  refine ⟨hlexed, by decide +kernel, ?_⟩
  exact (((mask_layout .literals _).2 _ hlexed).2.2.2 4 0xa9 .body (by decide)).2

end BlastRadius.Source
