import BlastRadius.Json.Printer
import BlastRadius.Json.Tree
import Mathlib.Algebra.Group.Int.Defs
import Mathlib.Algebra.Group.Nat.Defs
import Mathlib.Tactic.Common

namespace BlastRadius.Json

/-!
# Rendered values can be read

A text that was rendered from a value, in either layout, has the tokens of this value and then its
tree. Whatever stands behind the text of a part is carried along: numbers end only where it begins.

* `numeral?_text`, `stringBody?_quoted` — integers and strings are read back.
* `ReadsAs` — a text consists of tokens; there is a lemma for each thing that a text can go on with.
* `Writable` — numbers are exact, and the number of open brackets is bounded.
* `tokens`, `tree` — the tokens and the tree of a value.
* `Writable.isWritten`, `Writable.isParsed` — a rendered value has these tokens, and they have this
  tree.
* `Writable.tree?_render` — a rendered value can be read; `Writable.value?_tree` — its tree has its
  value.
-/

/-! ### Numbers -/

/-- What stands behind a number does not belong to it. -/
def EndsNumber (s : List Char) : Prop :=
  ∀ c ∈ s.head?, c.isDigit = false ∧ c ≠ '.' ∧ c ≠ 'e' ∧ c ≠ 'E'

/-- The end of the text ends a number. -/
theorem endsNumber_nil : EndsNumber [] := by
  simp [EndsNumber]

/-- The value of a character that is a digit. -/
def digitValue (c : Char) : Nat :=
  c.toNat - '0'.toNat

/-- All digits in front are read. -/
theorem digits_append {s rest : List Char} (hs : ∀ c ∈ s, c.isDigit = true)
    (hrest : ∀ c ∈ rest.head?, c.isDigit = false) :
    digits (s ++ rest) = (s.map digitValue, rest) := by
  induction s with
  | nil =>
    cases rest with
    | nil => rfl
    | cons c rest =>
      have hc := hrest c rfl
      simp [digits, digit?, hc]
  | cons c s ih =>
    obtain ⟨hc, hs⟩ := List.forall_mem_cons.1 hs
    simp [digits, digit?, hc, ih hs, digitValue]

/-- Digits have the value that the library gives them. -/
theorem ofDigits_map_digitValue (s : List Char) :
    ofDigits (s.map digitValue) = Nat.ofDigitChars 10 s 0 := by
  rw [ofDigits, Nat.ofDigitChars_eq_foldl, List.foldl_map]
  simp only [digitValue, Nat.mul_comm 10]

/-- A number is written with digits. -/
theorem isDigit_toDigits (n : Nat) : ∀ c ∈ Nat.toDigits 10 n, c.isDigit = true := fun _ hc =>
  Nat.isDigit_of_mem_toDigits (by decide) (by decide) hc

/-- It is written with at least one. -/
theorem exists_toDigits (n : Nat) : ∃ c s, c.isDigit = true ∧ Nat.toDigits 10 n = c :: s := by
  cases hds : Nat.toDigits 10 n with
  | nil => exact absurd hds Nat.toDigits_ne_nil
  | cons c s => exact ⟨c, s, isDigit_toDigits n c (by simp [hds]), rfl⟩

/-- Numbers are written without leading zeros. -/
theorem head?_toDigits {n : Nat} (hn : n ≠ 0) :
    ((Nat.toDigits 10 n).map digitValue).head? ≠ some 0 := by
  induction n using Nat.strongRecOn with
  | ind n ih =>
    rw [Nat.toDigits_eq_if (by decide)]
    split
    · next hsmall =>
      simpa [digitValue, Nat.toNat_digitChar_of_lt_ten hsmall] using hn
    · next hlarge =>
      have hhead := ih (n / 10) (by omega) (by omega)
      obtain ⟨c, s, -, hds⟩ := exists_toDigits (n / 10)
      rw [hds] at hhead ⊢
      exact hhead

/-- The digits of a number are read back, without leading zeros. -/
theorem whole?_toDigits (n : Nat) {rest : List Char} (hrest : EndsNumber rest) :
    whole? (Nat.toDigits 10 n ++ rest) = some ((Nat.toDigits 10 n).map digitValue, rest) := by
  have hfound : digits1? (Nat.toDigits 10 n ++ rest)
      = some ((Nat.toDigits 10 n).map digitValue, rest) := by
    obtain ⟨c, s, -, hds⟩ := exists_toDigits n
    rw [digits1?, digits_append (isDigit_toDigits n) fun c hc => (hrest c hc).1, hds]
    rfl
  have hzero : ¬(((Nat.toDigits 10 n).map digitValue).head? = some 0 ∧
      ((Nat.toDigits 10 n).map digitValue).length ≠ 1) := by
    rintro ⟨hhead, hlength⟩
    by_cases hn : n = 0
    · subst hn
      exact hlength rfl
    · exact head?_toDigits hn hhead
  rw [whole?, hfound]
  exact if_neg hzero

/-- Where a number ends there is no fraction. -/
theorem fraction?_of_endsNumber {rest : List Char} (hrest : EndsNumber rest) :
    fraction? rest = some (none, rest) := by
  unfold fraction?
  split
  · exact absurd rfl (hrest _ rfl).2.1
  · rfl

/-- Nor is there an exponent. -/
theorem exponent?_of_endsNumber {rest : List Char} (hrest : EndsNumber rest) :
    exponent? rest = some (none, rest) := by
  cases rest with
  | nil => rfl
  | cons c rest =>
    obtain ⟨-, -, he, hE⟩ := hrest c rfl
    simp [exponent?, he, hE]

/-- The numeral of an integer: a sign and digits. -/
def numeralOf (n : Int) : Numeral :=
  ⟨decide (n < 0), (Nat.toDigits 10 n.natAbs).map digitValue, none, none⟩

/-- An integer is written as a sign and its digits. -/
theorem text_int (n : Int) : (Number.int n).text =
    if n < 0 then '-' :: Nat.toDigits 10 n.natAbs else Nat.toDigits 10 n.natAbs := by
  rw [Number.text, show toString n = n.repr from rfl, Int.repr_eq_if]
  by_cases hn : n < 0
  · rw [if_neg (by omega), if_pos hn, String.toList_append, Nat.toList_repr,
      show (-n).toNat = n.natAbs by omega]
    rfl
  · rw [if_pos (by omega), if_neg hn, Nat.toList_repr, show n.toNat = n.natAbs by omega]

/-- An integer is read back as its numeral. -/
theorem numeral?_text (n : Int) {rest : List Char} (hrest : EndsNumber rest) :
    numeral? ((Number.int n).text ++ rest) = some (numeralOf n, rest) := by
  have hwhole := whole?_toDigits n.natAbs hrest
  rw [text_int]
  by_cases hn : n < 0
  · rw [if_pos hn, List.cons_append, numeral?]
    simp [hwhole, fraction?_of_endsNumber hrest, exponent?_of_endsNumber hrest, numeralOf, hn]
  · have hsign : ∀ s, Nat.toDigits 10 n.natAbs ++ rest = '-' :: s → False := by
      intro s heq
      obtain ⟨c, t, hc, hds⟩ := exists_toDigits n.natAbs
      rw [hds] at heq
      cases heq
      exact absurd hc (by decide)
    rw [if_neg hn, numeral?.eq_2 _ hsign]
    simp [hwhole, fraction?_of_endsNumber hrest, exponent?_of_endsNumber hrest, numeralOf, hn]

/-- The integers of 64 bits, with or without sign. -/
def Number.IsExact : Number → Prop
  | .int n => -2 ^ 63 ≤ n ∧ n < 2 ^ 64
  | .real _ => False

/-- The numeral of an integer in range has that integer for a value. -/
theorem value?_numeralOf {n : Int} (h : (Number.int n).IsExact) :
    (numeralOf n).value? = some (.int n) := by
  have hvalue : ofDigits (numeralOf n).whole = n.natAbs := by
    rw [numeralOf, ofDigits_map_digitValue, Nat.ofDigitChars_ten_toDigits]
  have hint : (numeralOf n).int? = some n := by
    obtain ⟨hlow, hhigh⟩ := h
    rw [Numeral.int?, hvalue, if_neg (by simp [numeralOf])]
    -- Negative numbers have one bit less, all others have the sign bit too.
    by_cases hn : n < 0
    · have hbound : 0 < n.natAbs ∧ n.natAbs ≤ Nat.pow 2 63 := by
        rw [Nat.pow_eq]
        omega
      rw [if_pos (by simpa [numeralOf] using hn), if_pos hbound,
        show -(n.natAbs : Int) = n by omega]
    · have hbound : n.natAbs < Nat.pow 2 64 := by
        rw [Nat.pow_eq]
        omega
      rw [if_neg (by simpa [numeralOf] using hn), if_pos hbound, show (n.natAbs : Int) = n by omega]
  rw [Numeral.value?, hint]

/-! ### Strings -/

/-- A unit that is no half of a pair stands for itself. -/
theorem assemble?_unit {n : Nat} (hhigh : isHighUnit n = false) (hlow : isLowUnit n = false)
    (parts : List Part) :
    assemble? (.unit n :: parts) = (assemble? parts).map (Char.ofNat n :: ·) := by
  cases parts with
  | nil => simp [assemble?, hhigh, hlow]
  | cons part parts => cases part <;> simp [assemble?, hhigh, hlow]

/-- The hexadecimal digits of a number of one byte. -/
theorem unit?_hexDigit {n : Nat} (hn : n < 0x100) :
    unit? '0' '0' (hexDigit (n / 16)) (hexDigit (n % 16)) = some n := by
  have hdigit : ∀ d < 16, hexDigit? (hexDigit d) = some d := by decide
  simp [unit?, hdigit (n / 16) (by omega), hdigit (n % 16) (by omega),
    show hexDigit? '0' = some 0 from rfl]
  omega

/-- An escape is read as the character that it stands for. -/
theorem stringBody?_escape {letter c : Char} (hletter : letter ≠ 'u') (hc : escape? letter = some c)
    (s : List Char) :
    stringBody? ('\\' :: letter :: s)
      = (stringBody? s).map fun found => (.char c :: found.1, found.2) := by
  rw [stringBody?, hc]
  · cases stringBody? s <;> rfl
  · intro a b c d s heq
    exact absurd heq hletter

/-- Any other character is read as itself. -/
theorem stringBody?_plain {c : Char} (hquote : c ≠ '"') (hslash : c ≠ '\\')
    (hcontrol : ¬c.toNat < 0x20) (s : List Char) :
    stringBody? (c :: s) = (stringBody? s).map fun found => (.char c :: found.1, found.2) := by
  rw [stringBody?, if_neg (by simp [hcontrol, hslash])]
  · cases stringBody? s <;> rfl
  · exact hquote
  · intro a b c d s heq
    exact absurd heq hslash
  · intro c s heq
    exact absurd heq hslash

/-- How a character of a string is written: by a letter behind a backslash, by its number, or as it
    is. -/
theorem escaped_cases (c : Char) :
    (∃ letter, letter ≠ 'u' ∧ escape? letter = some c ∧ escaped c = ['\\', letter]) ∨
    (c.toNat < 0x20 ∧ escaped c
      = ['\\', 'u', '0', '0', hexDigit (c.toNat / 16), hexDigit (c.toNat % 16)]) ∨
    (c ≠ '"' ∧ c ≠ '\\' ∧ ¬c.toNat < 0x20 ∧ escaped c = [c]) := by
  unfold escaped
  split_ifs with hquote hslash hback htab hline hfeed hreturn hcontrol
  · exact .inl ⟨'"', by decide, by rw [hquote]; rfl, rfl⟩
  · exact .inl ⟨'\\', by decide, by rw [hslash]; rfl, rfl⟩
  · exact .inl ⟨'b', by decide, by rw [hback]; rfl, rfl⟩
  · exact .inl ⟨'t', by decide, by rw [htab]; rfl, rfl⟩
  · exact .inl ⟨'n', by decide, by rw [hline]; rfl, rfl⟩
  · exact .inl ⟨'f', by decide, by rw [hfeed]; rfl, rfl⟩
  · exact .inl ⟨'r', by decide, by rw [hreturn]; rfl, rfl⟩
  · exact .inr (.inl ⟨hcontrol, rfl⟩)
  · exact .inr (.inr ⟨hquote, hslash, hcontrol, rfl⟩)

/-- An escaped character is read as one part that stands for it. -/
theorem stringBody?_escaped (c : Char) (s : List Char) :
    ∃ part, stringBody? (escaped c ++ s)
      = (stringBody? s).map (fun found => (part :: found.1, found.2)) ∧
      ∀ parts, assemble? (part :: parts) = (assemble? parts).map (c :: ·) := by
  -- A letter behind an escape, a coded control character, or the character itself.
  rcases escaped_cases c with
    ⟨letter, hletter, hc, hescaped⟩ | ⟨hcontrol, hescaped⟩ | ⟨hquote, hslash, hplain, hescaped⟩
  · rw [hescaped]
    exact ⟨.char c, stringBody?_escape hletter hc s, fun _ => rfl⟩
  · refine ⟨.unit c.toNat, ?_, fun parts => ?_⟩
    · rw [hescaped]
      show stringBody? ('\\' :: 'u' :: '0' :: '0' :: hexDigit _ :: hexDigit _ :: s) = _
      rw [stringBody?, unit?_hexDigit (by omega)]
      cases stringBody? s <;> rfl
    · have hhigh : isHighUnit c.toNat = false := by simp [isHighUnit]; omega
      have hlow : isLowUnit c.toNat = false := by simp [isLowUnit]; omega
      rw [assemble?_unit hhigh hlow, Char.ofNat_toNat]
  · rw [hescaped]
    exact ⟨.char c, stringBody?_plain hquote hslash hplain s, fun _ => rfl⟩

/-- A quoted string is read back. -/
theorem stringBody?_quoted (s rest : List Char) :
    ∃ parts, stringBody? (s.flatMap escaped ++ '"' :: rest) = some (parts, rest) ∧
      assemble? parts = some s := by
  induction s with
  | nil => exact ⟨[], rfl, rfl⟩
  | cons c s ih =>
    obtain ⟨parts, hread, hparts⟩ := ih
    obtain ⟨part, hfirst, hpart⟩ := stringBody?_escaped c (s.flatMap escaped ++ '"' :: rest)
    refine ⟨part :: parts, ?_, ?_⟩
    · rw [List.flatMap_cons, List.append_assoc, hfirst, hread]
      rfl
    · rw [hpart, hparts]
      rfl

/-! ### Texts and their tokens -/

/-- A text consists of tokens, however much fuel there is to read it. -/
def ReadsAs (s : List Char) (tokens : List Token) : Prop :=
  ∀ fuel, s.length ≤ fuel → tokensWithin? fuel s = some tokens

variable {c : Char} {s rest : List Char} {token : Token} {more : List Token}

/-- The empty text has no tokens. -/
theorem readsAs_nil : ReadsAs [] [] := fun fuel _ => by
  cases fuel <;> rfl

/-- A blank in front adds no token. -/
theorem ReadsAs.blank (h : ReadsAs s more) (hc : isJsonBlank c = true) : ReadsAs (c :: s) more := by
  intro fuel hfuel
  cases fuel with
  | zero => cases hfuel
  | succ fuel =>
    rw [tokensWithin?, if_pos hc]
    exact h fuel (Nat.le_of_succ_le_succ hfuel)

/-- A token of some characters in front of a text. -/
theorem ReadsAs.word (h : ReadsAs rest more) (c : Char) (word : List Char)
    (hc : isJsonBlank c = false) (htoken : token? c (word ++ rest) = some (token, rest)) :
    ReadsAs (c :: (word ++ rest)) (token :: more) := by
  intro fuel hfuel
  cases fuel with
  | zero => cases hfuel
  | succ fuel =>
    rw [List.length_cons, List.length_append] at hfuel
    rw [tokensWithin?, if_neg (by simp [hc]), htoken]
    show (do let tokens ← tokensWithin? fuel rest; pure (token :: tokens)) = _
    rw [h fuel (by omega)]
    rfl

/-- A token of one character in front of a text. -/
theorem ReadsAs.mark (h : ReadsAs s more) (c : Char) (hc : isJsonBlank c = false)
    (htoken : token? c s = some (token, s)) : ReadsAs (c :: s) (token :: more) :=
  h.word c [] hc htoken

/-- Neither does a line break of the layout. -/
theorem ReadsAs.break (h : ReadsAs s more) (layout : Layout) (depth : Nat) :
    ReadsAs (layout.break depth ++ s) more := by
  cases layout with
  | compact => exact h
  | indented =>
    rw [Layout.break, List.cons_append]
    refine ReadsAs.blank ?_ rfl
    induction 2 * depth with
    | zero => exact h
    | succ n ih => exact ih.blank rfl

/-- A colon is read in every layout. -/
theorem ReadsAs.colon (h : ReadsAs s more) (layout : Layout) :
    ReadsAs (layout.colon ++ s) (.colon :: more) := by
  cases layout with
  | compact => exact h.mark ':' rfl rfl
  | indented => exact (h.blank (c := ' ') rfl).mark ':' rfl rfl

/-- A quoted string is read as its token. -/
theorem ReadsAs.quoted (h : ReadsAs rest more) (value : String) :
    ReadsAs (quoted value ++ rest) (.str (some value) :: more) := by
  obtain ⟨parts, hread, hparts⟩ := stringBody?_quoted value.toList rest
  refine h.word '"' (value.toList.flatMap escaped ++ ['"']) rfl ?_
  rw [List.append_assoc, List.singleton_append, token?, hread]
  simp [hparts]

/-- What a number starts with. -/
def StartsNumber (c : Char) : Prop :=
  c.isDigit = true ∨ c = '-'

instance (c : Char) : Decidable (StartsNumber c) :=
  inferInstanceAs (Decidable (_ ∨ _))

/-- A number does not begin with a blank. -/
theorem StartsNumber.not_blank (hc : StartsNumber c) : isJsonBlank c = false := by
  by_contra hblank
  simp only [isJsonBlank, Bool.not_eq_false, Bool.or_eq_true, beq_iff_eq] at hblank
  rcases hblank with ((rfl | rfl) | rfl) | rfl <;> exact absurd hc (by decide)

/-- Where a number begins, a numeral is read. -/
theorem StartsNumber.token? (hc : StartsNumber c) (s : List Char) :
    token? c s = (numeral? (c :: s)).map fun found => (.num found.1.value?, found.2) := by
  unfold Json.token?
  split
  case h_11 => cases numeral? (c :: s) <;> rfl
  all_goals exact absurd hc (by decide)

/-- The text of an integer begins as a number does. -/
theorem exists_text_int (n : Int) : ∃ c s, StartsNumber c ∧ (Number.int n).text = c :: s := by
  rw [text_int]
  split
  · exact ⟨'-', _, .inr rfl, rfl⟩
  · obtain ⟨c, s, hc, hds⟩ := exists_toDigits n.natAbs
    exact ⟨c, s, .inl hc, hds⟩

/-- A number in range is read as its token. -/
theorem ReadsAs.number (h : ReadsAs rest more) {value : Number} (hvalue : value.IsExact)
    (hrest : EndsNumber rest) : ReadsAs (value.text ++ rest) (.num (some value) :: more) := by
  cases value with
  | real x => exact absurd hvalue id
  | int n =>
    have hread := numeral?_text n hrest
    obtain ⟨c, s, hc, htext⟩ := exists_text_int n
    rw [htext, List.cons_append] at hread ⊢
    refine h.word c s hc.not_blank ?_
    rw [hc.token?, hread, Option.map_some, value?_numeralOf hvalue]

/-! ### Values, their tokens and their trees -/

/-- A value that can be written: all its numbers are exact, and at most `depth` brackets are open at
    a time. -/
inductive Writable : Nat → Json → Prop where
  | null {depth : Nat} : Writable depth .null
  | bool {depth : Nat} (value : Bool) : Writable depth (.bool value)
  | num {depth : Nat} {value : Number} (h : value.IsExact) : Writable depth (.num value)
  | str {depth : Nat} (value : String) : Writable depth (.str value)
  | arr {depth : Nat} {items : List Json} (h : ∀ item ∈ items, Writable depth item) :
      Writable (depth + 1) (.arr items)
  | obj {depth : Nat} {fields : List (String × Json)}
      (h : ∀ field ∈ fields, Writable depth field.2) : Writable (depth + 1) (.obj fields)

mutual
/-- The tokens of a value. -/
def tokens : Json → List Token
  | .null => [.null]
  | .bool value => [.bool value]
  | .num value => [.num (some value)]
  | .str value => [.str (some value)]
  | .arr [] => [.openBracket, .closeBracket]
  | .arr (item :: items) => .openBracket :: item.tokens ++ itemTokens items ++ [.closeBracket]
  | .obj [] => [.openBrace, .closeBrace]
  | .obj ((key, value) :: fields) =>
    .openBrace :: .str (some key) :: .colon :: value.tokens ++ fieldTokens fields ++ [.closeBrace]

/-- The tokens of the items after the first. -/
def itemTokens : List Json → List Token
  | [] => []
  | item :: items => .comma :: item.tokens ++ itemTokens items

/-- The tokens of the fields after the first. -/
def fieldTokens : List (String × Json) → List Token
  | [] => []
  | (key, value) :: fields =>
    .comma :: .str (some key) :: .colon :: value.tokens ++ fieldTokens fields
end

mutual
/-- The tree of a value. -/
def tree : Json → Tree
  | .null => .null
  | .bool value => .bool value
  | .num value => .num (some value)
  | .str value => .str (some value)
  | .arr items => .arr (itemTrees items)
  | .obj fields => .obj (fieldTrees fields)

/-- The trees of some items. -/
def itemTrees : List Json → List Tree
  | [] => []
  | item :: items => item.tree :: itemTrees items

/-- The trees of some fields. -/
def fieldTrees : List (String × Json) → List (Option String × Tree)
  | [] => []
  | (key, value) :: fields => (some key, value.tree) :: fieldTrees fields
end

/-! ### The tokens of a rendered value -/

/-- Any character that does not continue a number ends it. -/
theorem endsNumber_cons (hc : c.isDigit = false ∧ c ≠ '.' ∧ c ≠ 'e' ∧ c ≠ 'E') :
    EndsNumber (c :: s) := by
  rintro c' ⟨⟩
  exact hc

/-- So does a line break of the layout, or what follows it. -/
theorem EndsNumber.break (h : EndsNumber s) (layout : Layout) (depth : Nat) :
    EndsNumber (layout.break depth ++ s) := by
  cases layout with
  | compact => exact h
  | indented => exact endsNumber_cons (by decide)

variable {items : List Json} {fields : List (String × Json)} {layout : Layout}

/-- So do further items, or what follows them. -/
theorem EndsNumber.renderItems (h : EndsNumber s) (depth : Nat) :
    EndsNumber (renderItems layout depth items ++ s) := by
  cases items with
  | nil => exact h
  | cons item items => exact endsNumber_cons (by decide)

/-- So do further fields, or what follows them. -/
theorem EndsNumber.renderFields (h : EndsNumber s) (depth : Nat) :
    EndsNumber (renderFields layout depth fields ++ s) := by
  cases fields with
  | nil => exact h
  | cons field fields => exact endsNumber_cons (by decide)

/-- A value is written as its tokens, in front of any text that does not belong to it. -/
def IsWritten (layout : Layout) (value : Json) : Prop :=
  ∀ depth rest more, EndsNumber rest → ReadsAs rest more →
    ReadsAs (renderAt layout depth value ++ rest) (value.tokens ++ more)

/-- Further items are read as their tokens. -/
theorem ReadsAs.renderItems (h : ReadsAs rest more) (hrest : EndsNumber rest)
    (hitems : ∀ item ∈ items, IsWritten layout item) (depth : Nat) :
    ReadsAs (renderItems layout depth items ++ rest) (itemTokens items ++ more) := by
  induction items with
  | nil => exact h
  | cons item items ih =>
    obtain ⟨hitem, hitems⟩ := List.forall_mem_cons.1 hitems
    have hread := (hitem depth _ _ (hrest.renderItems depth) (ih hitems)).break layout depth
    simpa [Json.renderItems, itemTokens] using hread.mark ',' rfl rfl

/-- Further fields are read as their tokens. -/
theorem ReadsAs.renderFields (h : ReadsAs rest more) (hrest : EndsNumber rest)
    (hfields : ∀ field ∈ fields, IsWritten layout field.2) (depth : Nat) :
    ReadsAs (renderFields layout depth fields ++ rest) (fieldTokens fields ++ more) := by
  induction fields with
  | nil => exact h
  | cons field fields ih =>
    obtain ⟨hfield, hfields⟩ := List.forall_mem_cons.1 hfields
    have hvalue := (hfield depth _ _ (hrest.renderFields depth) (ih hfields)).colon layout
    have hread := (hvalue.quoted field.1).break layout depth
    simpa [Json.renderFields, fieldTokens] using hread.mark ',' rfl rfl

/-- **The tokens of a rendered value.** Every value that can be written is written as its tokens. -/
theorem Writable.isWritten {depth : Nat} {value : Json} (h : Writable depth value)
    (layout : Layout) : IsWritten layout value := by
  induction h with
  | null =>
    intro depth rest more hrest hread
    exact hread.word 'n' ['u', 'l', 'l'] rfl rfl
  | bool value =>
    intro depth rest more hrest hread
    cases value with
    | true => exact hread.word 't' ['r', 'u', 'e'] rfl rfl
    | false => exact hread.word 'f' ['a', 'l', 's', 'e'] rfl rfl
  | num hvalue => exact fun depth rest more hrest hread => hread.number hvalue hrest
  | str value => exact fun depth rest more hrest hread => hread.quoted value
  | @arr _ items _ ih =>
    intro depth rest more hrest hread
    -- The text is put together from its end, one piece in front of the other.
    have hclosed : ReadsAs (']' :: rest) (.closeBracket :: more) := hread.mark ']' rfl rfl
    cases items with
    | nil => exact hclosed.mark '[' rfl rfl
    | cons item items =>
      obtain ⟨hitem, hitems⟩ := List.forall_mem_cons.1 ih
      have hends : EndsNumber (layout.break depth ++ ']' :: rest) :=
        (endsNumber_cons (by decide)).break layout depth
      have hmore := (hclosed.break layout depth).renderItems hends hitems (depth + 1)
      have hfirst :=
        (hitem (depth + 1) _ _ (hends.renderItems (depth + 1)) hmore).break layout (depth + 1)
      simpa [renderAt, tokens] using hfirst.mark '[' rfl rfl
  | @obj _ fields _ ih =>
    intro depth rest more hrest hread
    have hclosed : ReadsAs ('\x7d' :: rest) (.closeBrace :: more) := hread.mark '\x7d' rfl rfl
    cases fields with
    | nil => exact hclosed.mark '\x7b' rfl rfl
    | cons field fields =>
      obtain ⟨hfield, hfields⟩ := List.forall_mem_cons.1 ih
      have hends : EndsNumber (layout.break depth ++ '\x7d' :: rest) :=
        (endsNumber_cons (by decide)).break layout depth
      have hmore := (hclosed.break layout depth).renderFields hends hfields (depth + 1)
      have hvalue := (hfield (depth + 1) _ _ (hends.renderFields (depth + 1)) hmore).colon layout
      have hfirst := (hvalue.quoted field.1).break layout (depth + 1)
      simpa [renderAt, tokens] using hfirst.mark '\x7b' rfl rfl

/-- A rendered value is read as its tokens. -/
theorem Writable.tokens?_renderAt {depth : Nat} {value : Json} (h : Writable depth value)
    (layout : Layout) : tokens? (renderAt layout 0 value) = some value.tokens := by
  have hread := h.isWritten layout 0 [] [] endsNumber_nil readsAs_nil
  rw [List.append_nil, List.append_nil] at hread
  exact hread _ (Nat.le_refl _)

/-! ### The tree of a rendered value -/

/-- The tokens of a value are read as its tree, in front of any others. -/
def IsParsed (value : Json) : Prop :=
  ∀ fuel rest, value.tokens.length ≤ fuel →
    treeWithin? fuel (value.tokens ++ rest) = some (value.tree, rest)

/-- No value starts with a closing bracket, so an array with items is not taken for an empty one. -/
theorem tokens_ne_close (value : Json) (rest more : List Token) :
    value.tokens ++ rest ≠ .closeBracket :: more := by
  cases value with
  | arr items => cases items <;> simp [tokens]
  | obj fields => cases fields <;> simp [tokens]
  | _ => simp [tokens]

/-- The items of an array. Each uses one step of fuel, for which there is the comma or the bracket
    behind it. -/
theorem itemsWithin?_tokens {item : Json} (hitem : IsParsed item)
    (hitems : ∀ item ∈ items, IsParsed item) {fuel : Nat} {rest : List Token}
    (hfuel : item.tokens.length + (itemTokens items).length + 1 ≤ fuel) :
    itemsWithin? fuel (item.tokens ++ (itemTokens items ++ .closeBracket :: rest)) =
      some (item.tree :: itemTrees items, rest) := by
  induction items generalizing item fuel with
  | nil =>
    cases fuel with
    | zero => omega
    | succ fuel =>
      rw [itemsWithin?, hitem fuel _ (by omega)]
      rfl
  | cons next items ih =>
    cases fuel with
    | zero => omega
    | succ fuel =>
      obtain ⟨hnext, hitems⟩ := List.forall_mem_cons.1 hitems
      simp only [itemTokens, List.length_append, List.length_cons] at hfuel
      -- One unit of fuel goes for the item, the rest for those behind it.
      have hmore := @ih next hnext hitems fuel (by omega)
      rw [itemsWithin?, hitem fuel _ (by omega)]
      simp [itemTokens, hmore, itemTrees]

/-- The tokens of fields are read as their trees. -/
theorem fieldsWithin?_tokens {field : String × Json} (hfield : IsParsed field.2)
    (hfields : ∀ field ∈ fields, IsParsed field.2) {fuel : Nat} {rest : List Token}
    (hfuel : field.2.tokens.length + (fieldTokens fields).length + 1 ≤ fuel) :
    fieldsWithin? fuel
        (.str (some field.1) :: .colon
          :: (field.2.tokens ++ (fieldTokens fields ++ .closeBrace :: rest))) =
      some ((some field.1, field.2.tree) :: fieldTrees fields, rest) := by
  induction fields generalizing field fuel with
  | nil =>
    cases fuel with
    | zero => omega
    | succ fuel =>
      rw [fieldsWithin?, hfield fuel _ (by omega)]
      rfl
  | cons next fields ih =>
    cases fuel with
    | zero => omega
    | succ fuel =>
      obtain ⟨hnext, hfields⟩ := List.forall_mem_cons.1 hfields
      simp only [fieldTokens, List.length_append, List.length_cons] at hfuel
      have hmore := @ih next hnext hfields fuel (by omega)
      rw [fieldsWithin?, hfield fuel _ (by omega)]
      simp [fieldTokens, hmore, fieldTrees]

/-- **The tree of the tokens of a value.** The tokens of every such value are read as its tree. -/
theorem Writable.isParsed {depth : Nat} {value : Json} (h : Writable depth value) :
    IsParsed value := by
  induction h with
  | null | bool _ | num _ | str _ =>
    intro fuel rest hfuel
    cases fuel with
    | zero => cases hfuel
    | succ fuel => rfl
  | @arr _ items _ ih =>
    intro fuel rest hfuel
    cases fuel with
    | zero => cases items <;> simp [tokens] at hfuel
    | succ fuel =>
      cases items with
      | nil => rfl
      | cons item items =>
        obtain ⟨hitem, hitems⟩ := List.forall_mem_cons.1 ih
        simp only [tokens, List.length_append, List.length_cons, List.length_nil] at hfuel
        have hread := @itemsWithin?_tokens items item hitem hitems fuel rest (by omega)
        -- Only the first item has no comma in front of it.
        have htext : (Json.arr (item :: items)).tokens ++ rest =
            .openBracket :: (item.tokens ++ (itemTokens items ++ .closeBracket :: rest)) := by
          simp [tokens]
        rw [htext, treeWithin?, hread]
        · rfl
        · exact fun more hclose => tokens_ne_close _ _ _ hclose
  | @obj _ fields _ ih =>
    intro fuel rest hfuel
    cases fuel with
    | zero => cases fields <;> simp [tokens] at hfuel
    | succ fuel =>
      cases fields with
      | nil => rfl
      | cons field fields =>
        obtain ⟨hfield, hfields⟩ := List.forall_mem_cons.1 ih
        simp only [tokens, List.length_append, List.length_cons, List.length_nil] at hfuel
        have hread := @fieldsWithin?_tokens fields field hfield hfields fuel rest (by omega)
        have htext : (Json.obj (field :: fields)).tokens ++ rest
            = .openBrace :: .str (some field.1) :: .colon
            :: (field.2.tokens ++ (fieldTokens fields ++ .closeBrace :: rest)) := by
          simp [tokens]
        rw [htext, treeWithin?, hread]
        · rfl
        · rintro more ⟨⟩

/-- **A rendered value can be read.** In either layout it is read as its tree. -/
theorem Writable.tree?_render {depth : Nat} {value : Json} (h : Writable depth value)
    (layout : Layout) : tree? (render layout value).toList = some value.tree := by
  have hparsed := h.isParsed value.tokens.length [] (Nat.le_refl _)
  rw [List.append_nil] at hparsed
  rw [render, String.toList_ofList, tree?, h.tokens?_renderAt]
  simp [hparsed]

/-! ### The value of a tree -/

/-- The trees of items have the items for their values. -/
theorem values?_itemTrees {limit : Nat} (h : ∀ item ∈ items, item.tree.value? limit = some item) :
    Tree.values? limit (itemTrees items) = some items := by
  induction items with
  | nil => rfl
  | cons item items ih =>
    obtain ⟨hitem, hitems⟩ := List.forall_mem_cons.1 h
    simp [itemTrees, Tree.values?, hitem, ih hitems]

/-- The trees of fields have the fields for their values. -/
theorem fieldValues?_fieldTrees {limit : Nat}
    (h : ∀ field ∈ fields, field.2.tree.value? limit = some field.2) :
    Tree.fieldValues? limit (fieldTrees fields) = some fields := by
  induction fields with
  | nil => rfl
  | cons field fields ih =>
    obtain ⟨hfield, hfields⟩ := List.forall_mem_cons.1 h
    simp [fieldTrees, Tree.fieldValues?, hfield, ih hfields]

/-- The tree of a value has this value, unless too many brackets are open. -/
theorem Writable.value?_tree {depth : Nat} {value : Json} (h : Writable depth value) {limit : Nat}
    (hlimit : depth < limit) : value.tree.value? limit = some value := by
  induction h generalizing limit with
  | null | bool _ | num _ | str _ => rfl
  | @arr depth items _ ih =>
    obtain ⟨limit, rfl⟩ : ∃ n, limit = n + 2 := ⟨limit - 2, by omega⟩
    have hitems :=
      values?_itemTrees fun item hitem => ih item hitem (show depth < limit + 1 by omega)
    rw [tree, Tree.value?, hitems]
    rfl
  | @obj depth fields _ ih =>
    obtain ⟨limit, rfl⟩ : ∃ n, limit = n + 2 := ⟨limit - 2, by omega⟩
    have hfields :=
      fieldValues?_fieldTrees fun field hfield => ih field hfield (show depth < limit + 1 by omega)
    rw [tree, Tree.value?, hfields]
    rfl

end BlastRadius.Json
