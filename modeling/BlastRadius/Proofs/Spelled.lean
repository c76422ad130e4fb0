import BlastRadius.Proofs.Rendered

namespace BlastRadius.Json

/-!
# How tokens are written

What the tokens of a text are, said without reading it: a text is a row of blanks and of words, and
each word is written for a token.

* `NumberText`, `StringText` — how numbers and strings are written.
* `Written` — how a token is written.
* `Spelled` — a text is a row of tokens and blanks.
* `tokens?_eq_some_iff` — the tokens that are read from a text are those that it is a row of.
-/

/-! ### Numbers -/

/-- At least one digit. -/
def IsDigits (s : List Char) : Prop :=
  s ≠ [] ∧ ∀ c ∈ s, c.isDigit = true

/-- How the digits before the point are written: without a zero in front of others. -/
def WholeText (s : List Char) : Prop :=
  IsDigits s ∧ ¬((s.map digitValue).head? = some 0 ∧ (s.map digitValue).length ≠ 1)

/-- How the digits behind the point are written, if there is one. -/
inductive FractionText : List Char → Option (List Nat) → Prop where
  | absent : FractionText [] none
  | present {s : List Char} (hs : IsDigits s) : FractionText ('.' :: s) (some (s.map digitValue))

/-- How an exponent is written, if there is one. -/
inductive ExponentText : List Char → Option Exponent → Prop where
  | absent : ExponentText [] none
  | unsigned {mark : Char} {s : List Char} (hmark : mark = 'e' ∨ mark = 'E') (hs : IsDigits s) :
      ExponentText (mark :: s) (some ⟨false, s.map digitValue⟩)
  | negative {mark : Char} {s : List Char} (hmark : mark = 'e' ∨ mark = 'E') (hs : IsDigits s) :
      ExponentText (mark :: '-' :: s) (some ⟨true, s.map digitValue⟩)
  | positive {mark : Char} {s : List Char} (hmark : mark = 'e' ∨ mark = 'E') (hs : IsDigits s) :
      ExponentText (mark :: '+' :: s) (some ⟨false, s.map digitValue⟩)

/-- How a number is written. -/
inductive NumberText : List Char → Numeral → Prop where
  | unsigned {whole fraction exponent : List Char} {f : Option (List Nat)} {e : Option Exponent}
      (hwhole : WholeText whole) (hfraction : FractionText fraction f)
      (hexponent : ExponentText exponent e) :
      NumberText (whole ++ (fraction ++ exponent)) ⟨false, whole.map digitValue, f, e⟩
  | negative {whole fraction exponent : List Char} {f : Option (List Nat)} {e : Option Exponent}
      (hwhole : WholeText whole) (hfraction : FractionText fraction f)
      (hexponent : ExponentText exponent e) :
      NumberText ('-' :: (whole ++ (fraction ++ exponent))) ⟨true, whole.map digitValue, f, e⟩

section
variable {s word rest : List Char} {ds : List Nat} {f : Option (List Nat)}
  {e : Option Exponent} {n : Numeral}

/-- What stands behind digits is none. -/
def EndsDigits (s : List Char) : Prop :=
  ∀ c ∈ s.head?, c.isDigit = false

/-- What ends a number ends digits. -/
theorem EndsNumber.endsDigits (h : EndsNumber rest) : EndsDigits rest := fun c hc => (h c hc).1

/-- Digits have a first one. -/
theorem IsDigits.exists_cons (h : IsDigits s) : ∃ c t, s = c :: t ∧ c.isDigit = true := by
  obtain ⟨c, t, rfl⟩ := List.exists_cons_of_ne_nil h.1
  exact ⟨c, t, rfl, h.2 c List.mem_cons_self⟩

/-- Digits are read up to something else. -/
theorem digits_eq (s : List Char) :
    ∃ word, s = word ++ (digits s).2 ∧ (digits s).1 = word.map digitValue ∧
      (∀ c ∈ word, c.isDigit = true) ∧ EndsDigits (digits s).2 := by
  induction s with
  | nil => exact ⟨[], rfl, rfl, by simp, nofun⟩
  | cons c s ih =>
    by_cases hc : c.isDigit = true
    · obtain ⟨word, hs, hds, hword, hends⟩ := ih
      have hdigits : digits (c :: s) = (digitValue c :: (digits s).1, (digits s).2) := by
        simp [digits, digit?, hc, digitValue]
      rw [hdigits]
      exact ⟨c :: word, congrArg (c :: ·) hs, congrArg (digitValue c :: ·) hds,
        List.forall_mem_cons.2 ⟨hc, hword⟩, hends⟩
    · have hdigits : digits (c :: s) = ([], c :: s) := by simp [digits, digit?, hc]
      rw [hdigits]
      exact ⟨[], rfl, rfl, by simp, by simpa [EndsDigits] using hc⟩

/-- Digits are read exactly where they are written, and end. -/
theorem digits1?_eq_some :
    digits1? s = some (ds, rest) ↔
      ∃ word, s = word ++ rest ∧ ds = word.map digitValue ∧ IsDigits word ∧ EndsDigits rest := by
  constructor
  · intro h
    obtain ⟨word, hs, hds, hword, hends⟩ := digits_eq s
    unfold digits1? at h
    split at h
    · cases h
    · -- At least one digit was read.
      next hne =>
      have heq : digits s = (ds, rest) := Option.some.inj h
      rw [heq] at hs hds hends
      refine ⟨word, hs, hds, ⟨?_, hword⟩, hends⟩
      rintro rfl
      exact hne rest (heq.trans (by rw [show ds = [] from hds]))
  · rintro ⟨word, rfl, rfl, ⟨hne, hword⟩, hends⟩
    rw [digits1?, digits_append hword hends]
    cases word with
    | nil => exact absurd rfl hne
    | cons c word => rfl

/-- So is a whole part. -/
theorem whole?_eq_some :
    whole? s = some (ds, rest) ↔
      ∃ word, s = word ++ rest ∧ ds = word.map digitValue ∧ WholeText word ∧ EndsDigits rest := by
  constructor
  · intro h
    obtain ⟨⟨ds', rest'⟩, hdigits, hfound⟩ := Option.bind_eq_some_iff.1 h
    obtain ⟨word, rfl, rfl, hword, hends⟩ := digits1?_eq_some.1 hdigits
    dsimp only at hfound
    split at hfound
    · cases hfound
    · next hzero =>
      cases hfound
      exact ⟨word, rfl, rfl, ⟨hword, hzero⟩, hends⟩
  · rintro ⟨word, rfl, rfl, hword, hends⟩
    rw [whole?, digits1?_eq_some.2 ⟨word, rfl, rfl, hword.1, hends⟩]
    exact if_neg hword.2

/-- A fraction that is read is written. -/
theorem exists_fractionText (h : fraction? s = some (f, rest)) (hs : EndsDigits s) :
    ∃ word, s = word ++ rest ∧ FractionText word f ∧ EndsDigits rest := by
  unfold fraction? at h
  split at h
  · next s =>
    obtain ⟨⟨ds, rest'⟩, hdigits, hfound⟩ := Option.bind_eq_some_iff.1 h
    cases hfound
    obtain ⟨word, rfl, rfl, hword, hends⟩ := digits1?_eq_some.1 hdigits
    exact ⟨'.' :: word, rfl, .present hword, hends⟩
  · cases h
    exact ⟨[], rfl, .absent, hs⟩

/-- A fraction that is written is read. -/
theorem FractionText.fraction? (h : FractionText word f) (hrest : EndsDigits rest)
    (hpoint : rest.head? ≠ some '.') : Json.fraction? (word ++ rest) = some (f, rest) := by
  cases h with
  | absent =>
    rw [List.nil_append, Json.fraction?]
    rintro s rfl
    exact hpoint rfl
  | present hs =>
    rw [List.cons_append, Json.fraction?, digits1?_eq_some.2 ⟨_, rfl, rfl, hs, hrest⟩]
    rfl

/-- An exponent has a minus sign, a plus sign or none. -/
theorem exponentSign_cases (s : List Char) :
    (∃ t, s = '-' :: t ∧ exponentSign s = (true, t)) ∨
    (∃ t, s = '+' :: t ∧ exponentSign s = (false, t)) ∨
      exponentSign s = (false, s) := by
  unfold exponentSign
  split
  · next t => exact .inl ⟨t, rfl, rfl⟩
  · next t => exact .inr (.inl ⟨t, rfl, rfl⟩)
  · exact .inr (.inr rfl)

/-- What stands behind the sign of an exponent. -/
theorem exists_exponentDigits {isNegative : Bool} (h : (do
    let (digits, rest) ← digits1? s
    return (some ({ isNegative, digits } : Exponent), rest)) = some (e, rest)) :
    ∃ word, s = word ++ rest ∧ IsDigits word ∧ e = some ⟨isNegative, word.map digitValue⟩ ∧
      EndsDigits rest := by
  obtain ⟨⟨ds, rest'⟩, hdigits, hfound⟩ := Option.bind_eq_some_iff.1 h
  cases hfound
  obtain ⟨word, rfl, rfl, hword, hends⟩ := digits1?_eq_some.1 hdigits
  exact ⟨word, rfl, hword, rfl, hends⟩

/-- An exponent that is read is written. -/
theorem exists_exponentText (h : exponent? s = some (e, rest)) (hs : EndsDigits s) :
    ∃ word, s = word ++ rest ∧ ExponentText word e ∧ EndsDigits rest := by
  cases s with
  | nil =>
    cases h
    exact ⟨[], rfl, .absent, hs⟩
  | cons mark s =>
    rw [exponent?] at h
    split at h
    · next hmark =>
      -- One case for each sign.
      rcases exponentSign_cases s with ⟨t, rfl, hsign⟩ | ⟨t, rfl, hsign⟩ | hsign
      · rw [hsign] at h
        obtain ⟨word, rfl, hword, rfl, hends⟩ := exists_exponentDigits h
        exact ⟨mark :: '-' :: word, rfl, .negative hmark hword, hends⟩
      · rw [hsign] at h
        obtain ⟨word, rfl, hword, rfl, hends⟩ := exists_exponentDigits h
        exact ⟨mark :: '+' :: word, rfl, .positive hmark hword, hends⟩
      · rw [hsign] at h
        obtain ⟨word, rfl, hword, rfl, hends⟩ := exists_exponentDigits h
        exact ⟨mark :: word, rfl, .unsigned hmark hword, hends⟩
    · cases h
      exact ⟨[], rfl, .absent, hs⟩

/-- An exponent that is written is read. -/
theorem ExponentText.exponent? (h : ExponentText word e) (hrest : EndsNumber rest) :
    Json.exponent? (word ++ rest) = some (e, rest) := by
  cases h with
  | absent => exact exponent?_of_endsNumber hrest
  | @unsigned mark s hmark hs =>
    obtain ⟨c, t, rfl, hc⟩ := hs.exists_cons
    -- A digit comes next, so no sign is read.
    have hsign : exponentSign (c :: t ++ rest) = (false, c :: t ++ rest) := by
      rcases exponentSign_cases (c :: t ++ rest) with ⟨t, heq, -⟩ | ⟨t, heq, -⟩ | hsign
      · cases heq
        cases hc
      · cases heq
        cases hc
      · exact hsign
    rw [List.cons_append, Json.exponent?, if_pos hmark, hsign]
    dsimp only
    rw [digits1?_eq_some.2 ⟨_, rfl, rfl, hs, hrest.endsDigits⟩]
    rfl
  | @negative mark s hmark hs =>
    rw [List.cons_append, List.cons_append, Json.exponent?, if_pos hmark,
      show exponentSign ('-' :: (s ++ rest)) = (true, s ++ rest) from rfl]
    dsimp only
    rw [digits1?_eq_some.2 ⟨_, rfl, rfl, hs, hrest.endsDigits⟩]
    rfl
  | @positive mark s hmark hs =>
    rw [List.cons_append, List.cons_append, Json.exponent?, if_pos hmark,
      show exponentSign ('+' :: (s ++ rest)) = (false, s ++ rest) from rfl]
    dsimp only
    rw [digits1?_eq_some.2 ⟨_, rfl, rfl, hs, hrest.endsDigits⟩]
    rfl

/-- What stands behind the digits before the point. -/
theorem ExponentText.ends (h : ExponentText word e) (hrest : EndsNumber rest) :
    EndsDigits (word ++ rest) ∧ (word ++ rest).head? ≠ some '.' := by
  have hmark : ∀ {mark : Char} {s : List Char}, mark = 'e' ∨ mark = 'E' →
      EndsDigits (mark :: s) ∧ (mark :: s).head? ≠ some '.' := by
    rintro mark s (rfl | rfl) <;> simp [EndsDigits]
  cases h with
  | absent => exact ⟨hrest.endsDigits, fun h => (hrest '.' h).2.1 rfl⟩
  | unsigned h _ | negative h _ | positive h _ => exact hmark h

/-- A fraction ends the digits in front of it. -/
theorem FractionText.ends (h : FractionText word f) (hrest : EndsDigits rest) :
    EndsDigits (word ++ rest) := by
  cases h with
  | absent => exact hrest
  | present _ => simp [EndsDigits]

/-- What stands behind the sign of a number. -/
theorem exists_unsignedText {isNegative : Bool} (h : (do
    let (whole, s) ← whole? s
    let (fraction, s) ← fraction? s
    let (exponent, s) ← exponent? s
    return (({ isNegative, whole, fraction, exponent } : Numeral), s)) = some (n, rest)) :
    ∃ whole fraction exponent f e, s = whole ++ (fraction ++ exponent) ++ rest ∧ WholeText whole ∧
      FractionText fraction f ∧ ExponentText exponent e ∧
      n = ⟨isNegative, whole.map digitValue, f, e⟩ ∧ EndsDigits rest := by
  obtain ⟨⟨ds, s₁⟩, hreadWhole, h⟩ := Option.bind_eq_some_iff.1 h
  obtain ⟨⟨f, s₂⟩, hreadFraction, h⟩ := Option.bind_eq_some_iff.1 h
  obtain ⟨⟨e, s₃⟩, hreadExponent, h⟩ := Option.bind_eq_some_iff.1 h
  cases h
  obtain ⟨whole, rfl, rfl, hwhole, hends⟩ := whole?_eq_some.1 hreadWhole
  obtain ⟨fraction, rfl, hfraction, hends⟩ := exists_fractionText hreadFraction hends
  obtain ⟨exponent, rfl, hexponent, hends⟩ := exists_exponentText hreadExponent hends
  exact ⟨whole, fraction, exponent, f, e, by simp, hwhole, hfraction, hexponent, rfl, hends⟩

/-- A number that is read is written. -/
theorem exists_numberText (h : numeral? s = some (n, rest)) :
    ∃ word, s = word ++ rest ∧ NumberText word n ∧ EndsDigits rest := by
  unfold numeral? at h
  split at h
  next isNegative s' hsign =>
  obtain ⟨whole, fraction, exponent, f, e, rfl, hwhole, hfraction, hexponent, rfl, hends⟩ :=
    exists_unsignedText h
  split at hsign
  · cases hsign
    exact ⟨_, rfl, .negative hwhole hfraction hexponent, hends⟩
  · cases hsign
    exact ⟨_, rfl, .unsigned hwhole hfraction hexponent, hends⟩

/-- A number that is written is read. -/
theorem NumberText.numeral? (h : NumberText word n) (hrest : EndsNumber rest) :
    Json.numeral? (word ++ rest) = some (n, rest) := by
  cases h with
  | @unsigned whole fraction exponent f e hwhole hfraction hexponent =>
    obtain ⟨hends, hpoint⟩ := hexponent.ends hrest
    have hread := whole?_eq_some.2 ⟨whole, rfl, rfl, hwhole, hfraction.ends hends⟩
    -- A digit comes first, so no minus sign is read.
    have hsign : ∀ s, whole ++ (fraction ++ (exponent ++ rest)) = '-' :: s → False := by
      intro s heq
      obtain ⟨c, t, rfl, hc⟩ := hwhole.1.exists_cons
      cases heq
      cases hc
    rw [List.append_assoc, List.append_assoc, Json.numeral?.eq_2 _ hsign]
    simp [hread, hfraction.fraction? hends hpoint, hexponent.exponent? hrest]
  | @negative whole fraction exponent f e hwhole hfraction hexponent =>
    obtain ⟨hends, hpoint⟩ := hexponent.ends hrest
    have hread := whole?_eq_some.2 ⟨whole, rfl, rfl, hwhole, hfraction.ends hends⟩
    rw [List.cons_append, List.append_assoc, List.append_assoc, Json.numeral?]
    simp [hread, hfraction.fraction? hends hpoint, hexponent.exponent? hrest]

/-- The characters that numbers are made of. -/
def InNumber (c : Char) : Prop :=
  c.isDigit = true ∨ c ∈ ['-', '+', '.', 'e', 'E']

/-- A fraction has characters of numbers. -/
theorem FractionText.inNumber (h : FractionText word f) : ∀ c ∈ word, InNumber c := by
  cases h with
  | absent => exact nofun
  | present hs => exact List.forall_mem_cons.2 ⟨.inr (by simp), fun c hc => .inl (hs.2 c hc)⟩

/-- So has an exponent. -/
theorem ExponentText.inNumber (h : ExponentText word e) : ∀ c ∈ word, InNumber c := by
  have hmark : ∀ {mark : Char}, mark = 'e' ∨ mark = 'E' → InNumber mark := by
    rintro mark (rfl | rfl) <;> exact .inr (by simp)
  cases h with
  | absent => exact nofun
  | unsigned h hs => exact List.forall_mem_cons.2 ⟨hmark h, fun c hc => .inl (hs.2 c hc)⟩
  | negative h hs | positive h hs =>
    exact List.forall_mem_cons.2
      ⟨hmark h, List.forall_mem_cons.2 ⟨.inr (by simp), fun c hc => .inl (hs.2 c hc)⟩⟩

/-- So has a number. -/
theorem NumberText.inNumber (h : NumberText word n) : ∀ c ∈ word, InNumber c := by
  have hparts : ∀ {whole fraction exponent f e}, WholeText whole → FractionText fraction f →
      ExponentText exponent e → ∀ c ∈ whole ++ (fraction ++ exponent), InNumber c := by
    intro whole fraction exponent f e hwhole hfraction hexponent c hc
    rcases List.mem_append.1 hc with hc | hc
    · exact .inl (hwhole.1.2 c hc)
    · exact (List.mem_append.1 hc).elim (hfraction.inNumber c) (hexponent.inNumber c)
  cases h with
  | unsigned hwhole hfraction hexponent => exact hparts hwhole hfraction hexponent
  | negative hwhole hfraction hexponent =>
    exact List.forall_mem_cons.2 ⟨.inr (by simp), hparts hwhole hfraction hexponent⟩

/-- A number begins with a digit or a minus sign. -/
theorem NumberText.startsNumber (h : NumberText word n) :
    ∃ c s, word = c :: s ∧ StartsNumber c := by
  cases h with
  | unsigned hwhole _ _ =>
    obtain ⟨c, s, rfl, hc⟩ := hwhole.1.exists_cons
    exact ⟨c, _, rfl, .inl hc⟩
  | negative _ _ _ => exact ⟨'-', _, rfl, .inr rfl⟩

end

/-! ### Strings -/

/-- How the parts of a string are written. -/
inductive StringText : List Char → List Part → Prop where
  | nil : StringText [] []
  | unit {a b c d : Char} {n : Nat} {s : List Char} {parts : List Part}
      (hn : unit? a b c d = some n) (hs : StringText s parts) :
      StringText ('\\' :: 'u' :: a :: b :: c :: d :: s) (.unit n :: parts)
  | escape {letter c : Char} {s : List Char} {parts : List Part} (hc : escape? letter = some c)
      (hs : StringText s parts) : StringText ('\\' :: letter :: s) (.char c :: parts)
  | plain {c : Char} {s : List Char} {parts : List Part} (hquote : c ≠ '"') (hslash : c ≠ '\\')
      (hcontrol : ¬c.toNat < 0x20) (hs : StringText s parts) :
      StringText (c :: s) (.char c :: parts)

section
variable {s body rest : List Char} {parts : List Part}

/-- The digits of a unit belong to it: none is a comma, a quotation mark, a backslash or a
    newline. -/
theorem digits_of_unit? {a b c d : Char} {n : Nat} (h : unit? a b c d = some n) :
    ∀ x ∈ [a, b, c, d], x ∉ [',', '"', '\\', '\n'] := by
  have hdigit : ∀ {x m}, hexDigit? x = some m → x ∉ [',', '"', '\\', '\n'] := by
    intro x m hx hmem
    simp only [List.mem_cons, List.not_mem_nil, or_false] at hmem
    rcases hmem with rfl | rfl | rfl | rfl <;> cases hx
  obtain ⟨na, ha, h⟩ := Option.bind_eq_some_iff.1 h
  obtain ⟨nb, hb, h⟩ := Option.bind_eq_some_iff.1 h
  obtain ⟨nc, hc, h⟩ := Option.bind_eq_some_iff.1 h
  obtain ⟨nd, hd, -⟩ := Option.bind_eq_some_iff.1 h
  simp only [List.forall_mem_cons]
  exact ⟨hdigit ha, hdigit hb, hdigit hc, hdigit hd, nofun⟩

/-- The letters that can be escaped. -/
theorem letter_of_escape? {letter c : Char} (h : escape? letter = some c) :
    letter ∈ ['"', '\\', '/', 'b', 'f', 'n', 'r', 't'] := by
  unfold escape? at h
  split at h
  case h_9 => cases h
  all_goals decide

/-- A string that is read is written. -/
theorem exists_stringText (h : stringBody? s = some (parts, rest)) :
    ∃ body, s = body ++ '"' :: rest ∧ StringText body parts := by
  -- Every equation of the definition is one kind of part.
  fun_induction stringBody? s generalizing parts with
  | case1 => cases h
  | case2 s =>
    cases h
    exact ⟨[], rfl, .nil⟩
  | case3 a b c d s ih =>
    obtain ⟨n, hn, h⟩ := Option.bind_eq_some_iff.1 h
    obtain ⟨⟨parts', rest'⟩, hs, h⟩ := Option.bind_eq_some_iff.1 h
    cases h
    obtain ⟨body, rfl, hbody⟩ := ih hs
    exact ⟨_, rfl, .unit hn hbody⟩
  | case4 letter s _ ih =>
    obtain ⟨c, hc, h⟩ := Option.bind_eq_some_iff.1 h
    obtain ⟨⟨parts', rest'⟩, hs, h⟩ := Option.bind_eq_some_iff.1 h
    cases h
    obtain ⟨body, rfl, hbody⟩ := ih hs
    exact ⟨_, rfl, .escape hc hbody⟩
  | case5 => cases h
  | case6 c s hquote _ _ hplain ih =>
    obtain ⟨⟨parts', rest'⟩, hs, h⟩ := Option.bind_eq_some_iff.1 h
    cases h
    obtain ⟨body, rfl, hbody⟩ := ih hs
    rw [not_or] at hplain
    exact ⟨_, rfl, .plain hquote hplain.2 hplain.1 hbody⟩

/-- A string that is written is read. -/
theorem StringText.stringBody? (h : StringText body parts) (rest : List Char) :
    Json.stringBody? (body ++ '"' :: rest) = some (parts, rest) := by
  induction h with
  | nil => rfl
  | unit hn _ ih =>
    simp only [List.cons_append]
    rw [Json.stringBody?, hn, ih]
    rfl
  | escape hc _ ih =>
    have hletter : ∀ {letter c : Char}, escape? letter = some c → letter ≠ 'u' := by
      rintro letter c hc rfl
      cases hc
    rw [List.cons_append, List.cons_append, stringBody?_escape (hletter hc) hc, ih]
    rfl
  | plain hquote hslash hcontrol _ ih =>
    rw [List.cons_append, stringBody?_plain hquote hslash hcontrol, ih]
    rfl

end

/-! ### Tokens -/

/-- The tokens that are always written alike. -/
def fixedTexts : List (List Char × Token) := [
  (['\x7b'], .openBrace), (['\x7d'], .closeBrace), (['['], .openBracket), ([']'], .closeBracket),
  ([':'], .colon), ([','], .comma),
  (['n', 'u', 'l', 'l'], .null), (['t', 'r', 'u', 'e'], .bool true),
  (['f', 'a', 'l', 's', 'e'], .bool false)]

/-- How a token is written. -/
inductive Written : List Char → Token → Prop where
  | fixed {word : List Char} {token : Token} (h : (word, token) ∈ fixedTexts) : Written word token
  | num {word : List Char} {n : Numeral} (h : NumberText word n) : Written word (.num n.value?)
  | str {body : List Char} {parts : List Part} (h : StringText body parts) :
      Written ('"' :: (body ++ ['"'])) (.str ((assemble? parts).map String.ofList))

/-- What stands behind a token does not belong to it. -/
def Token.EndsAt : Token → List Char → Prop
  | .num _, s => EndsNumber s
  | _, _ => True

/-- A text is a row of tokens, with blanks between them. -/
inductive Spelled : List Char → List Token → Prop where
  | nil : Spelled [] []
  | blank {c : Char} {s : List Char} {tokens : List Token} (hc : isJsonBlank c = true)
      (hs : Spelled s tokens) : Spelled (c :: s) tokens
  | token {word s : List Char} {token : Token} {tokens : List Token} (hword : Written word token)
      (hends : token.EndsAt s) (hs : Spelled s tokens) : Spelled (word ++ s) (token :: tokens)

section
variable {c : Char} {word s rest : List Char} {token : Token} {tokens : List Token}

/-- A token that is always written alike is read wherever it stands. -/
theorem token?_fixed (h : (word, token) ∈ fixedTexts) :
    ∃ c w, word = c :: w ∧ isJsonBlank c = false ∧ c ∉ ['.', 'e', 'E'] ∧
      ∀ rest, token? c (w ++ rest) = some (token, rest) := by
  revert h
  simp only [fixedTexts, List.mem_cons, List.not_mem_nil, or_false, Prod.mk.injEq]
  rintro (⟨rfl, rfl⟩ | ⟨rfl, rfl⟩ | ⟨rfl, rfl⟩ | ⟨rfl, rfl⟩ | ⟨rfl, rfl⟩ | ⟨rfl, rfl⟩ | ⟨rfl,
    rfl⟩ | ⟨rfl, rfl⟩ | ⟨rfl, rfl⟩) <;> exact ⟨_, _, rfl, rfl, by decide, fun _ => rfl⟩

/-- A token has a first character, and is read from there. -/
theorem Written.exists_cons (h : Written word token) :
    ∃ c w, word = c :: w ∧ isJsonBlank c = false ∧ c ∉ ['.', 'e', 'E'] ∧
      ∀ rest, token.EndsAt rest → token? c (w ++ rest) = some (token, rest) := by
  cases h with
  | fixed h =>
    obtain ⟨c, w, rfl, hblank, hstart, hread⟩ := token?_fixed h
    exact ⟨c, w, rfl, hblank, hstart, fun rest _ => hread rest⟩
  | num h =>
    obtain ⟨c, w, rfl, hc⟩ := h.startsNumber
    refine ⟨c, w, rfl, hc.not_blank, ?_, fun rest hrest => ?_⟩
    · intro hmem
      simp only [List.mem_cons, List.not_mem_nil, or_false] at hmem
      rcases hmem with rfl | rfl | rfl <;> exact absurd hc (by decide)
    · rw [hc.token?, ← List.cons_append, h.numeral? hrest]
      rfl
  | str h =>
    refine ⟨'"', _, rfl, rfl, by decide, fun rest _ => ?_⟩
    rw [List.append_assoc, List.singleton_append, token?, h.stringBody?]
    rfl

/-- A token is read from a text as it is written. -/
theorem exists_written (h : token? c s = some (token, rest))
    (hrest : ∀ c ∈ rest.head?, c ∉ ['.', 'e', 'E']) :
    ∃ word, c :: s = word ++ rest ∧ Written word token ∧ token.EndsAt rest := by
  have hfixed : ∀ word, (word, token) ∈ fixedTexts → token.EndsAt rest →
      ∃ word', word ++ rest = word' ++ rest ∧ Written word' token ∧ token.EndsAt rest :=
    fun word hword hends => ⟨word, rfl, .fixed hword, hends⟩
  unfold token? at h
  split at h
  -- All but strings and numbers are fixed texts.
  case h_10 s =>
    obtain ⟨⟨parts, rest'⟩, hread, h⟩ := Option.bind_eq_some_iff.1 h
    cases h
    obtain ⟨body, rfl, hbody⟩ := exists_stringText hread
    exact ⟨'"' :: (body ++ ['"']), by simp, .str hbody, trivial⟩
  case h_11 =>
    obtain ⟨⟨n, rest'⟩, hread, h⟩ := Option.bind_eq_some_iff.1 h
    cases h
    obtain ⟨word, hword, hnumber, hends⟩ := exists_numberText hread
    refine ⟨word, hword, .num hnumber, fun c hc => ⟨hends c hc, ?_⟩⟩
    simpa using hrest c hc
  all_goals cases h
  · exact hfixed ['\x7b'] (by simp [fixedTexts]) trivial
  · exact hfixed ['\x7d'] (by simp [fixedTexts]) trivial
  · exact hfixed ['['] (by simp [fixedTexts]) trivial
  · exact hfixed [']'] (by simp [fixedTexts]) trivial
  · exact hfixed [':'] (by simp [fixedTexts]) trivial
  · exact hfixed [','] (by simp [fixedTexts]) trivial
  · exact hfixed ['n', 'u', 'l', 'l'] (by simp [fixedTexts]) trivial
  · exact hfixed ['t', 'r', 'u', 'e'] (by simp [fixedTexts]) trivial
  · exact hfixed ['f', 'a', 'l', 's', 'e'] (by simp [fixedTexts]) trivial

/-- A text of tokens does not continue a number. -/
theorem Spelled.head_not_mem (h : Spelled s tokens) : ∀ c ∈ s.head?, c ∉ ['.', 'e', 'E'] := by
  cases h with
  | nil => exact nofun
  | blank hc _ =>
    rintro c ⟨⟩ hmem
    simp only [List.mem_cons, List.not_mem_nil, or_false] at hmem
    rcases hmem with rfl | rfl | rfl <;> cases hc
  | token hword _ _ =>
    obtain ⟨c, w, rfl, -, hstart, -⟩ := hword.exists_cons
    rintro c' ⟨⟩
    exact hstart

/-- A text that is read as tokens spells them. -/
theorem spelled_of_tokensWithin? {fuel : Nat} (h : tokensWithin? fuel s = some tokens) :
    Spelled s tokens := by
  induction fuel generalizing s tokens with
  | zero =>
    cases s with
    | nil =>
      cases h
      exact .nil
    | cons c s => cases h
  | succ fuel ih =>
    cases s with
    | nil =>
      cases h
      exact .nil
    | cons c s =>
      rw [tokensWithin?] at h
      split at h
      · next hc => exact .blank hc (ih h)
      · obtain ⟨⟨token, rest⟩, htoken, h⟩ := Option.bind_eq_some_iff.1 h
        obtain ⟨more, hmore, h⟩ := Option.bind_eq_some_iff.1 h
        cases h
        -- What follows spells tokens too, so it does not continue a number.
        have hrest := ih hmore
        obtain ⟨word, hword, hwritten, hends⟩ := exists_written htoken hrest.head_not_mem
        rw [hword]
        exact .token hwritten hends hrest

/-- A text that spells tokens is read as them. -/
theorem Spelled.readsAs (h : Spelled s tokens) : ReadsAs s tokens := by
  induction h with
  | nil => exact readsAs_nil
  | blank hc _ ih => exact ih.blank hc
  | token hword hends _ ih =>
    obtain ⟨c, w, rfl, hblank, -, hread⟩ := hword.exists_cons
    exact ih.word c w hblank (hread _ hends)

/-- **What is read.** The tokens of a text are those that it is a row of. -/
theorem tokens?_eq_some_iff : tokens? s = some tokens ↔ Spelled s tokens :=
  ⟨spelled_of_tokensWithin?, fun h => h.readsAs _ (Nat.le_refl _)⟩

end

end BlastRadius.Json
