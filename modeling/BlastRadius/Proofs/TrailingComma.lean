import BlastRadius.Json.Relaxed
import BlastRadius.Proofs.Spelled
import BlastRadius.Proofs.TokenTree

namespace BlastRadius.Json

/-!
# Dropping trailing commas

Commas that stand before a closing bracket are dropped wherever they are, also between quotation
marks. There they are plain characters of the string, so what is left is still a string.

* `KeepsCommas` — no comma of a text is dropped (`dropTrailingCommas_eq_self_iff`).
* `Thinned`, `StringText.dropped` — a string without some of its commas.
* `literals` — what stands between the quotation marks of a text.
* `Drops`, `Spelled.dropped` — a row of tokens stays one with the same tokens, up to trailing commas
  in strings.
-/

open Text

/-! ### Trailing commas -/

section
variable {c : Char} {word s : List Char}

/-- Everything but a comma is kept. -/
theorem dropTrailingCommas_cons (hc : c ≠ ',') (s : List Char) :
    dropTrailingCommas (c :: s) = c :: dropTrailingCommas s := by
  rw [dropTrailingCommas, if_neg fun h => hc h.1]

/-- A comma is kept where no bracket closes next. -/
theorem dropTrailingCommas_comma (h : closesNext s = false) :
    dropTrailingCommas (',' :: s) = ',' :: dropTrailingCommas s := by
  rw [dropTrailingCommas, if_neg (by simp [h])]

/-- A word without commas is kept. -/
theorem dropTrailingCommas_append (hword : ',' ∉ word) (s : List Char) :
    dropTrailingCommas (word ++ s) = word ++ dropTrailingCommas s := by
  induction word with
  | nil => rfl
  | cons c word ih =>
    rw [List.mem_cons, not_or] at hword
    rw [List.cons_append, dropTrailingCommas_cons (Ne.symm hword.1), ih hword.2]
    rfl

/-- A blank does not count. -/
theorem closesNext_blank (hc : isBlank c = true) (s : List Char) :
    closesNext (c :: s) = closesNext s := by
  rw [closesNext, List.dropWhile_cons_of_pos hc]
  rfl

/-- Any other character decides. -/
theorem closesNext_cons (hc : isBlank c = false) (s : List Char) :
    closesNext (c :: s) = (c == ']' || c == '\x7d') := by
  rw [closesNext, List.dropWhile_cons_of_neg (by simp [hc])]
  split
  · next heq => cases heq; rfl
  · next heq => cases heq; rfl
  · next hbracket hbrace =>
    have hne : c ≠ ']' ∧ c ≠ '\x7d' :=
      ⟨fun h => hbracket s (by rw [h]), fun h => hbrace s (by rw [h])⟩
    simp [hne]

/-- A quote closes nothing, so what follows it does not count. -/
theorem closesNext_append_quote (s rest : List Char) :
    closesNext (s ++ '"' :: rest) = closesNext s := by
  induction s with
  | nil => rfl
  | cons c s ih =>
    rw [List.cons_append]
    cases hc : isBlank c with
    | true => rw [closesNext_blank hc, closesNext_blank hc, ih]
    | false => rw [closesNext_cons hc, closesNext_cons hc]

/-- What is dropped in front of a quotation mark does not depend on what stands behind it. -/
theorem dropTrailingCommas_append_quote (s rest : List Char) :
    dropTrailingCommas (s ++ '"' :: rest)
      = dropTrailingCommas s ++ '"' :: dropTrailingCommas rest := by
  induction s with
  | nil => exact dropTrailingCommas_cons (by decide) rest
  | cons c s ih =>
    rw [List.cons_append, dropTrailingCommas, dropTrailingCommas, closesNext_append_quote, ih]
    split
    · rfl
    · rfl

/-- No comma of a text stands, apart from blanks, before a closing bracket. -/
def KeepsCommas (s : List Char) : Prop :=
  ∀ front back, s = front ++ ',' :: back → closesNext back = false

/-- Dropping commas makes no text longer. -/
theorem length_dropTrailingCommas_le (s : List Char) :
    (dropTrailingCommas s).length ≤ s.length := by
  fun_induction dropTrailingCommas s with
  | case1 => exact Nat.le_refl _
  | case2 c s _ ih => exact Nat.le_succ_of_le ih
  | case3 c s _ ih => exact Nat.succ_le_succ ih

/-- Such a text is left as it is, and no other. -/
theorem dropTrailingCommas_eq_self_iff : dropTrailingCommas s = s ↔ KeepsCommas s := by
  induction s with
  | nil => exact ⟨fun _ front back h => by simp at h, fun _ => rfl⟩
  | cons c s ih =>
    rw [dropTrailingCommas]
    split
    · next hdropped =>
      refine ⟨fun h => ?_, fun h => ?_⟩
      · -- Without this comma the text is shorter, however much of the rest is kept.
        have hlength := length_dropTrailingCommas_le s
        rw [h, List.length_cons] at hlength
        omega
      · rw [h [] s (congrArg (· :: s) hdropped.1)] at hdropped
        cases hdropped.2
    · next hkept =>
      rw [List.cons.injEq, ih]
      refine ⟨fun h front back heq => ?_,
        fun h => ⟨rfl, fun front back heq => h (c :: front) back (by rw [heq]; rfl)⟩⟩
      cases front with
      | nil =>
        cases heq
        simpa using hkept
      | cons c' front =>
        cases heq
        exact h.2 front back rfl

/-- A blank or a closing bracket is no comma, does not start an escape, and does not go on with a
    number. -/
theorem exists_of_closesNext (h : closesNext s = true) :
    ∃ c t, s = c :: t ∧ c ≠ ',' ∧ c ≠ '\\' ∧ c.isDigit = false ∧ c ≠ '.' ∧ c ≠ 'e' ∧ c ≠ 'E' := by
  cases s with
  | nil => cases h
  | cons c t =>
    refine ⟨c, t, rfl, ?_⟩
    -- A blank or a closing bracket comes next, neither of them in the list.
    cases hc : isBlank c with
    | true =>
      have hne : ∀ x ∈ [',', '\\', '.', 'e', 'E'], c ≠ x := by
        rintro x hx rfl
        simp only [List.mem_cons, List.not_mem_nil, or_false] at hx
        rcases hx with rfl | rfl | rfl | rfl | rfl <;> cases hc
      have hdigit : c.isDigit = false := by
        by_contra hdigit
        have hrange := Char.isDigit_iff_toNat.1 (by simpa using hdigit)
        simp only [isBlank, Bool.or_eq_true, Bool.and_eq_true, decide_eq_true_eq, beq_iff_eq] at hc
        have hzero : '0'.toNat = 0x30 := rfl
        have hnine : '9'.toNat = 0x39 := rfl
        omega
      simpa [hdigit] using hne
    | false =>
      rw [closesNext_cons hc, Bool.or_eq_true, beq_iff_eq, beq_iff_eq] at h
      rcases h with rfl | rfl <;> decide

/-- Where a number ends, it ends also without trailing commas. -/
theorem EndsNumber.dropped (h : EndsNumber s) : EndsNumber (dropTrailingCommas s) := by
  cases s with
  | nil => exact h
  | cons c s =>
    rw [dropTrailingCommas]
    split
    · next hdropped =>
      obtain ⟨c', t, rfl, hcomma, -, hends⟩ := exists_of_closesNext hdropped.2
      rw [dropTrailingCommas_cons hcomma]
      exact endsNumber_cons hends
    · exact endsNumber_cons (h c rfl)

end

/-! ### Strings without some of their commas -/

/-- The second row of parts has all the parts of the first but some commas, each before another
    character. -/
inductive Thinned : List Part → List Part → Prop where
  | nil : Thinned [] []
  | keep (part : Part) {parts parts' : List Part} (h : Thinned parts parts') :
      Thinned (part :: parts) (part :: parts')
  | drop {c : Char} {parts parts' : List Part} (h : Thinned (.char c :: parts) parts') :
      Thinned (.char ',' :: .char c :: parts) parts'

/-- A text without its commas. -/
def withoutCommas (s : List Char) : List Char :=
  s.filter (· ≠ ',')

section
variable {c : Char} {body : List Char} {parts parts' : List Part}

/-- A character that is dropped leaves one behind it. -/
theorem Thinned.exists_char (h : Thinned (.char c :: parts) parts') :
    ∃ c' more, parts' = .char c' :: more := by
  generalize hrow : Part.char c :: parts = row at h
  induction h generalizing c parts with
  | nil => cases hrow
  | keep part h =>
    cases hrow
    exact ⟨c, _, rfl⟩
  | drop h ih => exact ih rfl

/-- A character in front keeps texts equal but for commas. -/
theorem map_withoutCommas_cons {o o' : Option (List Char)}
    (h : o'.map withoutCommas = o.map withoutCommas) (c : Char) :
    (o'.map (c :: ·)).map withoutCommas = (o.map (c :: ·)).map withoutCommas := by
  cases o <;> cases o' <;> simp_all [withoutCommas, List.filter_cons]

/-- A row of parts stands for something exactly if it does without these commas, and then for the
    same up to commas. -/
theorem Thinned.assemble? (h : Thinned parts parts') :
    (Json.assemble? parts').map withoutCommas = (Json.assemble? parts).map withoutCommas := by
  -- The cases are those of reading the row: a character, a pair of halves, or a unit that is none.
  fun_induction Json.assemble? parts generalizing parts' with
  | case1 =>
    cases h
    rfl
  | case2 c parts ih =>
    cases h with
    | keep _ h => exact map_withoutCommas_cons (ih h) c
    | drop h =>
      rw [ih h]
      cases Json.assemble? _ <;> simp [withoutCommas]
  | case3 high low parts hhigh hlow ih =>
    cases h with
    | keep _ h =>
      cases h with
      | keep _ h =>
        rw [Json.assemble?, if_pos hhigh, if_pos hlow]
        exact map_withoutCommas_cons (ih h) _
  | case4 high low parts hhigh hlow =>
    cases h with
    | keep _ h =>
      cases h with
      | keep _ h => rw [Json.assemble?, if_pos hhigh, if_neg hlow]
  | case5 high low parts hhigh hlow =>
    cases h with
    | keep _ h =>
      cases h with
      | keep _ h => rw [Json.assemble?, if_neg hhigh, if_pos hlow]
  | case6 high low parts hhigh hlow ih =>
    cases h with
    | keep _ h =>
      rw [assemble?_unit (by simpa using hhigh) (by simpa using hlow)]
      exact map_withoutCommas_cons (ih h) _
  | case7 n parts hnext hhalf =>
    cases h with
    | @keep _ _ rest h =>
      -- What stands behind a lone half is still no unit.
      have hlone : ∀ low more, rest = .unit low :: more → False := by
        rintro low more rfl
        cases h with
        | keep _ h => exact hnext low _ rfl
        | drop h =>
          obtain ⟨c', more', heq⟩ := h.exists_char
          cases heq
      rw [Json.assemble?, if_pos hhalf]
      exact hlone
  | case8 n parts hnext hhalf ih =>
    cases h with
    | keep _ h =>
      simp only [not_or, Bool.not_eq_true] at hhalf
      rw [assemble?_unit hhalf.1 hhalf.2]
      exact map_withoutCommas_cons (ih h) _

/-- A string is still one without its trailing commas: none of them belongs to an escape. -/
theorem StringText.dropped (h : StringText body parts) :
    ∃ parts', StringText (dropTrailingCommas body) parts' ∧ Thinned parts parts' := by
  induction h with
  | nil => exact ⟨[], .nil, .nil⟩
  | @unit a b c d n s parts hn _ ih =>
    obtain ⟨parts', htext, hthinned⟩ := ih
    refine ⟨.unit n :: parts', ?_, .keep _ hthinned⟩
    have hword : ',' ∉ ['\\', 'u', a, b, c, d] := by
      have hdigit : ',' ∉ [a, b, c, d] := fun hmem => digits_of_unit? hn _ hmem List.mem_cons_self
      simpa using hdigit
    rw [show '\\' :: 'u' :: a :: b :: c :: d :: s = ['\\', 'u', a, b, c, d] ++ s from rfl,
      dropTrailingCommas_append hword]
    exact .unit hn htext
  | @escape letter c s parts hc _ ih =>
    obtain ⟨parts', htext, hthinned⟩ := ih
    refine ⟨.char c :: parts', ?_, .keep _ hthinned⟩
    have hletter : letter ≠ ',' := by
      rintro rfl
      cases hc
    rw [dropTrailingCommas_cons (by decide), dropTrailingCommas_cons hletter]
    exact .escape hc htext
  | @plain c s parts hquote hslash hcontrol hs ih =>
    obtain ⟨parts', htext, hthinned⟩ := ih
    rw [dropTrailingCommas]
    split
    · next hdropped =>
      obtain ⟨rfl, hcloses⟩ := hdropped
      obtain ⟨c', t, rfl, -, hescape, -⟩ := exists_of_closesNext hcloses
      refine ⟨parts', htext, ?_⟩
      -- Behind the comma is a blank or a bracket, which stands for itself.
      cases hs with
      | unit _ _ | escape _ _ => exact absurd rfl hescape
      | plain _ _ _ _ => exact .drop hthinned
    · exact ⟨.char c :: parts', .plain hquote hslash hcontrol htext, .keep _ hthinned⟩

end

/-! ### Tokens up to commas -/

/-- A string without its commas. -/
def bare (text : String) : String :=
  String.ofList (withoutCommas text.toList)

/-- The texts between the quotation marks of a text, from inside of such a text with the given
    beginning, in reverse, or from outside. -/
def literalsFrom : Option (List Char) → List Char → List (List Char)
  | _, [] => []
  | none, '"' :: s => literalsFrom (some []) s
  | none, _ :: s => literalsFrom none s
  | some body, '"' :: s => body.reverse :: literalsFrom none s
  | some body, '\\' :: c :: s => literalsFrom (some (c :: '\\' :: body)) s
  | some body, c :: s => literalsFrom (some (c :: body)) s

/-- The texts between the quotation marks of a text. -/
def literals (s : List Char) : List (List Char) :=
  literalsFrom none s

section
variable {c : Char} {word s body : List Char} {parts : List Part} {token : Token}
  {tokens : List Token}

/-- Outside of a literal only a quote counts. -/
theorem literalsFrom_outside (hc : c ≠ '"') (s : List Char) :
    literalsFrom none (c :: s) = literalsFrom none s := by
  rw [literalsFrom]
  exact hc

/-- Inside of one, a plain character belongs to it. -/
theorem literalsFrom_inside (hquote : c ≠ '"') (hslash : c ≠ '\\') (body s : List Char) :
    literalsFrom (some body) (c :: s) = literalsFrom (some (c :: body)) s := by
  rw [literalsFrom]
  · exact hquote
  · exact fun _ _ h _ => hslash h

/-- A word without quotes adds no literal. -/
theorem literals_append (hword : '"' ∉ word) (s : List Char) :
    literals (word ++ s) = literals s := by
  induction word with
  | nil => rfl
  | cons c word ih =>
    rw [List.mem_cons, not_or] at hword
    exact (literalsFrom_outside (Ne.symm hword.1) _).trans (ih hword.2)

/-- The text of a string is one between quotation marks. -/
theorem StringText.literals (h : StringText body parts) (s : List Char) :
    Json.literals ('"' :: (body ++ '"' :: s)) = body :: Json.literals s := by
  -- The induction is on the rest of the string, with what stands in front of it.
  have hinside : ∀ front, literalsFrom (some front) (body ++ '"' :: s)
      = (front.reverse ++ body) :: literalsFrom none s := by
    induction h with
    | nil => exact fun front => by rw [List.append_nil]; rfl
    | @unit a b c d n text parts hn _ ih =>
      intro front
      have hdigit : ∀ x ∈ [a, b, c, d], x ≠ '"' ∧ x ≠ '\\' := by
        intro x hx
        have hx := digits_of_unit? hn x hx
        simp only [List.mem_cons, not_or] at hx
        exact ⟨hx.2.1, hx.2.2.1⟩
      simp only [List.forall_mem_cons] at hdigit
      obtain ⟨ha, hb, hc, hd, -⟩ := hdigit
      show literalsFrom (some ('u' :: '\\' :: front)) (a :: b :: c :: d :: (text ++ '"' :: s)) = _
      rw [literalsFrom_inside ha.1 ha.2, literalsFrom_inside hb.1 hb.2,
        literalsFrom_inside hc.1 hc.2, literalsFrom_inside hd.1 hd.2, ih]
      simp
    | @escape letter c text parts _ _ ih =>
      intro front
      show literalsFrom (some (letter :: '\\' :: front)) (text ++ '"' :: s) = _
      rw [ih]
      simp
    | plain hquote hslash _ _ ih =>
      intro front
      rw [List.cons_append, literalsFrom_inside hquote hslash, ih]
      simp
  exact hinside []

/-- The blanks between tokens are blanks. -/
theorem isBlank_of_isJsonBlank (hc : isJsonBlank c = true) : isBlank c = true := by
  simp only [isJsonBlank, Bool.or_eq_true, beq_iff_eq] at hc
  rcases hc with ((rfl | rfl) | rfl) | rfl <;> rfl

/-- A fixed token closes if its text does. -/
theorem fixed_closes (s : List Char) : ∀ x ∈ fixedTexts, closesNext (x.1 ++ s) = x.2.closes := by
  simp only [fixedTexts, List.forall_mem_cons]
  exact ⟨rfl, rfl, rfl, rfl, rfl, rfl, rfl, rfl, rfl, List.forall_mem_nil _⟩

/-- So does every token. -/
theorem Written.closesNext (h : Written word token) (s : List Char) :
    Json.closesNext (word ++ s) = token.closes := by
  cases h with
  | fixed h => exact fixed_closes s _ h
  | num h =>
    obtain ⟨c, t, rfl, hc⟩ := h.startsNumber
    show Json.closesNext (c :: t ++ s) = false
    rcases hc with hdigit | rfl
    · by_contra hcloses
      obtain ⟨c', t', heq, -, -, hends, -⟩ := exists_of_closesNext (by simpa using hcloses)
      cases heq
      rw [hdigit] at hends
      cases hends
    · rfl
  | str h => rfl

/-- A bracket closes next where the next token does. -/
theorem Spelled.closesNext (h : Spelled s tokens) :
    Json.closesNext s = tokens.head?.any Token.closes := by
  induction h with
  | nil => rfl
  | blank hc _ ih => rw [closesNext_blank (isBlank_of_isJsonBlank hc), ih]
  | token hword _ _ _ => exact hword.closesNext _

/-- Fixed tokens end anywhere. -/
theorem endsAt_fixed : ∀ x ∈ fixedTexts, ∀ s, x.2.EndsAt s := by
  simp [fixedTexts, Token.EndsAt]

/-- The comma is the only fixed token with a comma. -/
theorem comma_of_fixed : ∀ x ∈ fixedTexts, ',' ∉ x.1 ∨ x = ([','], .comma) := by
  simp [fixedTexts]

/-- No fixed token has a quote. -/
theorem quote_not_mem_fixed : ∀ x ∈ fixedTexts, '"' ∉ x.1 := by
  decide

/-- A number has no other characters. -/
theorem NumberText.not_mem {n : Numeral} (h : NumberText word n) (hc : ¬InNumber c) : c ∉ word :=
  fun hmem => hc (h.inNumber c hmem)

/-- A token is written with the same word without the trailing commas of its string, if it is
    one. -/
structure Drops (word : List Char) (token : Token) (word' : List Char) (token' : Token) : Prop where
  written : Written word' token'
  text : token'.mapText bare = token.mapText bare
  literals : ∃ own, (∀ s, literals (word ++ s) = own ++ literals s) ∧
    (∀ s, literals (word' ++ s) = own.map dropTrailingCommas ++ literals s) ∧
    ((∀ body ∈ own, KeepsCommas body) → word' = word)

/-- A token without quotes drops nothing. -/
theorem Written.drops_self (h : Written word token) (hquote : '"' ∉ word) :
    Drops word token word token where
  written := h
  text := rfl
  literals := ⟨[], literals_append hquote, literals_append hquote, fun _ => rfl⟩

/-- A string drops commas from its literal. -/
theorem StringText.drops (h : StringText body parts) :
    ∃ parts', Drops ('"' :: (body ++ ['"'])) (.str ((assemble? parts).map String.ofList))
      ('"' :: (dropTrailingCommas body ++ ['"']))
        (.str ((assemble? parts').map String.ofList)) := by
  obtain ⟨parts', htext, hthinned⟩ := h.dropped
  refine ⟨parts', .str htext, ?_, [body], fun s => ?_, fun s => ?_, fun hkeeps => ?_⟩
  · have hbare := hthinned.assemble?
    rw [Token.mapText, Token.mapText, Token.str.injEq]
    cases hparts : assemble? parts <;> cases hparts' : assemble? parts' <;> simp_all [bare]
  · rw [List.cons_append, List.append_assoc, List.singleton_append, h.literals]
    rfl
  · rw [List.cons_append, List.append_assoc, List.singleton_append, htext.literals]
    rfl
  · rw [dropTrailingCommas_eq_self_iff.2 (hkeeps body List.mem_cons_self)]

/-- A token in front of a text from which trailing commas are dropped. -/
theorem Written.dropped (h : Written word token) (hends : token.EndsAt s)
    (hcomma : token = .comma → Json.closesNext s = false) :
    ∃ word' token', dropTrailingCommas (word ++ s) = word' ++ dropTrailingCommas s ∧
      token'.EndsAt (dropTrailingCommas s) ∧ Drops word token word' token' := by
  cases h with
  | fixed h =>
    have hkept : dropTrailingCommas (word ++ s) = word ++ dropTrailingCommas s := by
      -- The comma token itself stays, because no bracket closes next.
      rcases comma_of_fixed _ h with hword | heq
      · exact dropTrailingCommas_append hword s
      · cases heq
        exact dropTrailingCommas_comma (hcomma rfl)
    exact ⟨word, token, hkept, endsAt_fixed _ h _,
      Written.drops_self (.fixed h) (quote_not_mem_fixed _ h)⟩
  | num h =>
    have hword : ',' ∉ word := h.not_mem (by simp [InNumber])
    have hquote : '"' ∉ word := h.not_mem (by simp [InNumber])
    exact ⟨word, .num _, dropTrailingCommas_append hword s, EndsNumber.dropped hends,
      Written.drops_self (.num h) hquote⟩
  | @str body parts h =>
    obtain ⟨parts', hdrops⟩ := h.drops
    refine ⟨_, .str _, ?_, trivial, hdrops⟩
    rw [List.cons_append, List.append_assoc, List.singleton_append,
      dropTrailingCommas_cons (by decide), dropTrailingCommas_append_quote]
    simp

end

/-- **A row of tokens without its trailing commas.** If none stands between tokens, those in strings
    are all that is dropped. -/
theorem Spelled.dropped {s : List Char} {tokens : List Token} (h : Spelled s tokens)
    (hfits : tokens.IsChain Token.Fits) :
    (∃ tokens', Spelled (dropTrailingCommas s) tokens' ∧
      tokens'.map (Token.mapText bare) = tokens.map (Token.mapText bare)) ∧
    literals (dropTrailingCommas s) = (literals s).map dropTrailingCommas ∧
    ((∀ body ∈ literals s, KeepsCommas body) → dropTrailingCommas s = s) := by
  induction h with
  | nil => exact ⟨⟨[], .nil, rfl⟩, rfl, fun _ => rfl⟩
  | @blank c s tokens hc hs ih =>
    have hcomma : c ≠ ',' := by
      rintro rfl
      cases hc
    have hquote : c ≠ '"' := by
      rintro rfl
      cases hc
    obtain ⟨⟨tokens', hs', htokens⟩, hliterals, hkept⟩ := ih hfits
    rw [dropTrailingCommas_cons hcomma]
    unfold literals at hliterals hkept ⊢
    rw [literalsFrom_outside hquote, literalsFrom_outside hquote]
    exact ⟨⟨tokens', .blank hc hs', htokens⟩, hliterals,
      fun hkeeps => congrArg (c :: ·) (hkept hkeeps)⟩
  | @token word s token tokens hword hends hs ih =>
    -- What the text goes on with after a comma is what its next token says.
    have hcomma : token = .comma → Json.closesNext s = false := by
      intro htoken
      rw [hs.closesNext]
      cases tokens with
      | nil => rfl
      | cons next tokens => exact (List.isChain_cons_cons.1 hfits).1 htoken
    obtain ⟨⟨tokens', hs', htokens⟩, hliterals, hkept⟩ := ih hfits.tail
    obtain ⟨word', token', hdropped, hends', hword', htoken, own, hown, hown', hsame⟩ :=
      hword.dropped hends hcomma
    rw [hdropped, hown, hown', hliterals, List.map_append]
    refine ⟨⟨token' :: tokens', .token hword' hends' hs',
      by rw [List.map_cons, List.map_cons, htoken, htokens]⟩, rfl, fun hkeeps => ?_⟩
    obtain ⟨hkeepsOwn, hkeepsRest⟩ := List.forall_mem_append.1 hkeeps
    rw [hsame hkeepsOwn, hkept hkeepsRest]

end BlastRadius.Json
