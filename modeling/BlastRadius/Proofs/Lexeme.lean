import BlastRadius.Source.Region
import Mathlib.Data.List.Basic
import Mathlib.Data.List.Infix

namespace BlastRadius.Source

/-!
# Lexemes of a source text

What comments and literals are, said without a pass over the text: a text is a row of lexemes, and
each of them says what its bytes belong to. The pass that classifies the bytes of a text agrees with
this.

* `Lexeme`, `LiteralText`, `Lexed` — the lexemes, what may stand between quotation marks, and how a
  text falls into lexemes.
* `classified_of_lexed` — the pass gives every byte the region that its lexeme says.
* `exists_lexed` — every text falls into lexemes, wherever it ends.
-/

/-- A piece of a source text that belongs together. -/
inductive Lexeme where
  /-- One byte of program text. -/
  | code (b : UInt8)
  /-- `//` and what follows it on the line. -/
  | lineComment (text : List UInt8)
  /-- `/*`, what follows it, and `*/` if there is one. -/
  | blockComment (text : List UInt8) (isClosed : Bool)
  /-- A quotation mark, what follows it, and the same mark if the literal is closed. -/
  | literal (mark : UInt8) (text : List UInt8) (isClosed : Bool)
deriving DecidableEq, Repr

/-- What the bytes of a lexeme belong to. -/
def Lexeme.classified : Lexeme → List (UInt8 × Region)
  | .code b => [(b, .code)]
  | .lineComment text => (0x2f :: 0x2f :: text).map (·, .comment)
  | .blockComment text isClosed =>
    (0x2f :: 0x2a :: text ++ if isClosed then [0x2a, 0x2f] else []).map (·, .comment)
  | .literal mark text isClosed =>
    (mark, .opening) :: text.map (·, .body) ++ if isClosed then [(mark, .closing)] else []

/-- What can stand behind a quotation mark without ending the literal: a backslash with any byte
    behind it, and all other bytes but the mark and, in a literal of one line, the newline. -/
inductive LiteralText (mark : UInt8) : List UInt8 → Prop where
  | nil : LiteralText mark []
  | escape (b : UInt8) {text : List UInt8} (htext : LiteralText mark text) :
      LiteralText mark (0x5c :: b :: text)
  | plain {b : UInt8} {text : List UInt8} (hescape : b ≠ 0x5c) (hmark : b ≠ mark)
      (hline : b = newline → spansLines mark = true) (htext : LiteralText mark text) :
      LiteralText mark (b :: text)

/-- How a text falls into lexemes. -/
inductive Lexed : List UInt8 → List Lexeme → Prop where
  | nil : Lexed [] []
  | code {b : UInt8} {rest : List UInt8} {lexemes : List Lexeme} (hmark : isMark b = false)
      (hslash : b = 0x2f → rest.head? ≠ some 0x2f ∧ rest.head? ≠ some 0x2a)
      (hrest : Lexed rest lexemes) : Lexed (b :: rest) (.code b :: lexemes)
  /-- A line comment goes up to a newline or the end. -/
  | lineComment {text rest : List UInt8} {lexemes : List Lexeme} (htext : newline ∉ text)
      (hend : rest = [] ∨ rest.head? = some newline) (hrest : Lexed rest lexemes) :
      Lexed (0x2f :: 0x2f :: (text ++ rest)) (.lineComment text :: lexemes)
  /-- A block comment goes up to the first `*/`. -/
  | blockComment {text rest : List UInt8} {lexemes : List Lexeme} (htext : ¬[0x2a, 0x2f] <:+: text)
      (hrest : Lexed rest lexemes) :
      Lexed (0x2f :: 0x2a :: (text ++ 0x2a :: 0x2f :: rest)) (.blockComment text true :: lexemes)
  /-- Without a `*/` a block comment goes up to the end. -/
  | openComment {text : List UInt8} (htext : ¬[0x2a, 0x2f] <:+: text) :
      Lexed (0x2f :: 0x2a :: text) [.blockComment text false]
  | literal {mark : UInt8} {text rest : List UInt8} {lexemes : List Lexeme}
      (hmark : isMark mark = true) (htext : LiteralText mark text) (hrest : Lexed rest lexemes) :
      Lexed (mark :: (text ++ mark :: rest)) (.literal mark text true :: lexemes)
  /-- A newline breaks off a literal of one line. -/
  | brokenLiteral {mark : UInt8} {text rest : List UInt8} {lexemes : List Lexeme}
      (hmark : isMark mark = true) (hline : spansLines mark = false) (htext : LiteralText mark text)
      (hrest : Lexed (newline :: rest) lexemes) :
      Lexed (mark :: (text ++ newline :: rest)) (.literal mark text false :: lexemes)
  /-- The end breaks off a literal, also behind a backslash. -/
  | openLiteral {mark : UInt8} {text last : List UInt8} (hmark : isMark mark = true)
      (htext : LiteralText mark text) (hlast : last = [] ∨ last = [0x5c]) :
      Lexed (mark :: (text ++ last)) [.literal mark (text ++ last) false]

/-! ### One step of the pass -/

section
variable {b mark : UInt8} {rest text : List UInt8} {context : Context}

/-- A byte that opens neither a literal nor a comment is code. -/
theorem classifiedFrom_code (hmark : isMark b = false)
    (hslash : b = 0x2f → rest.head? ≠ some 0x2f ∧ rest.head? ≠ some 0x2a) :
    classifiedFrom .code (b :: rest) = (b, .code) :: classifiedFrom .code rest := by
  rw [classifiedFrom, regionsFrom.eq_4, hmark]
  · rfl
  · rintro _ rfl rfl
    exact (hslash rfl).1 rfl
  · rintro _ rfl rfl
    exact (hslash rfl).2 rfl

/-- A mark is no slash, no escape and no line break. -/
theorem ne_of_isMark (hmark : isMark b = true) : b ≠ 0x2f ∧ b ≠ 0x5c ∧ b ≠ newline := by
  refine ⟨?_, ?_, ?_⟩ <;> rintro rfl <;> cases hmark

/-- A mark in code opens a literal. -/
theorem classifiedFrom_opening (hmark : isMark b = true) :
    classifiedFrom .code (b :: rest) = (b, .opening) :: classifiedFrom (.literal b) rest := by
  have hslash := (ne_of_isMark hmark).1
  rw [classifiedFrom, regionsFrom.eq_4, hmark]
  · rfl
  · exact fun _ h _ => hslash h
  · exact fun _ h _ => hslash h

/-- A line break in code is code. -/
theorem classifiedFrom_newline :
    classifiedFrom .code (newline :: rest) = (newline, .code) :: classifiedFrom .code rest :=
  classifiedFrom_code (by decide) fun h => absurd h (by decide)

/-- A line break ends a line comment. -/
theorem classifiedFrom_lineEnd :
    classifiedFrom .lineComment (newline :: rest) = classifiedFrom .code (newline :: rest) := by
  rw [classifiedFrom_newline, classifiedFrom, regionsFrom, if_pos rfl]
  rfl

/-- The same mark closes the literal. -/
theorem classifiedFrom_closing (hmark : isMark mark = true) :
    classifiedFrom (.literal mark) (mark :: rest)
      = (mark, .closing) :: classifiedFrom .code rest := by
  have hescape := (ne_of_isMark hmark).2.1
  rw [classifiedFrom, regionsFrom.eq_9, if_pos rfl]
  · rfl
  · exact fun _ _ h _ => hescape h

/-- A line break ends a literal that spans no lines. -/
theorem classifiedFrom_broken (hmark : isMark mark = true) (hline : spansLines mark = false) :
    classifiedFrom (.literal mark) (newline :: rest) = classifiedFrom .code (newline :: rest) := by
  have hne : newline ≠ mark := (ne_of_isMark hmark).2.2.symm
  rw [classifiedFrom_newline, classifiedFrom, regionsFrom.eq_9, if_neg hne,
    if_pos (by simp [hline])]
  · rfl
  · exact fun _ _ h _ => absurd h (by decide)

/-! ### Whole lexemes -/

/-- A line comment goes on where there is no line break. -/
theorem classifiedFrom_lineComment (htext : newline ∉ text) :
    classifiedFrom .lineComment (text ++ rest)
      = text.map (·, .comment) ++ classifiedFrom .lineComment rest := by
  induction text with
  | nil => rfl
  | cons b text ih =>
    rw [List.mem_cons, not_or] at htext
    have hne : b ≠ newline := fun h => htext.1 h.symm
    rw [List.cons_append, classifiedFrom, regionsFrom, if_neg hne]
    exact congrArg ((b, Region.comment) :: ·) (ih htext.2)

/-- The text of a block comment, up to a `*/` or to the end. -/
theorem classifiedFrom_blockComment (htext : ¬[0x2a, 0x2f] <:+: text)
    (hrest : rest.head? ≠ some 0x2f) :
    classifiedFrom .blockComment (text ++ rest)
      = text.map (·, .comment) ++ classifiedFrom .blockComment rest := by
  induction text with
  | nil => rfl
  | cons b text ih =>
    have htail : ¬[0x2a, 0x2f] <:+: text :=
      fun h => htext (h.trans (List.suffix_cons b text).isInfix)
    rw [List.cons_append, classifiedFrom, regionsFrom.eq_7]
    · exact congrArg ((b, Region.comment) :: ·) (ih htail)
    · -- A star is not followed by a slash, inside the text and behind it.
      intro tail hb htail
      subst hb
      cases text with
      | nil => exact hrest (by rw [List.nil_append] at htail; rw [htail]; rfl)
      | cons c text =>
        rw [List.cons_append, List.cons.injEq] at htail
        obtain ⟨rfl, -⟩ := htail
        exact htext ⟨[], text, rfl⟩

/-- The text of a literal is its body. -/
theorem classifiedFrom_text (htext : LiteralText mark text) :
    classifiedFrom (.literal mark) (text ++ rest)
      = text.map (·, .body) ++ classifiedFrom (.literal mark) rest := by
  induction htext with
  | nil => rfl
  | escape b htext ih =>
    rw [List.cons_append, List.cons_append, classifiedFrom, regionsFrom]
    exact congrArg ((0x5c, Region.body) :: (b, Region.body) :: ·) ih
  | @plain b text hescape hmark hline htext ih =>
    rw [List.cons_append, classifiedFrom, regionsFrom.eq_9, if_neg hmark,
      if_neg (fun h => h.2 (hline h.1))]
    · exact congrArg ((b, Region.body) :: ·) ih
    · exact fun _ _ h _ => hescape h

end

/-- **The pass knows the lexemes.** The regions of the bytes of a text are those that its lexemes
    say. -/
theorem classified_of_lexed {bytes : List UInt8} {lexemes : List Lexeme} (h : Lexed bytes lexemes) :
    classified bytes = lexemes.flatMap Lexeme.classified := by
  unfold classified
  induction h with
  | nil => rfl
  | code hmark hslash _ ih =>
    rw [classifiedFrom_code hmark hslash, ih]
    rfl
  | @lineComment text rest lexemes htext hend _ ih =>
    have hrest : classifiedFrom .lineComment rest = classifiedFrom .code rest := by
      cases rest with
      | nil => rfl
      | cons b rest =>
        obtain rfl : b = newline := by simpa using hend
        exact classifiedFrom_lineEnd
    rw [classifiedFrom, regionsFrom]
    show (0x2f, Region.comment) :: (0x2f, Region.comment)
        :: classifiedFrom .lineComment (text ++ rest) = _
    rw [classifiedFrom_lineComment htext, hrest, ih]
    rfl
  | @blockComment text rest lexemes htext _ ih =>
    rw [classifiedFrom, regionsFrom]
    show (0x2f, Region.comment) :: (0x2a, Region.comment)
      :: classifiedFrom .blockComment (text ++ 0x2a :: 0x2f :: rest) = _
    rw [classifiedFrom_blockComment htext (by simp), classifiedFrom, regionsFrom]
    show _ :: _ :: (_ ++ (0x2a, Region.comment) :: (0x2f, Region.comment)
        :: classifiedFrom .code rest) = _
    rw [ih]
    simp [Lexeme.classified]
  | @openComment text htext =>
    rw [classifiedFrom, regionsFrom]
    show (0x2f, Region.comment) :: (0x2a, Region.comment) :: classifiedFrom .blockComment text = _
    rw [← List.append_nil text, classifiedFrom_blockComment htext (by decide)]
    simp [Lexeme.classified, classifiedFrom]
  | literal hmark htext _ ih =>
    rw [classifiedFrom_opening hmark, classifiedFrom_text htext, classifiedFrom_closing hmark, ih]
    simp [Lexeme.classified]
  | brokenLiteral hmark hline htext _ ih =>
    rw [classifiedFrom_opening hmark, classifiedFrom_text htext, classifiedFrom_broken hmark hline,
      ih]
    simp [Lexeme.classified]
  | @openLiteral mark text last hmark htext hlast =>
    have hend : classifiedFrom (.literal mark) last = last.map (·, .body) := by
      rcases hlast with rfl | rfl
      · rfl
      · -- A single escape at the very end escapes nothing, and is part of the body.
        have hne : (0x5c : UInt8) ≠ mark := (ne_of_isMark hmark).2.1.symm
        rw [classifiedFrom, regionsFrom.eq_9, if_neg hne, if_neg (fun h => absurd h.1 (by decide))]
        · rfl
        · rintro _ _ _ ⟨⟩
    rw [classifiedFrom_opening hmark, classifiedFrom_text htext, hend]
    simp [Lexeme.classified]

/-! ### Every text has lexemes -/

/-- Every text has a first line. -/
theorem exists_line (bytes : List UInt8) :
    ∃ text rest, bytes = text ++ rest ∧ newline ∉ text ∧
      (rest = [] ∨ rest.head? = some newline) := by
  induction bytes with
  | nil => exact ⟨[], [], rfl, List.not_mem_nil, Or.inl rfl⟩
  | cons b bytes ih =>
    by_cases hb : b = newline
    · exact ⟨[], b :: bytes, rfl, List.not_mem_nil, Or.inr (congrArg some hb)⟩
    · obtain ⟨text, rest, rfl, htext, hrest⟩ := ih
      refine ⟨b :: text, rest, rfl, ?_, hrest⟩
      rw [List.mem_cons, not_or]
      exact ⟨fun h => hb h.symm, htext⟩

/-- A text has a first `*/` or none. -/
theorem exists_block (bytes : List UInt8) :
    (∃ text rest, bytes = text ++ 0x2a :: 0x2f :: rest ∧ ¬[0x2a, 0x2f] <:+: text) ∨
    ¬[0x2a, 0x2f] <:+: bytes := by
  induction bytes with
  | nil => exact Or.inr (by simp)
  | cons b bytes ih =>
    -- The first end of the comment counts.
    by_cases hfirst : [0x2a, 0x2f] <+: b :: bytes
    · obtain ⟨rest, hrest⟩ := hfirst
      exact Or.inl ⟨[], rest, hrest.symm, by simp⟩
    · rcases ih with ⟨text, rest, rfl, htext⟩ | hnone
      · refine Or.inl ⟨b :: text, rest, rfl, fun h => ?_⟩
        rcases List.infix_cons_iff.1 h with hstart | hinfix
        · exact hfirst (hstart.trans (List.prefix_append (b :: text) _))
        · exact htext hinfix
      · refine Or.inr fun h => ?_
        rcases List.infix_cons_iff.1 h with hstart | hinfix
        · exact hfirst hstart
        · exact hnone hinfix

/-- Behind a quotation mark stands the text of a literal, up to where it is closed or broken off. -/
def HasText (mark : UInt8) (bytes : List UInt8) : Prop :=
  ∃ text rest, bytes = text ++ rest ∧ LiteralText mark text ∧
    ((rest = [] ∨ rest = [0x5c]) ∨ rest.head? = some mark ∨
      rest.head? = some newline ∧ spansLines mark = false)

/-- A byte that escapes nothing belongs to the text of the literal. -/
theorem HasText.cons {mark b : UInt8} {bytes : List UInt8} (hescape : b ≠ 0x5c)
    (h : HasText mark bytes) : HasText mark (b :: bytes) := by
  by_cases hmark : b = mark
  · exact ⟨[], b :: bytes, rfl, .nil, Or.inr (Or.inl (congrArg some hmark))⟩
  by_cases hline : b = newline ∧ spansLines mark = false
  · exact ⟨[], b :: bytes, rfl, .nil, Or.inr (Or.inr ⟨congrArg some hline.1, hline.2⟩)⟩
  · obtain ⟨text, rest, rfl, htext, hrest⟩ := h
    refine ⟨b :: text, rest, rfl, .plain hescape hmark ?_ htext, hrest⟩
    intro h
    simpa [h] using hline

/-- Every literal has a text, up to its end. -/
theorem hasText (mark : UInt8) (bytes : List UInt8) : HasText mark bytes := by
  induction bytes using List.twoStepInduction with
  | nil => exact ⟨[], [], rfl, .nil, Or.inl (Or.inl rfl)⟩
  | singleton b =>
    by_cases hescape : b = 0x5c
    · exact ⟨[], [b], rfl, .nil, Or.inl (Or.inr (by rw [hescape]))⟩
    · exact HasText.cons hescape ⟨[], [], rfl, .nil, Or.inl (Or.inl rfl)⟩
  | cons_cons b c bytes ih ih' =>
    by_cases hescape : b = 0x5c
    · -- A backslash takes the next byte with it.
      obtain ⟨text, rest, rfl, htext, hrest⟩ := ih
      exact ⟨b :: c :: text, rest, rfl, hescape ▸ .escape c htext, hrest⟩
    · exact HasText.cons hescape (ih' c)

/-- Every text falls into lexemes. -/
theorem exists_lexed (bytes : List UInt8) : ∃ lexemes, Lexed bytes lexemes := by
  induction hlength : bytes.length using Nat.strongRecOn generalizing bytes with
  | ind n ih =>
    subst hlength
    cases bytes with
    | nil => exact ⟨[], .nil⟩
    | cons b bytes =>
      -- What follows a lexeme is shorter, so it has lexemes of its own.
      have hlater : ∀ rest, rest <:+ bytes → ∃ lexemes, Lexed rest lexemes := by
        intro rest hrest
        exact ih rest.length (Nat.lt_succ_of_le hrest.length_le) rest rfl
      cases hmark : isMark b with
      | true =>
        obtain ⟨text, rest, rfl, htext, hend | hend | ⟨hend, hline⟩⟩ := hasText b bytes
        · exact ⟨_, .openLiteral hmark htext hend⟩
        · obtain ⟨rest, rfl⟩ := List.head?_eq_some_iff.1 hend
          obtain ⟨lexemes, hrest⟩ := hlater rest ⟨text ++ [b], by simp⟩
          exact ⟨_, .literal hmark htext hrest⟩
        · obtain ⟨rest, rfl⟩ := List.head?_eq_some_iff.1 hend
          obtain ⟨lexemes, hrest⟩ := hlater (newline :: rest) (List.suffix_append text _)
          exact ⟨_, .brokenLiteral hmark hline htext hrest⟩
      | false =>
        by_cases hslash : b = 0x2f → bytes.head? ≠ some 0x2f ∧ bytes.head? ≠ some 0x2a
        · obtain ⟨lexemes, hrest⟩ := hlater bytes List.suffix_rfl
          exact ⟨_, .code hmark hslash hrest⟩
        · obtain ⟨rfl, hnext⟩ : b = 0x2f ∧ (bytes.head? = some 0x2f ∨ bytes.head? = some 0x2a) := by
            rw [Classical.not_imp] at hslash
            refine ⟨hslash.1, ?_⟩
            simpa [Classical.or_iff_not_imp_left] using hslash.2
          rcases hnext with hnext | hnext
          · obtain ⟨tail, rfl⟩ := List.head?_eq_some_iff.1 hnext
            obtain ⟨text, rest, rfl, htext, hend⟩ := exists_line tail
            obtain ⟨lexemes, hrest⟩ := hlater rest ⟨0x2f :: text, rfl⟩
            exact ⟨_, .lineComment htext hend hrest⟩
          · obtain ⟨tail, rfl⟩ := List.head?_eq_some_iff.1 hnext
            rcases exists_block tail with ⟨text, rest, rfl, htext⟩ | hnone
            · obtain ⟨lexemes, hrest⟩ := hlater rest ⟨0x2a :: text ++ [0x2a, 0x2f], by simp⟩
              exact ⟨_, .blockComment htext hrest⟩
            · exact ⟨_, .openComment hnone⟩

end BlastRadius.Source
