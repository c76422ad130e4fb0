import BlastRadius.Proofs.Grounded

namespace BlastRadius.Source

/-!
# Literals are read back

The end of a literal is looked for a second time, in the masked text, by its mark alone and with no
thought of backslashes. It is found where the pass over the text closes the literal, for what stands
between shows nothing but spaces and newlines.

* `bodySize?_body_append` — how far the search goes over the text of a literal.
* `literalBody?_eq_some_iff` — a body is found exactly if the literal is closed and stays on its
  lines.
* `exists_literal_of_getElem?`, `Lexed.behind_open` — where literals open, and what stands behind
  one that is not closed.
* `literals_recovered` — the theorem.
-/

open Text

/-! ### The search for the end -/

section
variable {s body : List Char} {offset : Nat} {mark : UInt8} {behind : List (UInt8 × Region)}
  {text : List UInt8}

/-- No byte of a body is read as the mark. -/
theorem readByte_body_ne (hmark : isMark mark = true) (b : UInt8) : readByte (b, .body) ≠ mark := by
  rintro rfl
  rcases readByte_of_masked (x := (b, .body)) (Or.inr rfl) with
    h | h <;> simp [h, isMark, newline, space] at hmark

/-- Only a newline stops the search in the text of a literal, and none does if the literal may span
    lines. -/
theorem bodySize?_body_append (hmark : isMark mark = true) (text bytes : List UInt8) :
    bodySize? mark ((text.map (·, Region.body)).map readByte ++ bytes)
      = if newline ∈ text ∧ spansLines mark = false then none
        else (bodySize? mark bytes).map (· + text.length) := by
  induction text with
  | nil => simp
  | cons b text ih =>
    have hnewline : readByte (b, .body) = newline ↔ b = newline := maskByte_eq_newline_iff _ _ _
    rw [List.map_cons, List.map_cons, List.cons_append, bodySize?,
      if_neg (readByte_body_ne hmark b), ih]
    simp only [hnewline]
    cases hline : spansLines mark with
    | true => simp [Function.comp_def, Nat.add_assoc]
    | false =>
      by_cases hb : b = newline
      · simp [hb]
      · have hb' : newline ≠ b := fun h => hb h.symm
        by_cases htext : newline ∈ text <;> simp [hb, hb', htext, Function.comp_def, Nat.add_assoc]

/-- A closed literal that stays on its lines is read back. It lies between two marks, so that its
    ends fall between characters. -/
theorem exists_literalBody?
    (hopening : (classified (utf8 s)).drop offset = (mark, .opening) :: behind)
    (hclosed : text.map (·, Region.body) ++ [(mark, Region.closing)] <+: behind)
    (hline : spansLines mark = true ∨ newline ∉ text) :
    ∃ body, literalBody? (mask .literals s) s offset = some body ∧ utf8 body = text := by
  have hmark := isMark_of_opening hopening
  have hascii : mark < 0x80 := UInt8.not_le.1 (ascii_of_isMark hmark)
  obtain ⟨later, rfl⟩ := hclosed
  have hsize : bodySize? mark
      ((text.map (·, Region.body) ++ [(mark, Region.closing)] ++ later).map readByte)
      = some text.length := by
    have hread : readByte (mark, .closing) = mark := readByte_of_kept rfl
    have hnone : ¬(newline ∈ text ∧ spansLines mark = false) := by
      rintro ⟨hmem, hfalse⟩
      simp [hmem, hfalse] at hline
    rw [List.append_assoc, List.map_append, bodySize?_body_append hmark, if_neg hnone]
    simp [hread, bodySize?]
  -- The bytes of the text, cut at the two marks.
  have hlength : ((classified (utf8 s)).take offset).length = offset := by
    apply List.length_take_of_le
    by_contra hshort
    rw [List.drop_eq_nil_of_le (by omega)] at hopening
    cases hopening
  have hbytes : utf8 s
      = ((classified (utf8 s)).take offset).map Prod.fst
        ++ mark :: (text ++ mark :: later.map Prod.fst) := by
    conv => lhs; rw [← map_fst_classified (utf8 s),
      ← List.take_append_drop offset (classified (utf8 s)), hopening]
    simp [Function.comp_def]
  obtain ⟨body, hslice, hbody⟩ := exists_slice? hascii hascii hbytes
  rw [List.length_map, hlength] at hslice
  refine ⟨body, ?_, hbody⟩
  rw [literalBody?_eq_bind hopening, hsize, Option.bind_some, hslice]

/-- **The search agrees with the pass.** A body is found exactly if the literal is closed behind it,
    and if it has no newline or may have one. -/
theorem literalBody?_eq_some_iff
    (hopening : (classified (utf8 s)).drop offset = (mark, .opening) :: behind) :
    literalBody? (mask .literals s) s offset = some body ↔
      (utf8 body).map (·, Region.body) ++ [(mark, Region.closing)] <+: behind ∧
        (spansLines mark = true ∨ newline ∉ utf8 body) := by
  constructor
  · intro hbody
    obtain ⟨mark', -, hclosed⟩ := closedLiteral_of_literalBody? hopening hbody
    rw [hopening, List.cons_prefix_cons, Prod.mk.injEq] at hclosed
    obtain ⟨⟨rfl, -⟩, hclosed⟩ := hclosed
    refine ⟨hclosed, ?_⟩
    by_contra hbroken
    -- A newline in the body would have stopped the search.
    have hstops : newline ∈ utf8 body ∧ spansLines mark' = false := by
      simpa [and_comm] using hbroken
    obtain ⟨later, rfl⟩ := hclosed
    rw [literalBody?_eq_bind hopening, List.append_assoc, List.map_append,
      bodySize?_body_append (isMark_of_opening hopening), if_pos hstops] at hbody
    cases hbody
  · rintro ⟨hclosed, hline⟩
    obtain ⟨found, hfound, hbytes⟩ := exists_literalBody? hopening hclosed hline
    rw [hfound, utf8_injective hbytes]

end

/-! ### Literals among the lexemes -/

section
variable {bytes : List UInt8} {before after lexemes : List Lexeme} {mark : UInt8}
  {text : List UInt8}

/-- Only a literal has an opening mark, and it is its first byte. -/
theorem Lexeme.eq_literal_of_getElem? {lexeme : Lexeme} {i : Nat}
    (h : lexeme.classified[i]? = some (mark, .opening)) :
    i = 0 ∧ ∃ text isClosed, lexeme = .literal mark text isClosed := by
  have hmem := List.mem_of_getElem? h
  cases lexeme with
  | code b => simp [classified] at hmem
  | lineComment text => simp [classified] at hmem
  | blockComment text isClosed => simp [classified] at hmem
  | literal own text isClosed =>
    cases i with
    | zero =>
      obtain rfl : own = mark := by simpa [classified] using h
      exact ⟨rfl, text, isClosed, rfl⟩
    | succ i =>
      have hmem := List.mem_of_getElem? (show (text.map (·, Region.body) ++ _)[i]? = _ from h)
      cases isClosed <;> simp at hmem

/-- An opening mark is where a literal among the lexemes begins. -/
theorem exists_literal_of_getElem? {i : Nat}
    (h : (lexemes.flatMap Lexeme.classified)[i]? = some (mark, .opening)) :
    ∃ before text isClosed after, lexemes = before ++ .literal mark text isClosed :: after ∧
      i = (before.flatMap Lexeme.classified).length := by
  induction lexemes generalizing i with
  | nil => cases h
  | cons lexeme lexemes ih =>
    rw [List.flatMap_cons, List.getElem?_append] at h
    split at h
    · obtain ⟨rfl, text, isClosed, rfl⟩ := Lexeme.eq_literal_of_getElem? h
      exact ⟨[], text, isClosed, lexemes, rfl, rfl⟩
    · next hle =>
      obtain ⟨before, text, isClosed, after, rfl, hi⟩ := ih h
      refine ⟨lexeme :: before, text, isClosed, after, rfl, ?_⟩
      rw [List.flatMap_cons, List.length_append, ← hi]
      omega

/-- Behind a lexeme come further ones. -/
theorem Lexed.tail {lexeme : Lexeme} (h : Lexed bytes (lexeme :: lexemes)) :
    ∃ rest, Lexed rest lexemes := by
  cases h with
  | code _ _ hrest | lineComment _ _ hrest | blockComment _ hrest | literal _ _ hrest
  | brokenLiteral _ _ _ hrest =>
    exact ⟨_, hrest⟩
  | openComment | openLiteral => exact ⟨[], .nil⟩

/-- Behind a literal that is not closed stands the newline that breaks it off, or nothing. -/
theorem Lexed.behind_open (h : Lexed bytes (before ++ .literal mark text false :: after)) :
    after = [] ∨ spansLines mark = false ∧
      ∃ rest, after.flatMap Lexeme.classified = (newline, .code) :: rest := by
  induction before generalizing bytes with
  | nil =>
    cases h with
    | @brokenLiteral _ _ rest _ _ hline _ hrest =>
      refine Or.inr ⟨hline, classifiedFrom .code rest, ?_⟩
      rw [← classified_of_lexed hrest, classified, classifiedFrom_newline]
    | openLiteral => exact Or.inl rfl
  | cons lexeme before ih =>
    obtain ⟨rest, hrest⟩ := h.tail
    exact ih hrest

end

/-! ### Recovery -/

/-- The number of bytes that some lexemes take. -/
def extent (lexemes : List Lexeme) : Nat :=
  (lexemes.flatMap Lexeme.classified).length

section
variable {s : List Char} {before after : List Lexeme} {mark : UInt8} {text : List UInt8}
  {isClosed : Bool}

/-- What the pass says from the opening mark of a literal on. -/
theorem drop_extent (h : Lexed (utf8 s) (before ++ .literal mark text isClosed :: after)) :
    (classified (utf8 s)).drop (extent before)
      = (mark, .opening) :: (text.map (·, Region.body)
        ++ (if isClosed then [(mark, Region.closing)] else [])
        ++ after.flatMap Lexeme.classified) := by
  rw [classified_of_lexed h, List.flatMap_append, List.flatMap_cons, extent, List.drop_left]
  rfl

/-- The text of a literal stands behind its opening mark. -/
theorem take_drop_extent (h : Lexed (utf8 s) (before ++ .literal mark text isClosed :: after)) :
    ((utf8 s).drop (extent before + 1)).take text.length = text := by
  rw [← map_fst_classified (utf8 s), ← List.map_drop, ← List.drop_drop, drop_extent h]
  simp [Function.comp_def]

/-- A literal is closed if the pass says so behind its text. -/
theorem getElem?_closing_iff (h : Lexed (utf8 s) (before ++ .literal mark text isClosed :: after)) :
    (classified (utf8 s))[extent before + 1 + text.length]? = some (mark, .closing) ↔
      isClosed = true := by
  rw [Nat.add_assoc, ← List.getElem?_drop, drop_extent h, Nat.add_comm 1, List.getElem?_cons_succ,
    List.append_assoc, List.getElem?_append_right (by simp), List.length_map, Nat.sub_self]
  cases isClosed with
  | true => simp
  | false =>
    rcases h.behind_open with rfl | ⟨-, rest, hrest⟩
    · simp
    · simp [hrest]

/-- A literal that is not closed, or that has a newline and must not, is not read back. -/
theorem literalBody?_eq_none (h : Lexed (utf8 s) (before ++ .literal mark text isClosed :: after))
    (hlost : ¬(isClosed = true ∧ (spansLines mark = true ∨ newline ∉ text))) :
    literalBody? (mask .literals s) s (extent before) = none := by
  have hopening := drop_extent h
  have hmark := isMark_of_opening hopening
  rw [literalBody?_eq_bind hopening, List.append_assoc, List.map_append,
    bodySize?_body_append hmark]
  split
  · rfl
  · next hline =>
    obtain rfl : isClosed = false := by
      rw [Bool.eq_false_iff]
      intro hclosed
      apply hlost
      refine ⟨hclosed, ?_⟩
      by_contra hneither
      exact hline (by simpa [and_comm] using hneither)
    -- Behind the text the search meets a newline, or the end.
    rcases h.behind_open with rfl | ⟨hbroken, rest, hrest⟩
    · simp [bodySize?]
    · have hread : readByte (newline, .code) = newline := readByte_of_kept rfl
      have hne : newline ≠ mark := (ne_of_isMark hmark).2.2.symm
      simp [hrest, hread, bodySize?, hne, hbroken]

end

/-- **Literals are recovered.** Take any text, and any way of reading it as a row of lexemes (there
    is one). The pass opens a literal exactly where one of the lexemes is a literal. Its text stands
    behind the mark, and the pass closes it behind that if it is closed. Then the bytes of the text
    are read back if the literal may span lines or the text has no newline, and in all other cases
    nothing is. -/
theorem literals_recovered (s : List Char) :
    (∃ lexemes, Lexed (utf8 s) lexemes) ∧
    ∀ lexemes, Lexed (utf8 s) lexemes →
      (∀ opening mark, (classified (utf8 s))[opening]? = some (mark, .opening) →
        ∃ before text isClosed after, lexemes = before ++ .literal mark text isClosed :: after ∧
          opening = extent before) ∧
      ∀ before mark text isClosed after, lexemes = before ++ .literal mark text isClosed :: after →
        (classified (utf8 s))[extent before]? = some (mark, .opening) ∧
        ((utf8 s).drop (extent before + 1)).take text.length = text ∧
        ((classified (utf8 s))[extent before + 1 + text.length]? = some (mark, .closing) ↔
          isClosed = true) ∧
        if isClosed = true ∧ (spansLines mark = true ∨ newline ∉ text) then
          ∃ body, literalBody? (mask .literals s) s (extent before) = some body ∧ utf8 body = text
        else literalBody? (mask .literals s) s (extent before) = none := by
  refine ⟨exists_lexed _, fun lexemes hlexed => ⟨fun opening mark hopening => ?_, ?_⟩⟩
  · rw [classified_of_lexed hlexed] at hopening
    exact exists_literal_of_getElem? hopening
  · rintro before mark text isClosed after rfl
    have hopening := drop_extent hlexed
    refine ⟨?_, take_drop_extent hlexed, getElem?_closing_iff hlexed, ?_⟩
    · simpa using congrArg List.head? hopening
    · split
      · next hcase =>
        obtain ⟨rfl, hline⟩ := hcase
        exact exists_literalBody? hopening (List.prefix_append _ _) hline
      · next hcase => exact literalBody?_eq_none hlexed hcase

namespace Sample

/-- Literals with an escaped mark, with a mark and a comment of others, over two lines, and broken
    off. -/
def quotations : List Char :=
  "x'\\'é//\"'\x60b\n\x60'c\\\n'\"d".toList

/-- The lexemes of the sample. -/
theorem lexed_quotations :
    Lexed (utf8 quotations)
      [.code 0x78, .literal 0x27 [0x5c, 0x27, 0xc3, 0xa9, 0x2f, 0x2f, 0x22] true,
        .literal 0x60 [0x62, 0x0a] true, .literal 0x27 [0x63, 0x5c, 0x0a] true,
        .literal 0x22 [0x64] false] := by
  -- In turn: a literal with an escaped mark, one over two lines, one continued by an escape, one
  -- left open.
  have hescaped : LiteralText 0x27 [0x5c, 0x27, 0xc3, 0xa9, 0x2f, 0x2f, 0x22] := by
    refine .escape _ (.plain (by decide) (by decide) (by decide)
      (.plain (by decide) (by decide) (by decide) ?_))
    refine .plain (by decide) (by decide) (by decide)
      (.plain (by decide) (by decide) (by decide) ?_)
    exact .plain (by decide) (by decide) (by decide) .nil
  have hspanning : LiteralText 0x60 [0x62, 0x0a] :=
    .plain (by decide) (by decide) (by decide) (.plain (by decide) (by decide) (by decide) .nil)
  have hcontinued : LiteralText 0x27 [0x63, 0x5c, 0x0a] :=
    .plain (by decide) (by decide) (by decide) (.escape _ .nil)
  have hbroken : LiteralText 0x22 [0x64] := .plain (by decide) (by decide) (by decide) .nil
  have hbytes : utf8 quotations
      = [0x78, 0x27, 0x5c, 0x27, 0xc3, 0xa9, 0x2f, 0x2f, 0x22, 0x27, 0x60, 0x62, 0x0a, 0x60, 0x27,
        0x63, 0x5c, 0x0a, 0x27, 0x22, 0x64] := by decide +kernel
  rw [hbytes]
  refine .code (by decide) (by decide)
    (.literal (by decide) hescaped (.literal (by decide) hspanning ?_))
  exact .literal (by decide) hcontinued (.openLiteral (by decide) hbroken (Or.inl rfl))

/-- The first literal is read back with all that looks like a delimiter in it, and so is the one
    that may span lines. A literal of one line that a backslash takes over to the next is not, nor
    is one that is not closed. -/
theorem literals_recovered_quotations :
    (∃ body, literalBody? (mask .literals quotations) quotations 1 = some body ∧
      utf8 body = [0x5c, 0x27, 0xc3, 0xa9, 0x2f, 0x2f, 0x22]) ∧
    (∃ body, literalBody? (mask .literals quotations) quotations 10 = some body ∧
      utf8 body = [0x62, 0x0a]) ∧
    literalBody? (mask .literals quotations) quotations 14 = none ∧
    literalBody? (mask .literals quotations) quotations 19 = none := by
  have hread := ((literals_recovered quotations).2 _ lexed_quotations).2
  refine ⟨?_, ?_, ?_, ?_⟩
  · exact (hread [.code 0x78] _ _ _ _ rfl).2.2.2
  · exact (hread [.code 0x78, .literal 0x27 [0x5c, 0x27, 0xc3, 0xa9, 0x2f, 0x2f, 0x22] true] _
      _ _ _ rfl).2.2.2
  · exact (hread [.code 0x78, .literal 0x27 [0x5c, 0x27, 0xc3, 0xa9, 0x2f, 0x2f, 0x22] true,
      .literal 0x60 [0x62, 0x0a] true] _ _ _ _ rfl).2.2.2
  · exact (hread [.code 0x78, .literal 0x27 [0x5c, 0x27, 0xc3, 0xa9, 0x2f, 0x2f, 0x22] true,
      .literal 0x60 [0x62, 0x0a] true, .literal 0x27 [0x63, 0x5c, 0x0a] true] _ _ _ _ rfl).2.2.2

end Sample

end BlastRadius.Source
