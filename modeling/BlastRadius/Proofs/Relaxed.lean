import BlastRadius.Proofs.Mask
import BlastRadius.Proofs.TrailingComma

namespace BlastRadius

/-!
# Strict texts as relaxed ones

A strict text has no comments, and between its tokens no commas that are dropped. So it can be read
as a relaxed text as well, and the same is read, up to commas in its strings.

* `Source.mask_append` — what is a row of lexemes on its own is masked on its own.
* `Json.Spelled.mask_comments` — a text without comments is not masked.
* `Json.relaxed_conservative` — the theorem; `Json.Sample.relaxed_changes_text` — a string that is
  not read alike.
-/

open Text Source

/-! ### Masking piece by piece -/

namespace Source

/-- No byte of a lexeme belongs to a comment. -/
def Lexeme.IsKept (lexeme : Lexeme) : Prop :=
  ∀ x ∈ lexeme.classified, x.2 ≠ .comment

/-- Bytes that are lexemes of their own, whatever stands behind them. -/
def SetApart (front : List UInt8) (own : List Lexeme) : Prop :=
  ∀ rest lexemes, Lexed rest lexemes → Lexed (front ++ rest) (own ++ lexemes)

section
variable {mode : MaskMode} {front shown : List Char} {own : List Lexeme}

/-- What is set apart is masked on its own. -/
theorem mask_append (h : SetApart (utf8 front) own)
    (hshown : (own.flatMap Lexeme.classified).map (fun x => maskByte mode x.1 x.2) = utf8 shown)
    (s : List Char) : mask mode (front ++ s) = shown ++ mask mode s := by
  have hbytes : maskBytes mode (utf8 (front ++ s)) = utf8 (shown ++ mask mode s) := by
    obtain ⟨lexemes, hlexed⟩ := exists_lexed (utf8 s)
    rw [utf8_append, utf8_append, utf8_mask, maskBytes, maskBytes,
      classified_of_lexed (h _ _ hlexed), classified_of_lexed hlexed, List.flatMap_append,
      List.map_append, hshown]
  -- The masked text has these bytes, and they stand for one text only.
  have hdecode := decode?_maskBytes mode (front ++ s)
  rw [hbytes, decode?_utf8] at hdecode
  exact (Option.some.inj hdecode).symm

/-- A front without comments, set apart from the rest, is kept. -/
theorem mask_comments_append (h : SetApart (utf8 front) own) (hkept : ∀ lexeme ∈ own, lexeme.IsKept)
    (s : List Char) : mask .comments (front ++ s) = front ++ mask .comments s := by
  -- Followed by nothing, the front is classified by its own lexemes.
  have hown : own.flatMap Lexeme.classified = classified (utf8 front) := by
    simpa using (classified_of_lexed (h [] [] .nil)).symm
  have hfst : ∀ x ∈ own.flatMap Lexeme.classified, maskByte .comments x.1 x.2 = x.1 := by
    intro x hx
    obtain ⟨lexeme, hlexeme, hx⟩ := List.mem_flatMap.1 hx
    have hregion := hkept lexeme hlexeme x hx
    refine if_pos (.inr ?_)
    cases hkeeps : MaskMode.comments.keeps x.2 with
    | true => rfl
    | false =>
      rw [keeps_eq_false_iff] at hkeeps
      simp [hregion] at hkeeps
  refine mask_append h ?_ s
  rw [List.map_congr_left hfst, hown, map_fst_classified]

end

/-- A character that neither starts a comment nor opens a literal. -/
def IsBare (c : Char) : Prop :=
  c ∉ ['/', '"', '\x27', '\x60']

/-- No byte of a bare character opens a literal or a comment. -/
theorem IsBare.byte {c : Char} (hc : IsBare c) {b : UInt8} (hb : b ∈ String.utf8EncodeChar c) :
    isMark b = false ∧ b ≠ 0x2f := by
  constructor
  · cases hmark : isMark b with
    | false => rfl
    | true =>
      exfalso
      unfold isMark at hmark
      simp only [Bool.or_eq_true, beq_iff_eq] at hmark
      -- The marks and the slash are ASCII, so a byte of theirs is the character itself.
      rcases hmark with (rfl | rfl) | rfl
      all_goals
        rw [eq_of_mem_utf8EncodeChar hb (by decide)] at hc
        exact hc (by decide)
  · rintro rfl
    rw [eq_of_mem_utf8EncodeChar hb (by decide)] at hc
    exact hc (by decide)

/-- Bare characters are set apart as code. -/
theorem setApart_bare {word : List Char} (hword : ∀ c ∈ word, IsBare c) :
    SetApart (utf8 word) ((utf8 word).map .code) := by
  have hbytes : ∀ b ∈ utf8 word, isMark b = false ∧ b ≠ 0x2f := by
    intro b hb
    obtain ⟨c, hc, hb⟩ := List.mem_flatMap.1 hb
    exact (hword c hc).byte hb
  intro rest lexemes hlexed
  generalize utf8 word = front at hbytes
  induction front with
  | nil => exact hlexed
  | cons b front ih =>
    obtain ⟨⟨hmark, hslash⟩, hfront⟩ := List.forall_mem_cons.1 hbytes
    exact .code hmark (fun h => absurd h hslash) (ih hfront)

/-- Program text is not masked. -/
theorem mask_comments_bare {word : List Char} (hword : ∀ c ∈ word, IsBare c) (s : List Char) :
    mask .comments (word ++ s) = word ++ mask .comments s := by
  refine mask_comments_append (setApart_bare hword) (List.forall_mem_map.2 fun b _ => ?_) s
  simp [Lexeme.IsKept, Lexeme.classified]

/-- A closed literal is set apart. -/
theorem setApart_literal {mark : UInt8} {text : List UInt8} (hmark : isMark mark = true)
    (htext : LiteralText mark text) :
    SetApart (mark :: (text ++ [mark])) [.literal mark text true] := by
  intro rest lexemes hlexed
  rw [List.cons_append, List.append_assoc]
  exact .literal hmark htext hlexed

/-- Characters of a literal that neither end it nor take the next one with them. -/
theorem LiteralText.append {mark : UInt8} {front text : List UInt8}
    (hfront : ∀ b ∈ front, b ≠ 0x5c ∧ b ≠ mark ∧ b ≠ newline) (h : LiteralText mark text) :
    LiteralText mark (front ++ text) := by
  induction front with
  | nil => exact h
  | cons b front ih =>
    obtain ⟨⟨hescape, hmark, hline⟩, hfront⟩ := List.forall_mem_cons.1 hfront
    exact .plain hescape hmark (fun h => absurd h hline) (ih hfront)

end Source

namespace Json

/-! ### Strict texts have no comments -/

section
variable {c : Char} {word s body : List Char} {parts : List Part} {token : Token}
  {tokens : List Token}

/-- A character other than a quote, an escape or a line break belongs to a literal. -/
theorem literalText_char (hc : c ∉ ['"', '\\', '\n']) {text : List UInt8}
    (h : LiteralText 0x22 text) : LiteralText 0x22 (String.utf8EncodeChar c ++ text) := by
  refine h.append fun b hb => ⟨?_, ?_, ?_⟩
  all_goals
    rintro rfl
    rw [eq_of_mem_utf8EncodeChar hb (by decide)] at hc
    exact hc (by decide)

/-- The parts of a string do not end the literal. -/
theorem StringText.literalText (h : StringText body parts) : LiteralText 0x22 (utf8 body) := by
  induction h with
  | nil => exact .nil
  -- A coded unit is an escaped letter, and four digits that are plain text of the literal.
  | @unit a b c d n s parts hn _ ih =>
    have hdigit : ∀ x ∈ [a, b, c, d], x ∉ ['"', '\\', '\n'] :=
      fun x hx hmem => digits_of_unit? hn x hx (List.mem_cons_of_mem _ hmem)
    simp only [List.forall_mem_cons] at hdigit
    obtain ⟨ha, hb, hc, hd, -⟩ := hdigit
    exact .escape _ (literalText_char ha
      (literalText_char hb (literalText_char hc (literalText_char hd ih))))
  | @escape letter c s parts hc _ ih =>
    have hletter : ∀ x ∈ ['"', '\\', '/', 'b', 'f', 'n', 'r', 't'], ∃ b,
        String.utf8EncodeChar x = [b] := by
      simp only [List.forall_mem_cons]
      exact ⟨⟨_, rfl⟩, ⟨_, rfl⟩, ⟨_, rfl⟩, ⟨_, rfl⟩, ⟨_, rfl⟩, ⟨_, rfl⟩, ⟨_, rfl⟩, ⟨_, rfl⟩, nofun⟩
    obtain ⟨b, hb⟩ := hletter letter (letter_of_escape? hc)
    show LiteralText 0x22 (0x5c :: (String.utf8EncodeChar letter ++ utf8 s))
    rw [hb]
    exact .escape b ih
  -- A line break is a control character, so it is not written plainly.
  | plain hquote hslash hcontrol _ ih =>
    refine literalText_char ?_ ih
    simp only [List.mem_cons, List.not_mem_nil, or_false, hquote, hslash, false_or]
    rintro rfl
    exact hcontrol (by decide)

/-- The characters of numbers are bare. -/
theorem isBare_of_inNumber (hc : InNumber c) : IsBare c := by
  intro hmem
  simp only [List.mem_cons, List.not_mem_nil, or_false] at hmem
  rcases hmem with rfl | rfl | rfl | rfl <;> exact absurd hc (by simp [InNumber])

/-- So are blanks. -/
theorem isBare_of_isJsonBlank (hc : isJsonBlank c = true) : IsBare c := by
  intro hmem
  simp only [List.mem_cons, List.not_mem_nil, or_false] at hmem
  rcases hmem with rfl | rfl | rfl | rfl <;> cases hc

/-- So are the characters of fixed tokens. -/
theorem isBare_fixed : ∀ x ∈ fixedTexts, ∀ c ∈ x.1, IsBare c := by
  simp [fixedTexts, IsBare]

/-- A token is not masked: what stands between quotation marks is no comment. -/
theorem Written.mask_comments (h : Written word token) (s : List Char) :
    mask .comments (word ++ s) = word ++ mask .comments s := by
  cases h with
  | fixed h => exact mask_comments_bare (isBare_fixed _ h) s
  | num h => exact mask_comments_bare (fun c hc => isBare_of_inNumber (h.inNumber c hc)) s
  | @str body parts h =>
    have hbytes : utf8 ('"' :: (body ++ ['"'])) = 0x22 :: (utf8 body ++ [0x22]) := by
      rw [utf8_cons, utf8_append]
      rfl
    refine mask_comments_append (hbytes ▸ setApart_literal rfl h.literalText) ?_ s
    simp [Lexeme.IsKept, Lexeme.classified, or_imp, forall_and]

/-- A blank is not masked. -/
theorem mask_comments_blank (hc : isJsonBlank c = true) (s : List Char) :
    mask .comments (c :: s) = c :: mask .comments s :=
  mask_comments_bare (List.forall_mem_singleton.2 (isBare_of_isJsonBlank hc)) s

/-- A row of tokens has no comments. -/
theorem Spelled.mask_comments (h : Spelled s tokens) : mask .comments s = s := by
  induction h with
  | nil => rfl
  | blank hc _ ih => rw [mask_comments_blank hc, ih]
  | token hword _ _ ih => rw [hword.mask_comments, ih]

end

/-! ### Reading a strict text as a relaxed one -/

/-- In a text that has a tree no comma stands before a closing bracket. -/
theorem exists_spelled_of_tree? {s : List Char} {t : Tree} (h : tree? s = some t) :
    ∃ tokens, Spelled s tokens ∧ tokens.IsChain Token.Fits ∧
      treeWithin? tokens.length tokens = some (t, []) := by
  obtain ⟨tokens, htokens, h⟩ := Option.bind_eq_some_iff.1 h
  obtain ⟨⟨t', rest⟩, htree, h⟩ := Option.bind_eq_some_iff.1 h
  dsimp only at h
  split at h
  · next hrest =>
    cases h
    obtain rfl : rest = [] := List.isEmpty_iff.1 hrest
    obtain ⟨front, hfront, hrow⟩ := (readsRows _).tree htree
    obtain rfl : tokens = front := by simpa using hfront
    exact ⟨tokens, tokens?_eq_some_iff.1 htokens, hrow.fits, htree⟩
  · cases h

/-- A text is read as the tree of its tokens. -/
theorem tree?_of_spelled {s : List Char} {tokens : List Token} {t : Tree} (h : Spelled s tokens)
    (htree : treeWithin? tokens.length tokens = some (t, [])) : tree? s = some t := by
  simp [tree?, tokens?_eq_some_iff.2 h, htree]

/-- A text of tokens has no comments, so only commas are dropped. -/
theorem relaxed_of_spelled {s : List Char} {tokens : List Token} (h : Spelled s tokens) :
    relaxed s = dropTrailingCommas s := by
  rw [relaxed, h.mask_comments]

/-- A text that has a tree has, as a relaxed text, the same tree up to trailing commas in
    strings. -/
theorem exists_tree?_relaxed {s : List Char} {t : Tree} (h : tree? s = some t) :
    ∃ t', tree? (relaxed s) = some t' ∧ t'.mapText bare = t.mapText bare ∧
      literals (relaxed s) = (literals s).map dropTrailingCommas := by
  obtain ⟨tokens, hspelled, hfits, htree⟩ := exists_spelled_of_tree? h
  obtain ⟨⟨tokens', hspelled', hmap⟩, hliterals, -⟩ := hspelled.dropped hfits
  have hlength : tokens'.length = tokens.length := by
    have hcount := congrArg List.length hmap
    rwa [List.length_map, List.length_map] at hcount
  -- Without their commas both rows are the same, and reading does not look at the texts.
  have hblind := (blind bare tokens.length).tree
  have hread : (treeWithin? tokens.length tokens').map
      (fun found => (found.1.mapText bare, found.2.map (Token.mapText bare)))
        = some (t.mapText bare, []) := by
    rw [← hblind, hmap, hblind, htree]
    rfl
  obtain ⟨⟨t', rest⟩, hfound, heq⟩ := Option.map_eq_some_iff.1 hread
  rw [Prod.mk.injEq, List.map_eq_nil_iff] at heq
  obtain ⟨hbare, rfl⟩ := heq
  rw [relaxed_of_spelled hspelled]
  exact ⟨t', tree?_of_spelled hspelled' (by rw [hlength]; exact hfound), hbare, hliterals⟩

/-- A text can be read where its tree has a value. -/
theorem isSome_parse? (s : List Char) :
    (parse? s).isSome = ((tree? s).bind (·.value? depthLimit)).isSome := by
  unfold parse?
  cases htree : tree? s with
  | none => rfl
  | some t =>
    show (t.value? depthLimit >>= fun value => pure value.distinct).isSome
        = (t.value? depthLimit).isSome
    cases t.value? depthLimit <;> rfl

/-- **A strict text as a relaxed one.** A text that can be read is read as a relaxed text too: as
    the same tree up to commas in strings and keys, and the commas that are gone are those that
    stand, apart from blanks, before a closing bracket. It has a value if it had one. If there are
    no such commas between its quotation marks, it is left as it is, and so is its value. -/
theorem relaxed_conservative (s : List Char) :
    (∀ t, tree? s = some t → ∃ t', tree? (relaxed s) = some t' ∧ t'.mapText bare = t.mapText bare ∧
      literals (relaxed s) = (literals s).map dropTrailingCommas) ∧
    (∀ v, parse? s = some v → ∃ v', parse? (relaxed s) = some v') ∧
    ∀ t, tree? s = some t → (∀ body ∈ literals s, KeepsCommas body) →
      relaxed s = s ∧ tree? (relaxed s) = some t ∧ parse? (relaxed s) = parse? s := by
  refine ⟨fun t ht => exists_tree?_relaxed ht, fun v hv => ?_, fun t ht hkeeps => ?_⟩
  · have hsome : ((tree? s).bind (·.value? depthLimit)).isSome = true := by
      rw [← isSome_parse?, hv]
      rfl
    rw [← Option.isSome_iff_exists, isSome_parse?]
    -- Whether a tree has a value does not hang on the texts in its literals.
    cases ht : tree? s with
    | none =>
      rw [ht] at hsome
      cases hsome
    | some t =>
      obtain ⟨t', ht', hbare, -⟩ := exists_tree?_relaxed ht
      rw [ht] at hsome
      rw [ht']
      show (t'.value? depthLimit).isSome = true
      rw [← isSome_value?_mapText bare, hbare, isSome_value?_mapText]
      exact hsome
  · obtain ⟨tokens, hspelled, hfits, -⟩ := exists_spelled_of_tree? ht
    have hsame : relaxed s = s := by
      rw [relaxed_of_spelled hspelled]
      exact (hspelled.dropped hfits).2.2 hkeeps
    rw [hsame]
    exact ⟨rfl, ht, rfl⟩

namespace Sample

/-- A text with marks of comments, brackets and commas between quotation marks. -/
def marked : List Char :=
  "\x7b\"src/*\": [\"a, b\", \"// \\\"\x7d ,\", -1e2], \"\": \x7b\x7d \x7d".toList

/-- The sample has marks of comments and a comma inside its literals, and is kept as it is. -/
theorem relaxed_conservative_marked :
    (tree? marked).isSome = true ∧ (∀ body ∈ literals marked, KeepsCommas body) ∧
    relaxed marked = marked := by
  have htree : (tree? marked).isSome = true := by decide +kernel
  have hkeeps : ∀ body ∈ literals marked, KeepsCommas body := by
    have hsame : ∀ body ∈ literals marked, dropTrailingCommas body = body := by decide +kernel
    exact fun body hbody => dropTrailingCommas_eq_self_iff.1 (hsame body hbody)
  obtain ⟨t, ht⟩ := Option.isSome_iff_exists.1 htree
  exact ⟨htree, hkeeps, ((relaxed_conservative marked).2.2 t ht hkeeps).1⟩

/-- **Where they differ.**  A comma between quotation marks is dropped before a closing bracket. -/
theorem relaxed_changes_text :
    parse? "\"a,]\"".toList = some (.str "a,]") ∧
    parse? (relaxed "\"a,]\"".toList) = some (.str "a]") := by
  have hrelaxed : relaxed "\"a,]\"".toList = "\"a]\"".toList := by decide +kernel
  rw [hrelaxed]
  exact ⟨rfl, rfl⟩

end Sample

end Json

end BlastRadius
