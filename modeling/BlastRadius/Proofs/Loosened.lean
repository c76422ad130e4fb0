import BlastRadius.Proofs.Relaxed

namespace BlastRadius.Json

/-!
# Loosened texts

A strict text is loosened by comments between its tokens, and by commas behind the last elements of
its arrays and objects. Read as a relaxed text, a loosened one is what it was before.

* `IsComment`, `IsComment.mask` — comments, which are masked to blanks whatever they say.
* `Loosened` — a text and what it can be loosened to.
* `Loosened.spelled` — the tokens of a text are those of a loosened one, once it is made strict.
* `relaxed_loosened` — the theorem.
-/

open Text Source

/-! ### Comments -/

/-- A comment: a line with its newline, or a block with its closing mark. -/
inductive IsComment : List Char → Prop where
  | line {text : List Char} (htext : '\n' ∉ text) : IsComment ('/' :: '/' :: (text ++ ['\n']))
  | block {text : List Char} (htext : ¬['*', '/'] <:+: text) :
      IsComment ('/' :: '*' :: (text ++ ['*', '/']))

section
variable {text comment : List Char}

/-- A text without line breaks has none among its bytes. -/
theorem newline_not_mem_utf8 (h : '\n' ∉ text) : newline ∉ utf8 text := by
  intro hmem
  obtain ⟨c, hc, hb⟩ := List.mem_flatMap.1 hmem
  rw [eq_of_mem_utf8EncodeChar hb (by decide)] at hc
  exact h hc

/-- What is not begun in front lies behind. -/
theorem infix_of_infix_append {a b : UInt8} {front rest : List UInt8} (hfront : a ∉ front)
    (h : [a, b] <:+: front ++ rest) : [a, b] <:+: rest := by
  induction front with
  | nil => exact h
  | cons first front ih =>
    rw [List.mem_cons, not_or] at hfront
    rcases List.infix_cons_iff.1 h with hstart | h
    · exact absurd (List.cons_prefix_cons.1 hstart).1 hfront.1
    · exact ih hfront.2 h

/-- The bytes of a text hold a closing mark only where the text does. -/
theorem infix_of_infix_utf8 (h : [0x2a, 0x2f] <:+: utf8 text) : ['*', '/'] <:+: text := by
  induction text with
  | nil => simp [utf8_nil] at h
  | cons c text ih =>
    have hlater : [0x2a, 0x2f] <:+: utf8 text → ['*', '/'] <:+: c :: text :=
      fun h => (ih h).trans (List.suffix_cons c text).isInfix
    rw [utf8_cons] at h
    by_cases hc : c = '*'
    · subst hc
      rcases List.infix_cons_iff.1 h with hstart | h
      · -- The mark starts here, so the next character is a slash.
        obtain ⟨rest, hrest⟩ := (List.cons_prefix_cons.1 hstart).2
        cases text with
        | nil => cases hrest
        | cons d text =>
          have hd : (0x2f : UInt8) ∈ String.utf8EncodeChar d := by
            cases hencoded : String.utf8EncodeChar d with
            | nil => exact absurd hencoded String.utf8EncodeChar_ne_nil
            | cons b bytes =>
              rw [utf8_cons, hencoded] at hrest
              cases hrest
              exact List.mem_cons_self
          rw [eq_of_mem_utf8EncodeChar hd (by decide)]
          exact ⟨[], text, rfl⟩
      · exact hlater h
    · refine hlater (infix_of_infix_append (fun hb => ?_) h)
      exact hc (eq_of_mem_utf8EncodeChar hb (by decide))

/-- What is left of a byte of a comment. -/
def veiled (b : UInt8) : Char :=
  if b = newline then '\n' else ' '

/-- A veiled byte is a blank. -/
theorem isJsonBlank_veiled (b : UInt8) : isJsonBlank (veiled b) = true := by
  unfold veiled
  split <;> rfl

/-- Veiling gives what masking writes for a comment. -/
theorem utf8_map_veiled (bytes : List UInt8) :
    utf8 (bytes.map veiled) = bytes.map fun b => maskByte .comments b .comment := by
  induction bytes with
  | nil => rfl
  | cons b bytes ih =>
    rw [List.map_cons, List.map_cons, utf8_cons, ih]
    unfold veiled maskByte
    by_cases hb : b = newline
    · rw [if_pos hb, if_pos (.inl hb), hb]
      rfl
    · rw [if_neg hb, if_neg (by simp [hb, MaskMode.keeps])]
      rfl

/-- A comment is masked to blanks. -/
theorem IsComment.mask (h : IsComment comment) (s : List Char) :
    Source.mask .comments (comment ++ s)
      = (utf8 comment).map veiled ++ Source.mask .comments s := by
  cases h with
  -- The line break stays outside of the comment, but is veiled as itself.
  | @line text htext =>
    have hbytes : utf8 ('/' :: '/' :: (text ++ ['\n']))
        = 0x2f :: 0x2f :: (utf8 text ++ [newline]) := by
      rw [utf8_cons, utf8_cons, utf8_append]
      rfl
    have hapart : SetApart (0x2f :: 0x2f :: (utf8 text ++ [newline]))
        [.lineComment (utf8 text), .code newline] := by
      intro rest lexemes hlexed
      have hrest : Lexed (newline :: rest) (.code newline :: lexemes) :=
        .code (by decide) (fun h => absurd h (by decide)) hlexed
      simpa using Lexed.lineComment (newline_not_mem_utf8 htext) (.inr rfl) hrest
    rw [hbytes]
    refine mask_append (hbytes ▸ hapart) ?_ s
    rw [utf8_map_veiled]
    simp [Lexeme.classified, maskByte]
  | @block text htext =>
    have hbytes : utf8 ('/' :: '*' :: (text ++ ['*', '/']))
        = 0x2f :: 0x2a :: (utf8 text ++ [0x2a, 0x2f]) := by
      rw [utf8_cons, utf8_cons, utf8_append]
      rfl
    have hapart : SetApart (0x2f :: 0x2a :: (utf8 text ++ [0x2a, 0x2f]))
        [.blockComment (utf8 text) true] := by
      intro rest lexemes hlexed
      simpa using Lexed.blockComment (fun h => htext (infix_of_infix_utf8 h)) hlexed
    rw [hbytes]
    refine mask_append (hbytes ▸ hapart) ?_ s
    rw [utf8_map_veiled]
    simp [Lexeme.classified]

end

/-! ### Loosening -/

/-- Whether an element ends with a token. -/
def Token.endsElement : Token → Bool
  | .openBrace | .openBracket | .colon | .comma => false
  | _ => true

/-- A closing bracket comes next, apart from blanks. -/
def BeforeBracket (s : List Char) : Prop :=
  ∃ blanks bracket rest, s = blanks ++ bracket :: rest ∧ (∀ c ∈ blanks, isJsonBlank c = true) ∧
    bracket ∈ [']', '\x7d']

/-- How the rest of a text can be loosened. The flag tells whether it stands behind an element, with
    no comma put there so far: an element before a closing bracket is the last one of its array or
    object. -/
inductive Loosened : Bool → List Char → List Char → Prop where
  | nil {behind : Bool} : Loosened behind [] []
  | blank {behind : Bool} {c : Char} {s s' : List Char} (hc : isJsonBlank c = true)
      (hs : Loosened behind s s') : Loosened behind (c :: s) (c :: s')
  | token {behind : Bool} {word s s' : List Char} {token : Token} (hword : Written word token)
      (hends : token.EndsAt s) (hs : Loosened token.endsElement s s') :
      Loosened behind (word ++ s) (word ++ s')
  | comment {behind : Bool} {comment s s' : List Char} (hcomment : IsComment comment)
      (hs : Loosened behind s s') : Loosened behind s (comment ++ s')
  | comma {s s' : List Char} (hlast : BeforeBracket s) (hs : Loosened false s s') :
      Loosened true s (',' :: s')

section
variable {behind : Bool} {s s' word : List Char} {token : Token}

/-- Blanks do not count in front of a closing bracket. -/
theorem closesNext_append {blanks : List Char} (hblanks : ∀ c ∈ blanks, isJsonBlank c = true)
    (s : List Char) : closesNext (blanks ++ s) = closesNext s := by
  induction blanks with
  | nil => rfl
  | cons c blanks ih =>
    obtain ⟨hc, hblanks⟩ := List.forall_mem_cons.1 hblanks
    rw [List.cons_append, closesNext_blank (isBlank_of_isJsonBlank hc), ih hblanks]

/-- A closing bracket that comes next is seen. -/
theorem BeforeBracket.closesNext (h : BeforeBracket s) : Json.closesNext s = true := by
  obtain ⟨blanks, bracket, rest, rfl, hblanks, hbracket⟩ := h
  rw [closesNext_append hblanks]
  simp only [List.mem_cons, List.not_mem_nil, or_false] at hbracket
  rcases hbracket with rfl | rfl <;> rfl

/-- A comma is not masked. -/
theorem mask_comments_comma (s : List Char) : mask .comments (',' :: s) = ',' :: mask .comments s :=
  mask_comments_bare (List.forall_mem_singleton.2 (by simp [IsBare])) s

/-- Unless a comma can be put in, what comes next is what came next before. -/
theorem Loosened.closesNext (h : Loosened behind s s') (hbehind : behind = false) :
    Json.closesNext (mask .comments s') = Json.closesNext s := by
  induction h with
  | nil => rfl
  | blank hc _ ih =>
    have hblank := isBlank_of_isJsonBlank hc
    rw [mask_comments_blank hc, closesNext_blank hblank, closesNext_blank hblank, ih hbehind]
  | token hword _ _ _ => rw [hword.mask_comments, hword.closesNext, hword.closesNext]
  | comment hcomment _ ih =>
    rw [hcomment.mask, closesNext_append (List.forall_mem_map.2 fun b _ => isJsonBlank_veiled b),
      ih hbehind]
  | comma _ _ _ => cases hbehind

/-- Where a number ends, it ends also in a loosened text. -/
theorem Loosened.endsNumber (h : Loosened behind s s') (hs : EndsNumber s) :
    EndsNumber (mask .comments s') := by
  -- Whatever is put in, a number is not continued.
  cases h with
  | nil => exact hs
  | blank hc _ =>
    rw [mask_comments_blank hc]
    exact endsNumber_cons (hs _ rfl)
  | token hword _ _ =>
    obtain ⟨c, w, rfl, -⟩ := hword.exists_cons
    rw [hword.mask_comments]
    exact endsNumber_cons (hs c rfl)
  | comment hcomment _ =>
    rw [hcomment.mask]
    cases hcomment <;> exact endsNumber_cons (by decide)
  | comma _ _ =>
    rw [mask_comments_comma]
    exact endsNumber_cons (by decide)

/-- Loosening leaves a token where it ends. -/
theorem Loosened.endsAt (h : Loosened behind s s') (hs : token.EndsAt s) :
    token.EndsAt (mask .comments s') := by
  cases token with
  | num _ => exact h.endsNumber hs
  | _ => trivial

/-- So does dropping commas. -/
theorem Token.EndsAt.dropped (h : token.EndsAt s) : token.EndsAt (dropTrailingCommas s) := by
  cases token with
  | num _ => exact EndsNumber.dropped h
  | _ => trivial

/-- Blanks stay when commas are dropped. -/
theorem dropTrailingCommas_blanks {blanks : List Char}
    (hblanks : ∀ c ∈ blanks, isJsonBlank c = true) (s : List Char) :
    dropTrailingCommas (blanks ++ s) = blanks ++ dropTrailingCommas s := by
  refine dropTrailingCommas_append (fun hmem => ?_) s
  cases hblanks _ hmem

/-- Blanks in front spell no token. -/
theorem Spelled.blanks {blanks : List Char} {tokens : List Token}
    (hblanks : ∀ c ∈ blanks, isJsonBlank c = true) (h : Spelled s tokens) :
    Spelled (blanks ++ s) tokens := by
  induction blanks with
  | nil => exact h
  | cons c blanks ih =>
    obtain ⟨hc, hblanks⟩ := List.forall_mem_cons.1 hblanks
    exact .blank hc (ih hblanks)

/-- **The tokens of a loosened text.** A text that can be loosened is a row of tokens. If no comma
    in it stands before a closing bracket, neither between its tokens nor in its strings, the
    loosened text is, once it is made strict, a row of the same tokens. -/
theorem Loosened.spelled (h : Loosened behind s s') :
    ∃ tokens, Spelled s tokens ∧
      (tokens.IsChain Token.Fits → (∀ body ∈ literals s, KeepsCommas body) →
        Spelled (relaxed s') tokens) := by
  induction h with
  | nil => exact ⟨[], .nil, fun _ _ => .nil⟩
  | @blank behind c s s' hc _ ih =>
    obtain ⟨tokens, hspelled, hrelaxed⟩ := ih
    have hblank : ∀ x ∈ [c], isJsonBlank x = true := List.forall_mem_singleton.2 hc
    refine ⟨tokens, .blank hc hspelled, fun hfits hkeeps => ?_⟩
    have hquote : '"' ∉ [c] := fun hmem => by cases hblank _ hmem
    rw [← List.singleton_append, literals_append hquote] at hkeeps
    rw [relaxed, mask_comments_blank hc, ← List.singleton_append, dropTrailingCommas_blanks hblank]
    exact (hrelaxed hfits hkeeps).blanks hblank
  | @token behind word s s' token hword hends hs ih =>
    obtain ⟨tokens, hspelled, hrelaxed⟩ := ih
    refine ⟨token :: tokens, .token hword hends hspelled, fun hfits hkeeps => ?_⟩
    -- A comma of the text is followed by an element, so nothing is put in between them.
    have hcomma : token = .comma → Json.closesNext (mask .comments s') = false := by
      rintro rfl
      rw [hs.closesNext rfl, hspelled.closesNext]
      cases tokens with
      | nil => rfl
      | cons next tokens => exact (List.isChain_cons_cons.1 hfits).1 rfl
    have hends' := hs.endsAt hends
    obtain ⟨word', -, hdropped, -, -, -, own, hown, -, hsame⟩ := hword.dropped hends' hcomma
    rw [hown, List.forall_mem_append] at hkeeps
    rw [relaxed, hword.mask_comments, hdropped, hsame hkeeps.1]
    exact .token hword hends'.dropped (hrelaxed hfits.tail hkeeps.2)
  | @comment behind comment s s' hcomment _ ih =>
    obtain ⟨tokens, hspelled, hrelaxed⟩ := ih
    refine ⟨tokens, hspelled, fun hfits hkeeps => ?_⟩
    have hblanks : ∀ c ∈ (utf8 comment).map veiled, isJsonBlank c = true :=
      List.forall_mem_map.2 fun b _ => isJsonBlank_veiled b
    rw [relaxed, hcomment.mask, dropTrailingCommas_blanks hblanks]
    exact (hrelaxed hfits hkeeps).blanks hblanks
  | @comma s s' hlast hs ih =>
    obtain ⟨tokens, hspelled, hrelaxed⟩ := ih
    refine ⟨tokens, hspelled, fun hfits hkeeps => ?_⟩
    have hcloses : Json.closesNext (mask .comments s') = true := by
      rw [hs.closesNext rfl, hlast.closesNext]
    rw [relaxed, mask_comments_comma, dropTrailingCommas, if_pos ⟨rfl, hcloses⟩]
    exact hrelaxed hfits hkeeps

end

/-- **A loosened text as a relaxed one.** Take a text that can be read, with no comma in its strings
    that stands, apart from blanks, before a closing bracket. However it is loosened, it is read as
    the same tree, and has the same value. -/
theorem relaxed_loosened {s s' : List Char} {t : Tree} (ht : tree? s = some t)
    (hkeeps : ∀ body ∈ literals s, KeepsCommas body) (h : Loosened false s s') :
    tree? (relaxed s') = some t ∧ parse? (relaxed s') = parse? s := by
  obtain ⟨tokens, hspelled, hfits, htree⟩ := exists_spelled_of_tree? ht
  obtain ⟨tokens', hspelled', hrelaxed⟩ := h.spelled
  -- A text is a row of one list of tokens only.
  obtain rfl : tokens' = tokens :=
    Option.some.inj ((tokens?_eq_some_iff.2 hspelled').symm.trans (tokens?_eq_some_iff.2 hspelled))
  have htree' : tree? (relaxed s') = some t := tree?_of_spelled (hrelaxed hfits hkeeps) htree
  exact ⟨htree', by rw [parse?, parse?, htree', ht]⟩

namespace Sample

/-- A text with the mark of a comment in a string. -/
def tidy : List Char :=
  "\x7b\"a//\":[1 ]\x7d".toList

/-- The same text with quotation marks, brackets, commas and marks of comments in comments, and with
    commas behind the elements of the array and of the object. -/
def untidy : List Char :=
  "\x7b\"a//\"/*\"],/**/:[1 ,// /*\x7d,\n],\x7d//]\n".toList

/-- The key of the sample is written as it stands. -/
theorem written_key : Written ['"', 'a', '/', '/', '"'] (.str (some "a//")) := by
  have hslash : StringText ['/', '/'] [.char '/', .char '/'] :=
    .plain (by decide) (by decide) (by decide) (.plain (by decide) (by decide) (by decide) .nil)
  exact .str (.plain (by decide) (by decide) (by decide) hslash)

/-- So is its number. -/
theorem written_one : ∃ value, Written ['1'] (.num value) := by
  have hwhole : WholeText ['1'] :=
    ⟨⟨List.cons_ne_nil _ _, List.forall_mem_singleton.2 rfl⟩, by decide⟩
  exact ⟨_, .num (.unsigned hwhole .absent .absent)⟩

/-- The untidy text is the tidy one with comments and commas put in. -/
theorem loosened_tidy : Loosened false tidy untidy := by
  have hmark : ∀ c token, ([c], token) ∈ fixedTexts →
      ∀ {behind s s'}, Loosened token.endsElement s s' → Loosened behind (c :: s) (c :: s') :=
    fun c token hword _ _ _ hs => .token (.fixed hword) (endsAt_fixed _ hword _) hs
  obtain ⟨value, hone⟩ := written_one
  -- From the end to the beginning.
  have hend : Loosened true [] ("//]\n".toList) := .comment (.line (by decide : '\n' ∉ [']'])) .nil
  have hbrace : Loosened true ['\x7d'] (",\x7d//]\n".toList) :=
    .comma ⟨[], _, _, rfl, nofun, by decide⟩ (hmark '\x7d' .closeBrace (by simp [fixedTexts]) hend)
  have hbracket : Loosened false [']', '\x7d'] ("// /*\x7d,\n],\x7d//]\n".toList) :=
    .comment (.line (by decide : '\n' ∉ [' ', '/', '*', '\x7d', ',']))
      (hmark ']' .closeBracket (by simp [fixedTexts]) hbrace)
  have hitem : Loosened false ['1', ' ', ']', '\x7d'] ("1 ,// /*\x7d,\n],\x7d//]\n".toList) :=
    .token hone (endsNumber_cons (by decide))
      (.blank rfl (.comma ⟨[], _, _, rfl, nofun, by decide⟩ hbracket))
  have hvalue : Loosened true (":[1 ]\x7d".toList) (":[1 ,// /*\x7d,\n],\x7d//]\n".toList) :=
    hmark ':' .colon (by simp [fixedTexts]) (hmark '[' .openBracket (by simp [fixedTexts]) hitem)
  have hcomment : IsComment "/*\"],/**/".toList :=
    .block (by decide : ¬['*', '/'] <:+: ['"', ']', ',', '/', '*'])
  exact hmark '\x7b' .openBrace (by simp [fixedTexts])
    (.token written_key trivial (.comment hcomment hvalue))

/-- Both texts of the sample are read alike. -/
theorem relaxed_loosened_tidy :
    (tree? tidy).isSome = true ∧ (∀ body ∈ literals tidy, KeepsCommas body) ∧
    Loosened false tidy untidy ∧
      tree? (relaxed untidy) = tree? tidy ∧ parse? (relaxed untidy) = parse? tidy := by
  have htree : (tree? tidy).isSome = true := by decide +kernel
  have hkeeps : ∀ body ∈ literals tidy, KeepsCommas body := by
    have hsame : ∀ body ∈ literals tidy, dropTrailingCommas body = body := by decide +kernel
    exact fun body hbody => dropTrailingCommas_eq_self_iff.1 (hsame body hbody)
  obtain ⟨t, ht⟩ := Option.isSome_iff_exists.1 htree
  obtain ⟨hread, hvalue⟩ := relaxed_loosened ht hkeeps loosened_tidy
  exact ⟨htree, hkeeps, loosened_tidy, hread.trans ht.symm, hvalue⟩

end Sample

end BlastRadius.Json
