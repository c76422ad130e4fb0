import BlastRadius.Proofs.Mask
import BlastRadius.Proofs.Reading
import BlastRadius.Statement.Export

namespace BlastRadius

/-!
# Statements are grounded in program text

Statements are read off masked text by patterns that run over any number of blanks, and masking
leaves blanks where a comment or a literal was. All the same, a keyword is always read off program
text, and a quotation mark behind it is always the one that opens a literal.

* `CodeWord`, `ClosedLiteral` — a word of program text, and a literal with its two delimiters.
* `isMark_readByte_iff` — the quotation marks of a masked text are the delimiters of literals.
* `codeWord_of_mask`, `exists_opening_of_mask` — what a piece of masked text was before.
* `closedLiteral_of_literalBody?` — what is read as a body is all that stands between two
  delimiters.
* `LeadsTo` — how the forms of statements lead up to their literal.
* `statements_grounded` — no import and no export is made up.
-/

open Text

namespace Source

/-- A word of program text: all its bytes from the offset on are code. -/
def CodeWord (tagged : List (UInt8 × Region)) (word : String) (offset : Nat) : Prop :=
  (utf8 word.toList).map (·, Region.code) <+: tagged.drop offset

/-- A literal with all that stands between the mark that opens it, at the offset, and the mark that
    closes it. -/
def ClosedLiteral (tagged : List (UInt8 × Region)) (text : List UInt8) (offset : Nat) : Prop :=
  ∃ mark, isMark mark = true ∧
    (mark, Region.opening) :: (text.map (·, Region.body) ++ [(mark, Region.closing)])
      <+: tagged.drop offset

/-! ### Quotation marks of a masked text -/

/-- In program text a quotation mark is a delimiter, and every delimiter is a quotation mark. -/
structure Delimited (x : UInt8 × Region) : Prop where
  code : x.2 = .code → isMark x.1 = false
  delimiter : x.2 = .opening ∨ x.2 = .closing → isMark x.1 = true

/-- Bytes of comments and of literal bodies may be anything. -/
theorem delimited_of_masked {x : UInt8 × Region} (h : x.2 = .comment ∨ x.2 = .body) :
    Delimited x := by
  rcases h with h | h <;> exact ⟨by simp [h], by simp [h]⟩

section
variable {context next : Context} {taken tagged rest : List (UInt8 × Region)}

/-- One step classifies quotation marks as what they are. -/
theorem Step.delimited (h : Step context taken next) (hcontext : context.Proper) :
    ∀ x ∈ taken, Delimited x := by
  cases h with
  | code hmark =>
    rw [List.forall_mem_singleton]
    exact ⟨fun _ => hmark, by simp⟩
  | opening hmark =>
    rw [List.forall_mem_singleton]
    exact ⟨by simp, fun _ => hmark⟩
  | closing =>
    rw [List.forall_mem_singleton]
    exact ⟨by simp, fun _ => hcontext⟩
  | lineEnd | broken =>
    rw [List.forall_mem_singleton]
    exact ⟨fun _ => by decide, by simp⟩
  -- All other steps take comments and bodies.
  | _ =>
    intro x hx
    apply delimited_of_masked
    simp only [List.mem_cons, List.not_mem_nil, or_false] at hx
    grind

/-- So does a whole pass. -/
theorem Pass.delimited (h : Pass context tagged) (hcontext : context.Proper) :
    ∀ x ∈ tagged, Delimited x := by
  induction h with
  | nil => simp
  | step hstep _ ih =>
    intro x hx
    rcases List.mem_append.1 hx with hx | hx
    · exact hstep.delimited hcontext x hx
    · exact ih (hstep.proper hcontext) x hx

end

/-- So does the classification of a text. -/
theorem delimited_classified {bytes : List UInt8} : ∀ x ∈ classified bytes, Delimited x :=
  (pass_classifiedFrom .code bytes).delimited trivial

/-- A byte as it is read. -/
def readByte (x : UInt8 × Region) : UInt8 :=
  maskByte .literals x.1 x.2

/-- A byte that is kept is read as it is. -/
theorem readByte_of_kept {x : UInt8 × Region} (h : MaskMode.literals.keeps x.2 = true) :
    readByte x = x.1 := by
  simp [readByte, maskByte, h]

/-- Any other is read as a line break or a blank. -/
theorem readByte_of_masked {x : UInt8 × Region} (h : x.2 = .comment ∨ x.2 = .body) :
    readByte x = newline ∨ readByte x = space := by
  have hkeeps : MaskMode.literals.keeps x.2 = false := by rcases h with h | h <;> rw [h] <;> rfl
  by_cases hnewline : x.1 = newline <;> simp [readByte, maskByte, hkeeps, hnewline]

/-- The quotation marks of a masked text are the delimiters of literals. -/
theorem isMark_readByte_iff {x : UInt8 × Region} (h : Delimited x) :
    isMark (readByte x) = true ↔ x.2 = .opening ∨ x.2 = .closing := by
  by_cases hmasked : x.2 = .comment ∨ x.2 = .body
  · have hread := readByte_of_masked hmasked
    have hmark : isMark (readByte x) = false := by rcases hread with h | h <;> rw [h] <;> rfl
    rcases hmasked with hregion | hregion <;> simp [hmark, hregion]
  · have hkeeps : MaskMode.literals.keeps x.2 = true := by
      cases hregion : x.2 <;> simp_all [MaskMode.keeps]
    rw [readByte_of_kept hkeeps]
    refine ⟨fun hmark => ?_, h.delimiter⟩
    by_contra hnone
    have hcode : x.2 = .code := by cases hregion : x.2 <;> simp_all
    simp [h.code hcode] at hmark

/-- A byte that masking does not put in, and that delimits no literal. -/
def isPlain (b : UInt8) : Bool :=
  b != space && b != newline && !isMark b

/-- A plain byte of a masked text was program text. -/
theorem eq_code_of_isPlain {x : UInt8 × Region} (h : Delimited x)
    (hplain : isPlain (readByte x) = true) : x = (readByte x, .code) := by
  have hkept : ¬(x.2 = .comment ∨ x.2 = .body) := by
    intro hmasked
    rcases readByte_of_masked hmasked with hread | hread <;> simp [hread, isPlain] at hplain
  have hdelimiter : ¬(x.2 = .opening ∨ x.2 = .closing) := by
    rw [← isMark_readByte_iff h]
    intro hmark
    simp [hmark, isPlain] at hplain
  have hcode : x.2 = .code := by cases hregion : x.2 <;> simp_all
  rw [readByte_of_kept (by rw [hcode]; rfl), ← hcode]

/-- Bytes that are read as plain ones are code. -/
theorem eq_map_code_of_isPlain {row : List (UInt8 × Region)} (h : ∀ x ∈ row, Delimited x)
    (hplain : ∀ b ∈ row.map readByte, isPlain b = true) :
    row = (row.map readByte).map (·, Region.code) := by
  rw [List.map_map]
  refine (List.map_id row).symm.trans (List.map_congr_left fun x hx => ?_)
  exact eq_code_of_isPlain (h x hx) (hplain _ (List.mem_map_of_mem hx))

/-- Behind program text, the first quotation mark of a masked text opens a literal. -/
theorem opening_of_chain {x y : UInt8 × Region} {gap : List (UInt8 × Region)}
    (hchain : (x :: (gap ++ [y])).IsChain Follows) (hdelimited : ∀ z ∈ gap ++ [y], Delimited z)
    (hx : x.2.inLiteral = false) (hgap : ∀ z ∈ gap, isMark (readByte z) = false)
    (hy : isMark (readByte y) = true) : y.2 = .opening := by
  -- Along the gap no literal is open: one that opened would show its mark.
  induction gap generalizing x with
  | nil =>
    have hfollows : Follows x y := by simpa using hchain
    have hdelimiter := (isMark_readByte_iff (hdelimited y (by simp))).1 hy
    rcases hfollows.outside hx with h | h | h
    · simp [h] at hdelimiter
    · simp [h] at hdelimiter
    · exact h
  | cons z gap ih =>
    rw [List.cons_append, List.isChain_cons_cons] at hchain
    have hmark := hgap z List.mem_cons_self
    have hz : z.2.inLiteral = false := by
      rcases hchain.1.outside hx with h | h | h
      · rw [h]; rfl
      · rw [h]; rfl
      · simp [(isMark_readByte_iff (hdelimited z (by simp))).2 (Or.inl h)] at hmark
    exact ih hchain.2 (fun w hw => hdelimited w (List.mem_cons_of_mem _ hw)) hz
      fun w hw => hgap w (List.mem_cons_of_mem _ hw)

/-- The first mark that is read behind code and blanks opens a literal. -/
theorem opening_behind_code {code gap behind : List (UInt8 × Region)} {y : UInt8 × Region}
    (hchain : (code ++ (gap ++ y :: behind)).IsChain Follows)
    (hdelimited : ∀ z ∈ code ++ (gap ++ y :: behind), Delimited z) (hne : code ≠ [])
    (hcode : ∀ x ∈ code, x.2 = .code) (hgap : ∀ z ∈ gap, isMark (readByte z) = false)
    (hy : isMark (readByte y) = true) : y.2 = .opening := by
  obtain ⟨before, x, rfl⟩ : ∃ before x, code = before ++ [x] :=
    ⟨_, _, (List.dropLast_concat_getLast hne).symm⟩
  have hsplit : before ++ [x] ++ (gap ++ y :: behind)
      = before ++ (x :: (gap ++ [y]) ++ behind) := by simp
  rw [hsplit] at hchain hdelimited
  have hx : x.2.inLiteral = false := by
    rw [hcode x (by simp)]
    rfl
  refine opening_of_chain hchain.right_of_append.left_of_append
    (fun z hz => hdelimited z ?_) hx hgap hy
  exact List.mem_append_right _ (List.mem_append_left _ (List.mem_cons_of_mem _ hz))

/-! ### Literals of a text -/

section
variable {context next : Context} {taken tagged rest : List (UInt8 × Region)} {mark : UInt8}

/-- The step that takes an opening mark takes nothing else, and enters a literal. -/
theorem Step.eq_of_opening (h : Step context taken next) (hmem : (mark, .opening) ∈ taken) :
    taken = [(mark, .opening)] ∧ next = .literal mark := by
  cases h <;> simp_all

/-- Behind the mark that opens a literal, the pass is in the literal. -/
theorem Pass.behind_opening (h : Pass context tagged) {before : List (UInt8 × Region)}
    (htagged : tagged = before ++ (mark, .opening) :: rest) : Pass (.literal mark) rest := by
  induction h generalizing before with
  | nil => simp at htagged
  | @step context next taken later hstep hlater ih =>
    rcases List.append_eq_append_iff.1 htagged with ⟨mid, -, hmid⟩ | ⟨mid, htaken, hmid⟩
    · exact ih hmid
    · cases mid with
      | nil =>
        rw [List.nil_append] at hmid
        exact ih (hmid.symm.trans (List.nil_append _).symm)
      | cons z mid =>
        -- The mark is among what the step takes, so it is all that the step takes.
        obtain ⟨rfl, rfl⟩ := List.cons_eq_cons.1 hmid
        have hmem : (mark, Region.opening) ∈ taken := by simp [htaken]
        obtain ⟨hone, rfl⟩ := hstep.eq_of_opening hmem
        have hlength := congrArg List.length (htaken.symm.trans hone)
        simp only [List.length_append, List.length_cons, List.length_nil] at hlength
        obtain rfl : mid = [] := List.length_eq_zero_iff.1 (by omega)
        exact hlater

/-- A byte of the body is counted. -/
theorem bodySize?_body {x : UInt8 × Region} {bytes : List UInt8} {size : Nat}
    (hmark : isMark mark = true) (hbody : x.2 = .body)
    (h : bodySize? mark (readByte x :: bytes) = some size) :
    ∃ n, bodySize? mark bytes = some n ∧ size = n + 1 := by
  have hne : readByte x ≠ mark := by
    rintro rfl
    rcases readByte_of_masked (Or.inr hbody) with h | h <;> rw [h] at hmark <;> cases hmark
  rw [bodySize?, if_neg hne] at h
  split at h
  · cases h
  · obtain ⟨n, hn, rfl⟩ := Option.map_eq_some_iff.1 h
    exact ⟨n, hn, rfl⟩

/-- In a literal, the first mark of its kind in the masked text closes it. -/
theorem Pass.closed {size : Nat} (h : Pass (.literal mark) tagged) (hmark : isMark mark = true)
    (hsize : bodySize? mark (tagged.map readByte) = some size) :
    ∃ text : List UInt8, text.length = size ∧
      text.map (·, Region.body) ++ [(mark, Region.closing)] <+: tagged := by
  generalize hcontext : Context.literal mark = context at h
  induction h generalizing size with
  | nil => simp [bodySize?] at hsize
  | step hstep hrest ih =>
    subst hcontext
    cases hstep with
    -- An escape and what it escapes are read as two blanks, neither of them a mark.
    | escape _ b =>
      obtain ⟨m, hm, rfl⟩ := bodySize?_body hmark rfl hsize
      obtain ⟨n, hn, rfl⟩ := bodySize?_body hmark rfl hm
      obtain ⟨text, rfl, hclosed⟩ := ih hn rfl
      exact ⟨0x5c :: b :: text, rfl,
        (List.prefix_cons_inj _).2 ((List.prefix_cons_inj _).2 hclosed)⟩
    | closing =>
      have hread : readByte (mark, .closing) = mark := readByte_of_kept rfl
      obtain rfl : 0 = size := by simpa [bodySize?, hread] using hsize
      exact ⟨[], rfl, List.prefix_append _ _⟩
    -- A literal that breaks off at the end of its line has no size.
    | broken hline =>
      have hread : readByte (newline, .code) = newline := readByte_of_kept rfl
      have hne : newline ≠ mark := (ne_of_isMark hmark).2.2.symm
      simp [bodySize?, hread, hne, hline] at hsize
    | @body _ b _ =>
      obtain ⟨n, hn, rfl⟩ := bodySize?_body hmark rfl hsize
      obtain ⟨text, rfl, hclosed⟩ := ih hn rfl
      exact ⟨b :: text, rfl, (List.prefix_cons_inj _).2 hclosed⟩

end

/-! ### From masked text back to the text -/

section
variable {s front gap after : List Char} {word : String}

/-- The bytes behind the front are read as the text behind it. -/
theorem map_readByte_drop (h : mask .literals s = front ++ after) :
    ((classified (utf8 s)).drop (byteSize front)).map readByte = utf8 after := by
  have hbytes : (classified (utf8 s)).map readByte = utf8 front ++ utf8 after := by
    rw [← utf8_append, ← h, utf8_mask]
    rfl
  rw [List.map_drop, hbytes, ← length_utf8, List.drop_left]

/-- A plain word of masked text is a word of program text. -/
theorem codeWord_of_mask (h : mask .literals s = front ++ (word.toList ++ after))
    (hplain : ∀ b ∈ utf8 word.toList, isPlain b = true) :
    CodeWord (classified (utf8 s)) word (byteSize front) := by
  have hread := map_readByte_drop h
  rw [utf8_append, List.map_eq_append_iff] at hread
  obtain ⟨row, behind, hdrop, hrow, -⟩ := hread
  have hdelimited : ∀ x ∈ row, Delimited x := by
    intro x hx
    apply delimited_classified x
    apply List.mem_of_mem_drop (i := byteSize front)
    rw [hdrop]
    exact List.mem_append_left _ hx
  have hcode := eq_map_code_of_isPlain hdelimited (hrow ▸ hplain)
  rw [hrow] at hcode
  exact ⟨behind, by rw [hdrop, ← hcode]⟩

/-- No byte of a blank is a quotation mark. -/
theorem not_isMark_of_isBlank {c : Char} (h : isBlank c = true) :
    ∀ b ∈ String.utf8EncodeChar c, isMark b = false := by
  intro b hb
  rw [Bool.eq_false_iff]
  intro hmark
  by_cases hc : c.toNat < 0x80
  · rw [utf8EncodeChar_of_ascii hc, List.mem_singleton] at hb
    have hbyte : b.toNat = c.toNat := by rw [hb, toNat_byte (by omega)]
    have hvalue : b.toNat = 0x22 ∨ b.toNat = 0x27 ∨ b.toNat = 0x60 := by
      unfold isMark at hmark
      simp only [Bool.or_eq_true, beq_iff_eq] at hmark
      rcases hmark with (rfl | rfl) | rfl <;> simp
    simp only [isBlank, Bool.or_eq_true, Bool.and_eq_true, decide_eq_true_eq, beq_iff_eq] at h
    omega
  · exact ascii_of_isMark hmark (le_of_mem_utf8EncodeChar (by omega) hb)

/-- Behind a plain word and blanks, a quotation mark of masked text opens a literal. -/
theorem exists_opening_of_mask {mark : Char}
    (h : mask .literals s = front ++ (word.toList ++ (gap ++ mark :: after)))
    (hword : utf8 word.toList ≠ []) (hplain : ∀ b ∈ utf8 word.toList, isPlain b = true)
    (hgap : ∀ c ∈ gap, isBlank c = true) (hmark : mark ∈ ['"', '\'', '\x60']) :
    ∃ b behind, (classified (utf8 s)).drop (byteSize (front ++ (word.toList ++ gap)))
      = (b, .opening) :: behind := by
  obtain ⟨row, hrow⟩ := codeWord_of_mask h hplain
  generalize hcode : (utf8 word.toList).map (·, Region.code) = codeRow at hrow
  have hcodeRead : codeRow.map readByte = utf8 word.toList := by
    rw [← hcode, List.map_map]
    exact (List.map_congr_left fun b _ => readByte_of_kept (x := (b, .code)) rfl).trans
      (List.map_id _)
  have hread := map_readByte_drop h
  rw [← hrow, List.map_append, hcodeRead, utf8_append, List.append_cancel_left_eq, utf8_append,
    List.map_eq_append_iff] at hread
  -- The row behind the word splits into what is read as the gap and what is read as the mark.
  obtain ⟨gapRow, markRow, rfl, hgapRow, hmarkRow⟩ := hread
  have hascii : mark.toNat < 0x80 ∧ isMark (UInt8.ofNat mark.toNat) = true := by
    simp only [List.mem_cons, List.not_mem_nil, or_false] at hmark
    rcases hmark with rfl | rfl | rfl <;> decide
  rw [utf8_cons, utf8EncodeChar_of_ascii hascii.1, List.singleton_append,
    List.map_eq_cons_iff] at hmarkRow
  obtain ⟨y, behind, rfl, hy, -⟩ := hmarkRow
  -- Since the word is code, only blanks and comments separate it from the mark.
  have hopening : y.2 = .opening := by
    refine opening_behind_code (hrow ▸ (chain_classified _).drop _) (fun z hz => ?_)
      ?_ ?_ (fun z hz => ?_) ?_
    · rw [hrow] at hz
      exact delimited_classified z (List.mem_of_mem_drop hz)
    · rw [← hcode]
      simpa using hword
    · intro x hx
      rw [← hcode] at hx
      obtain ⟨b, -, rfl⟩ := List.mem_map.1 hx
      rfl
    · have hbyte : readByte z ∈ utf8 gap := hgapRow ▸ List.mem_map_of_mem hz
      obtain ⟨c, hc, hb⟩ := List.mem_flatMap.1 hbyte
      exact not_isMark_of_isBlank (hgap c hc) _ hb
    · rw [hy]
      exact hascii.2
  refine ⟨y.1, behind, ?_⟩
  have hlength : byteSize (word.toList ++ gap) = (codeRow ++ gapRow).length := by
    rw [← length_utf8, utf8_append, ← hcodeRead, ← hgapRow, ← List.map_append, List.length_map]
  rw [byteSize_append, ← List.drop_drop, ← hrow, hlength, ← List.append_assoc, List.drop_left,
    ← hopening]

end

section
variable {s body : List Char} {offset : Nat} {mark : UInt8} {behind : List (UInt8 × Region)}

/-- What opens a literal is a mark. -/
theorem isMark_of_opening (h : (classified (utf8 s)).drop offset = (mark, .opening) :: behind) :
    isMark mark = true := by
  have hmem : (mark, Region.opening) ∈ (classified (utf8 s)).drop offset := h ▸ List.mem_cons_self
  exact (delimited_classified _ (List.mem_of_mem_drop hmem)).delimiter (Or.inl rfl)

/-- The end of a literal is looked for in what is read behind its opening mark. -/
theorem literalBody?_eq_bind (h : (classified (utf8 s)).drop offset = (mark, .opening) :: behind) :
    literalBody? (mask .literals s) s offset
      = (bodySize? mark (behind.map readByte)).bind fun size =>
        slice? s (offset + 1) (offset + 1 + size) := by
  have hread : (utf8 (mask .literals s)).drop offset = mark :: behind.map readByte := by
    have hbytes : utf8 (mask .literals s) = (classified (utf8 s)).map readByte :=
      utf8_mask .literals s
    rw [hbytes, ← List.map_drop, h, List.map_cons, readByte_of_kept rfl]
  unfold literalBody?
  rw [hread]
  rfl

/-- What is read as the body of a literal is all that stands between its two delimiters. -/
theorem closedLiteral_of_literalBody?
    (hopening : (classified (utf8 s)).drop offset = (mark, .opening) :: behind)
    (hbody : literalBody? (mask .literals s) s offset = some body) :
    ClosedLiteral (classified (utf8 s)) (utf8 body) offset := by
  have hmark := isMark_of_opening hopening
  -- The literal that opens here is passed from its opening mark on.
  have hpass : Pass (.literal mark) behind := by
    have hsplit : classified (utf8 s)
        = (classified (utf8 s)).take offset ++ (mark, .opening) :: behind := by
      rw [← hopening, List.take_append_drop]
    exact (pass_classifiedFrom .code (utf8 s)).behind_opening hsplit
  rw [literalBody?_eq_bind hopening] at hbody
  obtain ⟨size, hsize, hslice⟩ := Option.bind_eq_some_iff.1 hbody
  obtain ⟨text, rfl, later, rfl⟩ := hpass.closed hmark hsize
  have hbehind : (classified (utf8 s)).drop (offset + 1)
      = text.map (·, .body) ++ [(mark, .closing)] ++ later := by
    rw [← List.drop_drop, hopening]
    rfl
  have htext : utf8 body = text := by
    rw [utf8_slice? hslice, ← map_fst_classified (utf8 s), ← List.map_drop, hbehind]
    simp [Function.comp_def]
  refine ⟨mark, hmark, later, ?_⟩
  rw [hopening, htext]
  rfl

end

end Source

namespace Statement

open Text.Reading Source

/-! ### How the forms lead up to their literal -/

/-- A statement starts with a word and goes on to a quotation mark. In front of the mark stands one
    of three words, with nothing but blanks between the two. -/
def LeadsTo (word : String) (here opening : List Char) : Prop :=
  ∃ front gap after, ∃ lead ∈ ["import", "(", "from"], ∃ mark ∈ ['"', '\'', '\x60'],
    here = front ++ (lead.toList ++ (gap ++ opening)) ∧ opening = mark :: after ∧
      (∀ c ∈ gap, isBlank c = true) ∧ word.toList <+: front ++ lead.toList

/-- A mark behind a lead word and blanks is led to. -/
theorem leadsTo_of_quote {word lead : String} {here marks s₀ s₁ s₂ opening rest : List Char}
    {u v : Unit} (front : List Char) (hhere : here = front ++ s₀) (htext : (u, s₁) ∈ text lead s₀)
    (hblanks : (v, s₂) ∈ blanks s₁) (hquote : (opening, rest) ∈ quote marks s₂)
    (hlead : lead ∈ ["import", "(", "from"]) (hmarks : marks ⊆ ['"', '\'', '\x60'])
    (hword : word.toList <+: front ++ lead.toList) : LeadsTo word here opening := by
  obtain ⟨gap, hgap, hblank⟩ := mem_blanks hblanks
  obtain ⟨rfl, mark, hmark, hmarked⟩ := mem_quote hquote
  refine ⟨front, gap, rest, lead, hlead, mark, hmarks hmark, ?_, hmarked, hblank, hword⟩
  rw [hhere, mem_text.1 htext, hgap]

/-- A form that goes on for a while behind its word. -/
theorem leadsTo_of_suffix {word lead : String} {here marks s s₀ s₁ s₂ opening rest : List Char}
    {u v w : Unit} (hword : (w, s) ∈ text word here) (hlater : s₀ <:+ s)
    (htext : (u, s₁) ∈ text lead s₀) (hblanks : (v, s₂) ∈ blanks s₁)
    (hquote : (opening, rest) ∈ quote marks s₂) (hlead : lead ∈ ["import", "(", "from"])
    (hmarks : marks ⊆ ['"', '\'', '\x60']) : LeadsTo word here opening := by
  obtain ⟨between, rfl⟩ := hlater
  refine leadsTo_of_quote (word.toList ++ between) ?_ htext hblanks hquote hlead hmarks ?_
  · rw [mem_text.1 hword, List.append_assoc]
  · rw [List.append_assoc]
    exact List.prefix_append _ _

section
variable {here rest opening : List Char} {head : ImportHead}

/-- A bare import leads from its word to the mark of its specifier. -/
theorem leadsTo_bareImport (h : (head, rest) ∈ bareImport here) :
    LeadsTo "import" here head.opening := by
  obtain ⟨_, s₁, htext, h₁⟩ := mem_bind.1 h
  obtain ⟨_, s₂, hblanks, h₂⟩ := mem_bind.1 h₁
  obtain ⟨_, s₃, hquote, h₃⟩ := mem_bind.1 h₂
  obtain ⟨rfl, -⟩ := mem_pure.1 h₃
  exact leadsTo_of_quote [] rfl htext hblanks hquote (by decide) (by decide) List.prefix_rfl

/-- So does a dynamic import. -/
theorem leadsTo_dynamicImport (h : (head, rest) ∈ dynamicImport here) :
    LeadsTo "import" here head.opening := by
  obtain ⟨_, s₁, hword, h₁⟩ := mem_bind.1 h
  obtain ⟨_, s₂, hgap, h₂⟩ := mem_bind.1 h₁
  obtain ⟨_, s₃, htext, h₃⟩ := mem_bind.1 h₂
  obtain ⟨_, s₄, hblanks, h₄⟩ := mem_bind.1 h₃
  obtain ⟨_, s₅, hquote, h₅⟩ := mem_bind.1 h₄
  obtain ⟨rfl, -⟩ := mem_pure.1 h₅
  exact leadsTo_of_suffix hword (consumes_blanks hgap) htext hblanks hquote (by decide) (by decide)

/-- A default binding leaves what stands behind it. -/
theorem consumes_defaultBinding : Consumes defaultBinding :=
  consumes_name.bind fun _ => consumes_blanks.bind fun _ => (consumes_text _).optional.bind fun _ =>
    consumes_blanks.bind fun _ => consumes_pure _

/-- So does the binding of a whole module. -/
theorem consumes_moduleBinding : Consumes moduleBinding :=
  (consumes_text _).bind fun _ => consumes_blanks.bind fun _ => (consumes_text _).bind fun _ =>
    consumes_blanks1.bind fun _ => consumes_name.bind fun _ =>
      consumes_blanks.bind fun _ => consumes_pure _

/-- So do named bindings. -/
theorem consumes_namedBindings : Consumes namedBindings :=
  consumes_braced.bind fun _ => consumes_blanks.bind fun _ => consumes_pure _

/-- An import with bindings leads from its word to the mark of its specifier. -/
theorem leadsTo_bindingImport (h : (head, rest) ∈ bindingImport here) :
    LeadsTo "import" here head.opening := by
  obtain ⟨_, s₁, hword, h₁⟩ := mem_bind.1 h
  obtain ⟨_, s₂, hgap, h₂⟩ := mem_bind.1 h₁
  obtain ⟨_, s₃, hmarker, h₃⟩ := mem_bind.1 h₂
  obtain ⟨_, s₄, hmain, h₄⟩ := mem_bind.1 h₃
  obtain ⟨_, s₅, hwhole, h₅⟩ := mem_bind.1 h₄
  obtain ⟨_, s₆, hnamed, h₆⟩ := mem_bind.1 h₅
  obtain ⟨_, s₇, htext, h₇⟩ := mem_bind.1 h₆
  obtain ⟨_, s₈, hblanks, h₈⟩ := mem_bind.1 h₇
  obtain ⟨_, s₉, hquote, h₉⟩ := mem_bind.1 h₈
  obtain ⟨rfl, -⟩ := mem_pure.1 h₉
  -- Everything between the two words is read further and further into the text.
  have hlater : s₆ <:+ s₁ := calc
    s₆ <:+ s₅ := consumes_namedBindings.optional hnamed
    _ <:+ s₄ := consumes_moduleBinding.optional hwhole
    _ <:+ s₃ := consumes_defaultBinding.optional hmain
    _ <:+ s₂ := ((consumes_text _).bind fun _ => consumes_blanks1).optional hmarker
    _ <:+ s₁ := consumes_blanks1 hgap
  exact leadsTo_of_suffix hword hlater htext hblanks hquote (by decide) (by decide)

/-- A type marker leaves what stands behind it. -/
theorem consumes_typeMarker : Consumes typeMarker :=
  ((consumes_text _).bind fun _ => consumes_blanks1).optional.bind fun _ => consumes_pure _

/-- What passes on a file leads from its word to the mark of the origin. -/
theorem leadsTo_exportAll (h : (opening, rest) ∈ exportAll here) :
    LeadsTo "export" here opening := by
  obtain ⟨_, s₁, hword, h₁⟩ := mem_bind.1 h
  obtain ⟨_, s₂, hgap, h₂⟩ := mem_bind.1 h₁
  obtain ⟨_, s₃, hmarker, h₃⟩ := mem_bind.1 h₂
  obtain ⟨_, s₄, hstar, h₄⟩ := mem_bind.1 h₃
  obtain ⟨_, s₅, hbehind, h₅⟩ := mem_bind.1 h₄
  obtain ⟨_, s₆, hname, h₆⟩ := mem_bind.1 h₅
  obtain ⟨_, s₇, htext, h₇⟩ := mem_bind.1 h₆
  obtain ⟨_, s₈, hblanks, hquote⟩ := mem_bind.1 h₇
  have hlater : s₆ <:+ s₁ := calc
    s₆ <:+ s₅ := ((consumes_text _).bind fun _ => consumes_blanks1.bind fun _ =>
      consumes_name.bind fun _ =>
      consumes_blanks).optional hname
    _ <:+ s₄ := consumes_blanks hbehind
    _ <:+ s₃ := consumes_text _ hstar
    _ <:+ s₂ := consumes_typeMarker hmarker
    _ <:+ s₁ := consumes_blanks1 hgap
  exact leadsTo_of_suffix hword hlater htext hblanks hquote (by decide) (by decide)

/-- So does a list with an origin. -/
theorem leadsTo_exportList {body : List Char} (h : ((body, some opening), rest) ∈ exportList here) :
    LeadsTo "export" here opening := by
  obtain ⟨_, s₁, hword, h₁⟩ := mem_bind.1 h
  obtain ⟨_, s₂, hgap, h₂⟩ := mem_bind.1 h₁
  obtain ⟨_, s₃, hmarker, h₃⟩ := mem_bind.1 h₂
  obtain ⟨_, s₄, hbraced, h₄⟩ := mem_bind.1 h₃
  obtain ⟨_, s₅, hoptional, h₅⟩ := mem_bind.1 h₄
  obtain ⟨hpair, rfl⟩ := mem_pure.1 h₅
  obtain ⟨rfl, rfl⟩ := Prod.mk.inj hpair
  obtain ⟨_, s₆, hbehind, h₆⟩ := mem_bind.1 (mem_of_some_mem_optional hoptional)
  obtain ⟨_, s₇, htext, h₇⟩ := mem_bind.1 h₆
  obtain ⟨_, s₈, hblanks, hquote⟩ := mem_bind.1 h₇
  have hlater : s₆ <:+ s₁ := calc
    s₆ <:+ s₄ := consumes_blanks hbehind
    _ <:+ s₃ := consumes_braced hbraced
    _ <:+ s₂ := consumes_typeMarker hmarker
    _ <:+ s₁ := consumes_blanks1 hgap
  exact leadsTo_of_suffix hword hlater htext hblanks hquote (by decide) (by decide)

end

/-! ### Statements of a text -/

section
variable {s here opening body : List Char} {word : String}

/-- The bytes of the words that the forms look for are plain. -/
theorem plain_word : ∀ word ∈ ["import", "export", "(", "from"],
    utf8 word.toList ≠ [] ∧ ∀ b ∈ utf8 word.toList, isPlain b = true := by
  decide +kernel

/-- A plain word that is read in the masked text is code in the text. -/
theorem codeWord_of_suffix (hhere : here <:+ mask .literals s) (hword : word.toList <+: here)
    (hplain : ∀ b ∈ utf8 word.toList, isPlain b = true) :
    CodeWord (classified (utf8 s)) word (offsetOf (mask .literals s) here) := by
  obtain ⟨before, hbefore⟩ := hhere
  obtain ⟨after, rfl⟩ := hword
  rw [← hbefore, offsetOf_append]
  exact codeWord_of_mask hbefore.symm hplain

/-- What leads to a mark begins with its word. -/
theorem LeadsTo.isPrefix (h : LeadsTo word here opening) : word.toList <+: here := by
  obtain ⟨front, gap, after, lead, -, mark, -, rfl, -, -, hword⟩ := h
  rw [← List.append_assoc]
  exact hword.trans (List.prefix_append _ _)

/-- The quotation mark that a form leads up to opens a literal, behind the word that the form starts
    with. -/
theorem LeadsTo.exists_opening (h : LeadsTo word here opening) (hhere : here <:+ mask .literals s) :
    (∃ b behind,
      (classified (utf8 s)).drop (offsetOf (mask .literals s) opening) = (b, .opening) :: behind) ∧
        offsetOf (mask .literals s) here + byteSize word.toList
          ≤ offsetOf (mask .literals s) opening := by
  obtain ⟨before, hbefore⟩ := hhere
  obtain ⟨front, gap, after, lead, hlead, mark, hmark, rfl, rfl, hgap, hword⟩ := h
  have hplain := plain_word lead (by simp at hlead; grind)
  -- The front of the statement is counted to the text in front of its last lead word.
  have hmask : mask .literals s = (before ++ front) ++ (lead.toList ++ (gap ++ mark :: after)) := by
    rw [← hbefore, List.append_assoc]
  have hoffset : offsetOf (mask .literals s) (mark :: after)
      = byteSize (before ++ front ++ (lead.toList ++ gap)) := by
    have hsplit : mask .literals s
        = (before ++ front ++ (lead.toList ++ gap)) ++ mark :: after := by
      rw [hmask]
      simp only [List.append_assoc]
    rw [hsplit, offsetOf_append]
  refine ⟨?_, ?_⟩
  · rw [hoffset]
    exact exists_opening_of_mask hmask hplain.1 hplain.2 hgap hmark
  · obtain ⟨more, hmore⟩ := hword
    have hsize := congrArg byteSize hmore
    rw [hoffset, ← hbefore, offsetOf_append]
    simp only [byteSize_append] at hsize ⊢
    omega

/-- The literal that a form leads up to opens in program text, behind the word that the form starts
    with. -/
theorem LeadsTo.closedLiteral (h : LeadsTo word here opening) (hhere : here <:+ mask .literals s)
    (hbody : literalBody? (mask .literals s) s (offsetOf (mask .literals s) opening) = some body) :
    ∃ offset, offsetOf (mask .literals s) here + byteSize word.toList ≤ offset ∧
      ClosedLiteral (classified (utf8 s)) (utf8 body) offset := by
  obtain ⟨⟨b, behind, hopening⟩, hbehind⟩ := h.exists_opening hhere
  exact ⟨_, hbehind, closedLiteral_of_literalBody? hopening hbody⟩

/-- An import comes from a place that its form is read at, and a literal. -/
theorem mem_importsOf {form : Reading ImportHead} {isDynamic : Bool} {masked source : List Char}
    {i : Import} (h : i ∈ importsOf form isDynamic masked source) :
    ∃ here head body, (here, head) ∈ form.atWordStarts masked ∧
      literalBody? masked source (offsetOf masked head.opening) = some body ∧
      i.offset = offsetOf masked here ∧ i.specifier = String.ofList body := by
  obtain ⟨⟨here, head⟩, hfound, hmade⟩ := List.mem_filterMap.1 h
  obtain ⟨body, hbody, hi⟩ := Option.bind_eq_some_iff.1 hmade
  split at hi
  · cases hi
  · obtain rfl := Option.some.inj hi
    exact ⟨here, head, body, hfound, hbody, rfl, rfl⟩

/-- Keeping the first of each name adds nothing. -/
theorem mem_of_mem_firstOfEachName {seen : List String} {es : List Export} {e : Export}
    (h : e ∈ firstOfEachName seen es) : e ∈ es := by
  induction es generalizing seen with
  | nil => cases h
  | cons a es ih =>
    rw [firstOfEachName] at h
    split at h
    · exact List.mem_cons_of_mem a (ih h)
    · rcases List.mem_cons.1 h with rfl | h
      · exact List.mem_cons_self
      · exact List.mem_cons_of_mem a (ih h)

/-- Every export is one that was found. -/
theorem exists_mem_foundExports {masked source : List Char} {e : Export}
    (h : e ∈ exports masked source) : ∃ f ∈ foundExports masked source, f.item = e := by
  obtain ⟨f, hf, hitem⟩ := List.mem_map.1 (mem_of_mem_firstOfEachName h)
  exact ⟨f, List.mem_mergeSort.1 hf, hitem⟩

/-- What is found as an export stands at the word `export` of the program text, and what it passes
    on is named by a literal behind that word. -/
structure Found.Grounded (s : List Char) (f : Found) : Prop where
  word : CodeWord (classified (utf8 s)) "export" f.offset
  line : f.item.line = lineOf s f.offset
  source : ∀ source ∈ f.item.source, ∃ offset, f.offset + 6 ≤ offset ∧
    ClosedLiteral (classified (utf8 s)) (utf8 source.toList) offset

/-- An export is grounded in its word and the literal that it leads to. -/
theorem Found.grounded_of_word {f : Found} (hhere : here <:+ mask .literals s)
    (hword : "export".toList <+: here) (hoffset : f.offset = offsetOf (mask .literals s) here)
    (hline : f.item.line = lineOf s f.offset)
    (hsource : ∀ source ∈ f.item.source, ∃ opening, LeadsTo "export" here opening ∧
      literalBody? (mask .literals s) s (offsetOf (mask .literals s) opening)
        = some source.toList) :
    f.Grounded s := by
  refine ⟨?_, hline, fun source hmem => ?_⟩
  · rw [hoffset]
    exact codeWord_of_suffix hhere hword (plain_word _ (by simp)).2
  · obtain ⟨opening, hleads, hbody⟩ := hsource source hmem
    rw [hoffset]
    exact hleads.closedLiteral hhere hbody

/-- What is read behind a word begins with that word. -/
theorem prefix_of_mem_text_bind {α : Type} {f : Unit → Reading α} {a : α} {rest : List Char}
    (h : (a, rest) ∈ (text word >>= f) here) : word.toList <+: here := by
  obtain ⟨_, mid, htext, -⟩ := mem_bind.1 h
  exact ⟨mid, (mem_text.1 htext).symm⟩

/-- Listed exports are grounded. -/
theorem grounded_of_mem_listed {f : Found} (h : f ∈ listed (mask .literals s) s) :
    f.Grounded s := by
  obtain ⟨⟨here, body, opening?⟩, hfound, hf⟩ := List.mem_flatMap.1 h
  obtain ⟨name, -, rfl⟩ := List.mem_map.1 hf
  obtain ⟨hhere, rest, hread⟩ := mem_atWordStarts hfound
  refine Found.grounded_of_word hhere (prefix_of_mem_text_bind hread) rfl rfl
    fun source hsource => ?_
  obtain ⟨origin, horigin, rfl⟩ := Option.map_eq_some_iff.1 hsource
  obtain ⟨opening, rfl, hbody⟩ := Option.bind_eq_some_iff.1 horigin
  exact ⟨opening, leadsTo_exportList hread, by rw [hbody, String.toList_ofList]⟩

/-- What is passed on is grounded. -/
theorem grounded_of_mem_passedOn {f : Found} (h : f ∈ passedOn (mask .literals s) s) :
    f.Grounded s := by
  obtain ⟨⟨here, opening⟩, hfound, hf⟩ := List.mem_filterMap.1 h
  obtain ⟨origin, hbody, hf⟩ := Option.bind_eq_some_iff.1 hf
  obtain rfl := Option.some.inj hf
  obtain ⟨hhere, rest, hread⟩ := mem_atWordStarts hfound
  refine Found.grounded_of_word hhere (prefix_of_mem_text_bind hread) rfl rfl
    fun source hsource => ?_
  obtain rfl := Option.some.inj hsource
  exact ⟨opening, leadsTo_exportAll hread, by rw [hbody, String.toList_ofList]⟩

/-- Declared exports are grounded. -/
theorem grounded_of_mem_declared {f : Found} (h : f ∈ declared (mask .literals s) s) :
    f.Grounded s := by
  obtain ⟨⟨here, d⟩, hfound, hf⟩ := List.mem_filterMap.1 h
  obtain ⟨name, -, hf⟩ := Option.bind_eq_some_iff.1 hf
  obtain rfl := Option.some.inj hf
  obtain ⟨hhere, rest, hread⟩ := mem_atWordStarts hfound
  exact Found.grounded_of_word hhere (prefix_of_mem_text_bind hread) rfl rfl nofun

/-- Default exports are grounded. -/
theorem grounded_of_mem_defaulted {f : Found} (h : f ∈ defaulted (mask .literals s) s) :
    f.Grounded s := by
  obtain ⟨⟨here, _⟩, hfound, hf⟩ := List.mem_filterMap.1 h
  obtain ⟨hhere, rest, hread⟩ := mem_atWordStarts hfound
  dsimp only at hf
  split at hf
  · cases hf
  · obtain rfl := Option.some.inj hf
    exact Found.grounded_of_word hhere (prefix_of_mem_text_bind hread) rfl rfl nofun

/-- Every export that is found is grounded. -/
theorem grounded_of_mem_foundExports {f : Found} (h : f ∈ foundExports (mask .literals s) s) :
    f.Grounded s := by
  simp only [foundExports, List.mem_append] at h
  rcases h with ((h | h) | h) | h
  · exact grounded_of_mem_listed h
  · exact grounded_of_mem_passedOn h
  · exact grounded_of_mem_declared h
  · exact grounded_of_mem_defaulted h

/-- An import stands at the word `import` of the program text, and its specifier is a literal behind
    that word. -/
structure Import.Grounded (s : List Char) (i : Import) : Prop where
  word : CodeWord (classified (utf8 s)) "import" i.offset
  specifier : ∃ offset, i.offset + 6 ≤ offset ∧
    ClosedLiteral (classified (utf8 s)) (utf8 i.specifier.toList) offset

/-- The imports of a form are grounded where the form leads to a mark. -/
theorem grounded_of_mem_importsOf {form : Reading ImportHead} {isDynamic : Bool} {i : Import}
    (hform : ∀ {here rest head}, (head, rest) ∈ form here → LeadsTo "import" here head.opening)
    (h : i ∈ importsOf form isDynamic (mask .literals s) s) : i.Grounded s := by
  obtain ⟨here, head, body, hfound, hbody, hoffset, hspecifier⟩ := mem_importsOf h
  obtain ⟨hhere, rest, hread⟩ := mem_atWordStarts hfound
  have hleads := hform hread
  refine ⟨?_, ?_⟩
  · rw [hoffset]
    exact codeWord_of_suffix hhere hleads.isPrefix (plain_word _ (by simp)).2
  · rw [hoffset, hspecifier, String.toList_ofList]
    exact hleads.closedLiteral hhere hbody

/-- Every import is grounded. -/
theorem grounded_of_mem_imports {i : Import} (h : i ∈ imports (mask .literals s) s) :
    i.Grounded s := by
  rw [imports, List.mem_mergeSort, List.mem_append, List.mem_append] at h
  rcases h with (h | h) | h
  · exact grounded_of_mem_importsOf leadsTo_bindingImport h
  · exact grounded_of_mem_importsOf leadsTo_bareImport h
  · exact grounded_of_mem_importsOf leadsTo_dynamicImport h

end

/-- **Statements are grounded.** The bytes of a text are classified as its lexemes say. Every import
    that is read off the masked text stands at an `import` of the program text, all six bytes of it
    code, and its specifier is exactly what stands between the delimiters of a closed literal behind
    it. Every export is one that was found at an `export` of the program text, on the line of that,
    and its source, if it has one, is such a literal too. -/
theorem statements_grounded (s : List Char) :
    (∃ lexemes, Lexed (utf8 s) lexemes ∧ classified (utf8 s) = lexemes.flatMap Lexeme.classified) ∧
    (classified (utf8 s)).map Prod.fst = utf8 s ∧
    (∀ i ∈ imports (mask .literals s) s, i.Grounded s) ∧
    ∀ e ∈ exports (mask .literals s) s, ∃ f ∈ foundExports (mask .literals s) s, f.item = e ∧
      f.Grounded s := by
  obtain ⟨lexemes, hlexed⟩ := exists_lexed (utf8 s)
  refine ⟨⟨lexemes, hlexed, classified_of_lexed hlexed⟩, map_fst_classified _,
    fun i hi => ?_, fun e he => ?_⟩
  · exact grounded_of_mem_imports hi
  · obtain ⟨f, hf, hitem⟩ := exists_mem_foundExports he
    exact ⟨f, hf, hitem, grounded_of_mem_foundExports hf⟩

namespace Sample

/-- A comment with a quotation mark in it between `import` and the names. -/
def commented : List Char :=
  "import/*'*/\x7ba\x7d from 'b'\nexport * from \"export \\\"c\"".toList

/-- The mark in the comment opens nothing, so the import of the sample is found. -/
theorem importsOf_commented :
    importsOf bindingImport false (mask .literals commented) commented
      = [⟨0, "b", ["a"], false, false⟩] := by
  decide +kernel

/-- The word in the literal is no export of its own. -/
theorem foundExports_commented :
    foundExports (mask .literals commented) commented
      = [⟨24, 0, ⟨"*", .unknown, 2, true, some "export \\\"c"⟩⟩] := by
  decide +kernel

/-- The import is read over the comment, and the export that stands in a literal is not read. -/
theorem statements_grounded_commented :
    Import.Grounded commented ⟨0, "b", ["a"], false, false⟩ ∧
    ∃ f ∈ foundExports (mask .literals commented) commented,
      f.item = ⟨"*", .unknown, 2, true, some "export \\\"c"⟩ ∧ f.Grounded commented := by
  obtain ⟨-, -, himports, hexports⟩ := statements_grounded commented
  refine ⟨himports _ ?_, hexports _ ?_⟩
  · rw [imports, List.mem_mergeSort, importsOf_commented]
    simp
  · rw [exports, foundExports_commented]
    simp [firstOfEachName]

end Sample

end Statement

end BlastRadius
