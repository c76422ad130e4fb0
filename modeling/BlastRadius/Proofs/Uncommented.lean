import BlastRadius.Proofs.Lines
import BlastRadius.Proofs.LiteralBody

namespace BlastRadius

/-!
# Comments say nothing

A text whose comments are blank is passed over a second time. No slash, mark or backslash that is
left comes to stand next to another one, so the pass meets the same literals, and what was a comment
is program text that says nothing.

* `Source.Region.blanked`, `Source.Context.blanked` — regions and contexts when comments are blank.
* `Source.regionsFrom_blanked` — the second pass, step by step along the first one.
* `Source.mask_mask_comments` — masking comments beforehand changes nothing.
* `Source.literalBody?_mask_comments`, `Source.lineOf_mask` — bodies and lines can be read off
  either text.
* `Statement.comments_invisible` — the theorem.
-/

open Text

namespace Source

/-! ### Regions when comments are blank -/

/-- The region of a byte when comments are blank: what was a comment is code. -/
def Region.blanked : Region → Region
  | .comment => .code
  | region => region

/-- The context that a byte is read in when comments are blank. -/
def Context.blanked : Context → Context
  | .lineComment => .code
  | .blockComment => .code
  | context => context

/-- A byte when comments are blank. -/
def blankByte (x : UInt8 × Region) : UInt8 :=
  maskByte .comments x.1 x.2

/-- Bytes outside of comments stay. -/
theorem blankByte_of_ne {region : Region} (h : region ≠ .comment) (b : UInt8) :
    blankByte (b, region) = b := by
  have hkeeps : MaskMode.comments.keeps region = true := by
    cases region <;> simp_all [MaskMode.keeps]
  simp [blankByte, maskByte, hkeeps]

/-- Bytes of comments become line breaks or blanks. -/
theorem blankByte_comment (b : UInt8) :
    blankByte (b, .comment) = newline ∨ blankByte (b, .comment) = space := by
  by_cases hb : b = newline <;> simp [blankByte, maskByte, MaskMode.keeps, hb]

/-- A byte stays, or becomes a blank. -/
theorem blankByte_eq_or (x : UInt8 × Region) : blankByte x = x.1 ∨ blankByte x = space := by
  unfold blankByte maskByte
  split <;> simp

/-! ### The second pass -/

section
variable {b c : UInt8} {bytes rest : List UInt8} {regions : List Region}

/-- A byte that opens nothing is code. -/
theorem regionsFrom_code (hmark : isMark b = false)
    (hslash : b = 0x2f → rest.head? ≠ some 0x2f ∧ rest.head? ≠ some 0x2a) :
    regionsFrom .code (b :: rest) = .code :: regionsFrom .code rest := by
  have hstep := congrArg (List.map Prod.snd) (classifiedFrom_code hmark hslash)
  simpa [classifiedFrom, List.map_snd_zip, length_regionsFrom] using hstep

/-- What is left of a comment is read as program text. -/
theorem regionsFrom_blankByte_comment (b : UInt8) (rest : List UInt8) :
    regionsFrom .code (blankByte (b, .comment) :: rest) = .code :: regionsFrom .code rest := by
  apply regionsFrom_code
  · rcases blankByte_comment b with h | h <;> rw [h] <;> decide
  · intro hslash
    rcases blankByte_comment b with h | h <;> simp [hslash, newline, space] at h

/-- A byte outside of comments stays in front. -/
theorem map_blankByte_zip_cons {region : Region} (h : region ≠ .comment) :
    ((b :: bytes).zip (region :: regions)).map blankByte
      = b :: (bytes.zip regions).map blankByte := by
  simp [blankByte_of_ne h]

/-- What stands behind a byte, and is no space, stood there. -/
theorem head?_map_blankByte (hc : c ≠ space)
    (h : ((bytes.zip regions).map blankByte).head? = some c) : bytes.head? = some c := by
  cases bytes with
  | nil => simp at h
  | cons b bytes =>
    cases regions with
    | nil => simp at h
    | cons region regions =>
      have hblank : blankByte (b, region) = c := by simpa using h
      rcases blankByte_eq_or (b, region) with heq | heq
      · simp [← hblank, heq]
      · exact absurd (hblank.symm.trans heq) hc

/-- Where no byte stood behind a backslash, none does. -/
theorem not_escape (h : ∀ next later, b = 0x5c → bytes = next :: later → False) :
    ∀ next later, b = 0x5c → (bytes.zip regions).map blankByte = next :: later → False := by
  intro next later hb hbytes
  cases bytes with
  | nil => simp at hbytes
  | cons c bytes => exact h c bytes hb rfl

end

/-- **The second pass.** It goes along the first one, through the same literals, and stays in
    program text where the first one was in a comment. -/
theorem regionsFrom_blanked (context : Context) (bytes : List UInt8) :
    regionsFrom context.blanked ((classifiedFrom context bytes).map blankByte)
      = (regionsFrom context bytes).map Region.blanked := by
  unfold classifiedFrom
  fun_induction regionsFrom context bytes with
  | case1 context => simp [regionsFrom]
  | case2 bytes ih | case3 bytes ih | case8 bytes ih =>
    simp only [List.zip_cons_cons, List.map_cons, Context.blanked, regionsFrom_blankByte_comment]
    exact congrArg (Region.code :: Region.code :: ·) ih
  | case4 b bytes _ _ hmark ih =>
    have hslash := (ne_of_isMark hmark).1
    simp (disch := decide) only [map_blankByte_zip_cons, List.map_cons, Context.blanked]
    rw [regionsFrom.eq_4, if_pos hmark]
    · exact congrArg (Region.opening :: ·) ih
    · exact fun _ h _ => hslash h
    · exact fun _ h _ => hslash h
  | case5 b bytes hline hblock hmark ih =>
    simp (disch := decide) only [map_blankByte_zip_cons, List.map_cons, Context.blanked]
    rw [regionsFrom_code (Bool.eq_false_iff.2 hmark)]
    · exact congrArg (Region.code :: ·) ih
    · -- A slash that opened no comment does not open one now: behind it there is no other
      -- byte but a space.
      intro hb
      refine ⟨fun hnext => ?_, fun hnext => ?_⟩
      · obtain ⟨later, rfl⟩ := List.head?_eq_some_iff.1 (head?_map_blankByte (by decide) hnext)
        exact hline later hb rfl
      · obtain ⟨later, rfl⟩ := List.head?_eq_some_iff.1 (head?_map_blankByte (by decide) hnext)
        exact hblock later hb rfl
  | case6 bytes ih =>
    simp (disch := decide) only [map_blankByte_zip_cons, List.map_cons, Context.blanked]
    rw [regionsFrom_code (by decide) fun h => absurd h (by decide)]
    exact congrArg (Region.code :: ·) ih
  | case7 b bytes _ ih | case9 b bytes _ ih =>
    simp only [List.zip_cons_cons, List.map_cons, Context.blanked, regionsFrom_blankByte_comment]
    exact congrArg (Region.code :: ·) ih
  | case10 mark b bytes ih =>
    simp (disch := decide) only [map_blankByte_zip_cons, List.map_cons, Context.blanked]
    rw [regionsFrom]
    exact congrArg (Region.body :: Region.body :: ·) ih
  | case11 mark bytes hescape ih =>
    simp (disch := decide) only [map_blankByte_zip_cons, List.map_cons, Context.blanked]
    rw [regionsFrom.eq_9 _ _ _ (not_escape hescape), if_pos rfl]
    exact congrArg (Region.closing :: ·) ih
  | case12 mark b bytes hescape hmark hline ih =>
    simp (disch := decide) only [map_blankByte_zip_cons, List.map_cons, Context.blanked]
    rw [regionsFrom.eq_9 _ _ _ (not_escape hescape), if_neg hmark, if_pos hline]
    exact congrArg (Region.code :: ·) ih
  | case13 mark b bytes hescape hmark hline ih =>
    simp (disch := decide) only [map_blankByte_zip_cons, List.map_cons, Context.blanked]
    rw [regionsFrom.eq_9 _ _ _ (not_escape hescape), if_neg hmark, if_neg hline]
    exact congrArg (Region.body :: ·) ih

/-- A byte with its region, when comments are blank. -/
def blanked (x : UInt8 × Region) : UInt8 × Region :=
  (blankByte x, x.2.blanked)

/-- The regions of a text. -/
theorem map_snd_classified (bytes : List UInt8) :
    (classified bytes).map Prod.snd = regionsFrom .code bytes :=
  List.map_snd_zip (Nat.le_of_eq (length_regionsFrom .code bytes))

/-- What the second pass says of every byte. -/
theorem classified_blanked (bytes : List UInt8) :
    classified (maskBytes .comments bytes) = (classified bytes).map blanked := by
  have hregions :
      regionsFrom .code (maskBytes .comments bytes)
        = ((classified bytes).map Prod.snd).map Region.blanked := by
    rw [map_snd_classified]
    exact regionsFrom_blanked .code bytes
  rw [classified, classifiedFrom, hregions, List.map_map]
  exact List.zip_map' ..

/-- Masking does not see what was blanked before. -/
theorem maskByte_blanked (mode : MaskMode) (x : UInt8 × Region) :
    maskByte mode (blanked x).1 (blanked x).2 = maskByte mode x.1 x.2 := by
  obtain ⟨b, region⟩ := x
  by_cases hb : b = newline <;> cases mode <;> cases region <;>
    simp [blanked, blankByte, maskByte, Region.blanked, MaskMode.keeps, hb]

/-! ### Masked texts -/

/-- **Masking comments beforehand** changes nothing, whatever is masked afterwards. -/
theorem mask_mask_comments (mode : MaskMode) (s : List Char) :
    mask mode (mask .comments s) = mask mode s := by
  have hbytes : maskBytes mode (maskBytes .comments (utf8 s)) = maskBytes mode (utf8 s) := by
    rw [maskBytes, classified_blanked, List.map_map]
    exact List.map_congr_left fun x _ => maskByte_blanked mode x
  rw [mask, utf8_mask, hbytes]
  rfl

/-- Masking keeps the number of line breaks. -/
theorem count_newline_masked (mode : MaskMode) (tagged : List (UInt8 × Region)) :
    (tagged.map fun (b, region) => maskByte mode b region).count newline
      = (tagged.map Prod.fst).count newline := by
  induction tagged with
  | nil => rfl
  | cons x tagged ih =>
    have hiff := maskByte_eq_newline_iff mode x.1 x.2
    by_cases hx : x.1 = newline <;> simp_all

/-- Lines can be counted in a masked text. -/
theorem lineOf_mask (mode : MaskMode) (s : List Char) (offset : Nat) :
    lineOf (mask mode s) offset = lineOf s offset := by
  rw [lineOf_eq, lineOf_eq, utf8_mask, maskBytes, ← List.map_take, count_newline_masked,
    List.map_take, map_fst_classified]

section
variable {s : List Char} {offset : Nat} {mark : UInt8} {behind : List (UInt8 × Region)}

/-- A byte of a literal stays what it is when comments are blank, and no other byte becomes one. -/
theorem blanked_eq_iff {x : UInt8 × Region} {b : UInt8} {region : Region} (hcode : region ≠ .code)
    (hcomment : region ≠ .comment) : blanked x = (b, region) ↔ x = (b, region) := by
  obtain ⟨c, own⟩ := x
  cases own with
  | comment => simp [blanked, Region.blanked, hcode.symm, hcomment.symm]
  | _ => simp [blanked, Region.blanked, blankByte_of_ne]

/-- A row of literals is found where it was. -/
theorem prefix_map_blanked_iff {row tagged : List (UInt8 × Region)}
    (hrow : ∀ y ∈ row, y.2 ≠ .code ∧ y.2 ≠ .comment) :
    row <+: tagged.map blanked ↔ row <+: tagged := by
  have hstays : row.map blanked = row := by
    refine (List.map_congr_left fun y hy => ?_).trans (List.map_id row)
    exact (blanked_eq_iff (hrow y hy).1 (hrow y hy).2).2 rfl
  rw [List.prefix_map_iff]
  constructor
  · rintro ⟨front, hfront, rfl⟩
    have hsame : front.map blanked = front := by
      refine (List.map_congr_left fun x hx => ?_).trans (List.map_id front)
      have hy := hrow (blanked x) (List.mem_map_of_mem hx)
      exact ((blanked_eq_iff hy.1 hy.2).1 rfl).symm
    rwa [hsame]
  · intro h
    exact ⟨row, h, hstays.symm⟩

/-- Bodies of literals can be read off a text whose comments are blank. -/
theorem literalBody?_mask_comments
    (hopening : (classified (utf8 s)).drop offset = (mark, .opening) :: behind) :
    literalBody? (mask .literals s) (mask .comments s) offset
      = literalBody? (mask .literals s) s offset := by
  have hopening' : (classified (utf8 (mask .comments s))).drop offset
      = (mark, .opening) :: behind.map blanked := by
    have hmark : blanked (mark, .opening) = (mark, .opening) :=
      (blanked_eq_iff (by decide) (by decide)).2 rfl
    rw [utf8_mask, classified_blanked, ← List.map_drop, hopening, List.map_cons, hmark]
  refine Option.ext fun body => ?_
  conv => lhs; rw [← mask_mask_comments .literals s]
  rw [literalBody?_eq_some_iff hopening', literalBody?_eq_some_iff hopening, prefix_map_blanked_iff]
  intro y hy
  simp only [List.mem_append, List.mem_map, List.mem_singleton] at hy
  rcases hy with ⟨b, -, rfl⟩ | rfl <;> simp

end

end Source

namespace Statement

open Source Text.Reading

/-! ### Statements -/

section
variable {s here opening : List Char} {word : String}

/-- The literal that a form leads up to has the same body when comments are blank. -/
theorem LeadsTo.literalBody?_mask_comments (h : LeadsTo word here opening)
    (hhere : here <:+ mask .literals s) :
    literalBody? (mask .literals s) (mask .comments s) (offsetOf (mask .literals s) opening)
      = literalBody? (mask .literals s) s (offsetOf (mask .literals s) opening) := by
  obtain ⟨⟨b, behind, hopening⟩, -⟩ := h.exists_opening hhere
  exact Source.literalBody?_mask_comments hopening

/-- The imports of a form do not hang on comments. -/
theorem importsOf_mask_comments {form : Reading ImportHead} (isDynamic : Bool)
    (hform : ∀ {here rest head}, (head, rest) ∈ form here → LeadsTo "import" here head.opening) :
    importsOf form isDynamic (mask .literals s) (mask .comments s)
      = importsOf form isDynamic (mask .literals s) s := by
  apply List.filterMap_congr
  rintro ⟨here, head⟩ hfound
  obtain ⟨hhere, rest, hread⟩ := mem_atWordStarts hfound
  dsimp only
  rw [(hform hread).literalBody?_mask_comments hhere]

/-- Neither do all imports. -/
theorem imports_mask_comments (s : List Char) :
    imports (mask .literals s) (mask .comments s) = imports (mask .literals s) s := by
  unfold imports
  rw [importsOf_mask_comments false leadsTo_bindingImport,
    importsOf_mask_comments false leadsTo_bareImport,
    importsOf_mask_comments true leadsTo_dynamicImport]

/-- Neither do export lists. -/
theorem listed_mask_comments (s : List Char) :
    listed (mask .literals s) (mask .comments s) = listed (mask .literals s) s := by
  apply List.flatMap_congr
  rintro ⟨here, body, opening?⟩ hfound
  obtain ⟨hhere, rest, hread⟩ := mem_atWordStarts hfound
  dsimp only
  cases opening? with
  | none => simp only [Option.bind_none, lineOf_mask]
  | some opening =>
    simp only [Option.bind_some, lineOf_mask,
      (leadsTo_exportList hread).literalBody?_mask_comments hhere]

/-- Neither does what is passed on. -/
theorem passedOn_mask_comments (s : List Char) :
    passedOn (mask .literals s) (mask .comments s) = passedOn (mask .literals s) s := by
  apply List.filterMap_congr
  rintro ⟨here, opening⟩ hfound
  obtain ⟨hhere, rest, hread⟩ := mem_atWordStarts hfound
  simp only [lineOf_mask, (leadsTo_exportAll hread).literalBody?_mask_comments hhere]

/-- Neither do all exports. -/
theorem foundExports_mask_comments (s : List Char) :
    foundExports (mask .literals s) (mask .comments s) = foundExports (mask .literals s) s := by
  -- Declarations and bare defaults read nothing off the source but lines.
  have hdeclared : declared (mask .literals s) (mask .comments s)
      = declared (mask .literals s) s := by
    simp only [declared, lineOf_mask]
  have hdefaulted : defaulted (mask .literals s) (mask .comments s)
      = defaulted (mask .literals s) s := by
    simp only [defaulted, lineOf_mask]
  rw [foundExports, foundExports, listed_mask_comments, passedOn_mask_comments, hdeclared,
    hdefaulted]

end

/-- **Comments say nothing.** Masking the comments of a text a second time changes nothing, and
    neither does masking them before the bodies of literals. The text without its comments has the
    same imports and the same exports, found at the same offsets, and every offset is on the same
    line. -/
theorem comments_invisible (s : List Char) :
    mask .comments (mask .comments s) = mask .comments s ∧
    mask .literals (mask .comments s) = mask .literals s ∧
    imports (mask .literals (mask .comments s)) (mask .comments s) = imports (mask .literals s) s ∧
    foundExports (mask .literals (mask .comments s)) (mask .comments s)
      = foundExports (mask .literals s) s ∧
    exports (mask .literals (mask .comments s)) (mask .comments s) = exports (mask .literals s) s ∧
    ∀ offset, lineOf (mask .comments s) offset = lineOf s offset := by
  rw [mask_mask_comments, mask_mask_comments]
  refine ⟨rfl, rfl, imports_mask_comments s, foundExports_mask_comments s, ?_,
    lineOf_mask .comments s⟩
  rw [exports, exports, foundExports_mask_comments]

end Statement

end BlastRadius
