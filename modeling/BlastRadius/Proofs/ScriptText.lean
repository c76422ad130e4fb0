import BlastRadius.Proofs.Relaxed
import BlastRadius.Proofs.Scan
import BlastRadius.Source.Position
import BlastRadius.Statement.Export

namespace BlastRadius

/-!
# What statements are made of

Statements are made of names, lists of names in braces, and a literal that names a module.

* `Statement.Name`, `Statement.Item`, `Statement.Quoted` — names, items of lists, and literals.
* `Statement.importedNames_listBody`, `Statement.exportedNames_listBody` — the names that a list
  takes and gives.
* `Statement.Quoted.mask_chars`, `Statement.Quoted.literalBody?_veiled` — what is left of a literal
  in masked text, and how it is read back.
-/

open Text Text.Reading Source

namespace Statement

/-! ### Names -/

/-- The characters of names: ASCII letters and digits, `_` and `$`. -/
def isPlainChar (c : Char) : Bool :=
  c.isAlphanum || c == '_' || c == '$'

/-- Whether a text is a name of these characters, which does not start with a digit. -/
def isPlainName : List Char → Bool
  | [] => false
  | c :: cs => isNameStart c && cs.all isPlainChar

/-- A name in a statement. -/
structure Name where
  text : String
  isPlain : isPlainName text.toList = true
  /-- The word that marks types is no name. -/
  notType : text ≠ "type"
deriving DecidableEq, Repr

/-- The characters of a name. -/
def Name.chars (n : Name) : List Char :=
  n.text.toList

/-- Plain characters by their code points. -/
theorem toNat_of_isPlainChar {c : Char} (h : isPlainChar c = true) :
    c.toNat = 36 ∨ c.toNat = 95 ∨ (48 ≤ c.toNat ∧ c.toNat ≤ 57) ∨ (65 ≤ c.toNat ∧ c.toNat ≤ 90) ∨
      (97 ≤ c.toNat ∧ c.toNat ≤ 122) := by
  unfold isPlainChar Char.isAlphanum Char.isAlpha Char.isUpper Char.isLower Char.isDigit at h
  simp only [Bool.or_eq_true, Bool.and_eq_true, decide_eq_true_eq, beq_iff_eq] at h
  simp only [Char.toNat, UInt32.le_iff_toNat_le, ge_iff_le] at h ⊢
  rcases h with (((h | h) | h) | rfl) | rfl
  · exact .inr (.inr (.inr (.inl h)))
  · exact .inr (.inr (.inr (.inr h)))
  · exact .inr (.inr (.inl h))
  · exact .inr (.inl rfl)
  · exact .inl rfl

/-- A plain character is no blank. -/
theorem not_isBlank_of_isPlainChar {c : Char} (h : isPlainChar c = true) : isBlank c = false := by
  have hcode := toNat_of_isPlainChar h
  rw [Bool.eq_false_iff]
  intro hblank
  simp only [isBlank, Bool.or_eq_true, Bool.and_eq_true, decide_eq_true_eq, beq_iff_eq] at hblank
  omega

/-- A plain character can stand in a name. -/
theorem isNameChar_of_isPlainChar {c : Char} (h : isPlainChar c = true) : isNameChar c = true := by
  simp only [isPlainChar, Bool.or_eq_true] at h
  simp only [isNameChar, isWord, Bool.or_eq_true]
  rcases h with (h | h) | h <;> simp [h]

/-- No blank is a word character. -/
theorem not_isWord_of_isBlank {c : Char} (h : isBlank c = true) : isWord c = false := by
  have hall : [0x09, 0x0a, 0x0b, 0x0c, 0x0d, 0x20, 0x85, 0xa0, 0x1680, 0x2000, 0x2001,
      0x2002, 0x2003, 0x2004, 0x2005, 0x2006, 0x2007, 0x2008, 0x2009, 0x200a, 0x2028, 0x2029,
      0x202f, 0x205f, 0x3000].all
        (fun n => !isWord (Char.ofNat n)) = true := by
    decide +kernel
  have hcode := List.all_eq_true.1 hall c.toNat (by simp [isBlank] at h ⊢; omega)
  simpa using hcode

/-- What begins a name is plain. -/
theorem isPlainChar_of_isNameStart {c : Char} (h : isNameStart c = true) :
    isPlainChar c = true := by
  simp only [isNameStart, Bool.or_eq_true] at h
  simp only [isPlainChar, Char.isAlphanum, Bool.or_eq_true]
  rcases h with (h | h) | h <;> simp [h]

/-- A name has a first character, and plain ones behind it. -/
theorem Name.exists_cons (n : Name) :
    ∃ c cs, n.chars = c :: cs ∧ isNameStart c = true ∧ ∀ d ∈ cs, isPlainChar d = true := by
  have hplain := n.isPlain
  unfold chars
  cases htext : n.text.toList with
  | nil => simp [htext, isPlainName] at hplain
  | cons c cs =>
    rw [htext, isPlainName, Bool.and_eq_true, List.all_eq_true] at hplain
    exact ⟨c, cs, rfl, hplain.1, hplain.2⟩

/-- A name is made of plain characters. -/
theorem Name.isPlainChar (n : Name) : ∀ c ∈ n.chars, isPlainChar c = true := by
  obtain ⟨c, cs, hchars, hc, hcs⟩ := n.exists_cons
  rw [hchars, List.forall_mem_cons]
  exact ⟨isPlainChar_of_isNameStart hc, hcs⟩

/-- A name is not empty. -/
theorem Name.chars_ne_nil (n : Name) : n.chars ≠ [] := by
  obtain ⟨c, cs, hchars, -⟩ := n.exists_cons
  simp [hchars]

/-- A name has no blanks. -/
theorem Name.not_blank (n : Name) : ∀ c ∈ n.chars, isBlank c = false :=
  fun c hc => not_isBlank_of_isPlainChar (n.isPlainChar c hc)

/-- A name does not begin with a blank. -/
theorem Name.head?_append (n : Name) (s : List Char) :
    (n.chars ++ s).head?.any isBlank = false := by
  obtain ⟨c, cs, hchars, hc, -⟩ := n.exists_cons
  rw [hchars]
  exact not_isBlank_of_isPlainChar (isPlainChar_of_isNameStart hc)

/-- A name is read as a whole. -/
theorem Name.first?_chars (n : Name) {rest : List Char}
    (hrest : rest.head?.any isNameChar = false) :
    name.first? (n.chars ++ rest) = some (⟨n.chars ++ rest, rest⟩, rest) := by
  obtain ⟨c, cs, hchars, hc, hcs⟩ := n.exists_cons
  rw [hchars]
  exact first?_name hc (fun d hd => isNameChar_of_isPlainChar (hcs d hd)) hrest

/-- A word that may stand in front of the rest. -/
theorem first?_marker (word : String) (isMarked : Bool) {s : List Char}
    (hs : s.head?.any isBlank = false) (hplain : (text word >>= fun _ => blanks1) s = []) :
    (optional (text word >>= fun _ => blanks1)).first?
      ((if isMarked then word.toList ++ [' '] else []) ++ s)
      = some (if isMarked then some () else none, s) := by
  cases isMarked with
  | false => exact first?_of_singleton (optional_eq hplain)
  | true =>
    rw [if_pos rfl, if_pos rfl, List.append_assoc]
    exact first?_optional
      (first?_bind (first?_of_singleton (text_append word _))
        (first?_of_singleton (blanks1_space hs)))

/-- Where such a word is read, it may also be left for what follows. -/
theorem optional_word (word : String) {s : List Char} (hs : s.head?.any isBlank = false) :
    Reading.optional (text word >>= fun _ => blanks1) (word.toList ++ ' ' :: s)
      = [(some (), s), (none, word.toList ++ ' ' :: s)] := by
  rw [Reading.optional, bind_eq_of_singleton (text_append word _), blanks1_space hs]
  rfl

/-! ### Lists in braces -/

/-- An item of a list: a name, with another one that it goes by, and perhaps with a `type`
    marker. -/
structure Item where
  isType : Bool
  own : Name
  alias? : Option Name
deriving DecidableEq, Repr

/-- What stands behind the own name of an item. -/
def Item.aliasChars (item : Item) : List Char :=
  match item.alias? with
  | none => []
  | some other => " as ".toList ++ other.chars

/-- An item as it is written. -/
def Item.chars (item : Item) : List Char :=
  (if item.isType then "type ".toList else []) ++ (item.own.chars ++ item.aliasChars)

/-- The name that an item goes by elsewhere. -/
def Item.outer (item : Item) : Name :=
  item.alias?.getD item.own

/-- What stands between the braces of a list: its items, with commas between them. -/
def listBody (items : List Item) : List Char :=
  match items with
  | [] => [' ', ' ']
  | item :: items =>
    ' ' :: (item.chars ++ (items.flatMap (fun item => ',' :: ' ' :: item.chars) ++ [' ']))

/-- A list in braces. -/
def listChars (items : List Item) : List Char :=
  '\x7b' :: (listBody items ++ ['\x7d'])

section
variable {isSeparator : Char → Bool} {piece s : List Char} {c : Char}

/-- A text without separators is one piece. -/
theorem pieces_of_forall (h : ∀ c ∈ piece, isSeparator c = false) :
    pieces isSeparator piece = [piece] := by
  induction piece with
  | nil => rfl
  | cons c piece ih =>
    rw [List.forall_mem_cons] at h
    rw [pieces, if_neg (by simp [h.1]), ih h.2]

/-- A separator ends a piece. -/
theorem pieces_append (h : ∀ c ∈ piece, isSeparator c = false) (hc : isSeparator c = true) :
    pieces isSeparator (piece ++ c :: s) = piece :: pieces isSeparator s := by
  induction piece with
  | nil => rw [List.nil_append, pieces, if_pos hc]
  | cons d piece ih =>
    rw [List.forall_mem_cons] at h
    rw [List.cons_append, pieces, if_neg (by simp [h.1]), ih h.2]

end

namespace Item

variable (item : Item)

/-- Items are made of plain characters and spaces. -/
theorem mem_chars {c : Char} (h : c ∈ item.chars) : isPlainChar c = true ∨ c = ' ' := by
  have hword : ∀ word ∈ ["type ".toList, " as ".toList], ∀ c ∈ word,
      isPlainChar c = true ∨ c = ' ' := by
    simp [isPlainChar]
  -- The type marker, the own name, the word `as` and the alias, in turn.
  rcases List.mem_append.1 h with h | h
  · split at h
    · exact hword _ (by simp) c h
    · cases h
  · rcases List.mem_append.1 h with h | h
    · exact .inl (item.own.isPlainChar c h)
    · unfold aliasChars at h
      split at h
      · cases h
      · rcases List.mem_append.1 h with h | h
        · exact hword _ (by simp) c h
        · exact .inl (Name.isPlainChar _ c h)

/-- The words of an item, without the marker. -/
theorem words_chars :
    words (item.own.chars ++ item.aliasChars)
      = item.own.chars :: (item.alias?.map fun other => [['a', 's'], other.chars]).getD [] := by
  have hfilter : ∀ n : Name, (!n.chars.isEmpty) = true := by
    intro n
    simpa [List.isEmpty_iff] using n.chars_ne_nil
  unfold words aliasChars
  cases item.alias? with
  | none =>
    rw [List.append_nil, pieces_of_forall item.own.not_blank]
    simp [hfilter]
  -- The blanks around `as` separate three words.
  | some other =>
    have hsplit : item.own.chars ++ (" as ".toList ++ other.chars)
        = item.own.chars ++ ' ' :: (['a', 's'] ++ ' ' :: other.chars) := rfl
    dsimp only
    have has : ∀ c ∈ ['a', 's'], isBlank c = false :=
      fun c hc => not_isBlank_of_isPlainChar (List.all_eq_true.1 (by decide) c hc)
    rw [hsplit, pieces_append item.own.not_blank rfl, pieces_append has rfl,
      pieces_of_forall other.not_blank]
    simp [hfilter]

/-- An item does not end with a blank. -/
theorem getLast?_own : (item.own.chars ++ item.aliasChars).getLast?.any isBlank = false := by
  have hname : ∀ n : Name, n.chars.getLast?.any isBlank = false := by
    intro n
    cases hlast : n.chars.getLast? with
    | none => rfl
    | some c => exact n.not_blank c (List.mem_of_getLast? hlast)
  unfold aliasChars
  cases item.alias? with
  | none =>
    rw [List.append_nil]
    exact hname item.own
  | some other =>
    dsimp only
    rw [← List.append_assoc, List.getLast?_append_of_ne_nil _ other.chars_ne_nil]
    exact hname other

/-- An item is not empty. -/
theorem own_ne_nil : item.own.chars ++ item.aliasChars ≠ [] := by
  simp [item.own.chars_ne_nil]

/-- A name behind which a blank or nothing stands does not begin like a marked item. -/
theorem stripPrefix?_own :
    stripPrefix? "type ".toList (item.own.chars ++ item.aliasChars) = none := by
  rw [← Option.not_isSome_iff_eq_none, Option.isSome_iff_exists]
  rintro ⟨rest, hrest⟩
  rw [stripPrefix?_eq_some_iff] at hrest
  have htype : ∀ c ∈ "type".toList, isBlank c = false :=
    fun c hc => not_isBlank_of_isPlainChar (List.all_eq_true.1 (by decide) c hc)
  -- Both sides are a piece without blanks and something behind a blank, or nothing.
  have hpieces := congrArg (fun s => (pieces isBlank s).head?) hrest
  have hright : (pieces isBlank ("type ".toList ++ rest)).head? = some "type".toList := by
    rw [show "type ".toList ++ rest = "type".toList ++ ' ' :: rest from rfl,
      pieces_append htype rfl]
    rfl
  have hleft : (pieces isBlank (item.own.chars ++ item.aliasChars)).head?
      = some item.own.chars := by
    unfold aliasChars
    cases item.alias? with
    | none => rw [List.append_nil, pieces_of_forall item.own.not_blank]; rfl
    | some other =>
      dsimp only
      rw [show item.own.chars ++ (" as ".toList ++ other.chars)
        = item.own.chars ++ ' ' :: ("as ".toList ++ other.chars) from rfl,
        pieces_append item.own.not_blank rfl]
      rfl
  rw [hleft, hright, Option.some_inj] at hpieces
  exact item.own.notType (String.toList_inj.1 hpieces)

/-- An item between blanks says its names. -/
theorem itemWords_chars {front back : List Char} (hfront : ∀ c ∈ front, isBlank c = true)
    (hback : ∀ c ∈ back, isBlank c = true) :
    itemWords (front ++ (item.chars ++ back)) = words (item.own.chars ++ item.aliasChars) := by
  unfold itemWords chars
  cases item.isType with
  | false =>
    dsimp only
    rw [if_neg (by simp), List.nil_append,
      trim_between hfront hback item.own_ne_nil (item.own.head?_append _) item.getLast?_own,
      item.stripPrefix?_own]
  -- The marker is stripped, and what is left is trimmed again.
  | true =>
    have hlast : ("type ".toList ++ (item.own.chars ++ item.aliasChars)).getLast?.any isBlank
        = false := by
      rw [List.getLast?_append_of_ne_nil _ item.own_ne_nil]
      exact item.getLast?_own
    have htrim : trim (item.own.chars ++ item.aliasChars) = item.own.chars ++ item.aliasChars := by
      have hnone : ∀ c ∈ ([] : List Char), isBlank c = true := by simp
      simpa using trim_between hnone hnone item.own_ne_nil (item.own.head?_append _)
        item.getLast?_own
    dsimp only
    rw [if_pos rfl, trim_between hfront hback (by simp) rfl hlast, stripPrefix?_eq_some_iff.2 rfl]
    dsimp only
    rw [htrim]

end Item

/-- The characters of names, lists, and what stands between them. -/
def isClauseChar (c : Char) : Bool :=
  isPlainChar c || [' ', ',', '*', '\x7b', '\x7d'].contains c

/-- What holds throughout two texts holds throughout both together. -/
theorem all_append_of {accepts : Char → Bool} {s t : List Char} (hs : s.all accepts = true)
    (ht : t.all accepts = true) :
    (s ++ t).all accepts = true := by
  rw [List.all_append, hs, ht, Bool.and_self]

/-- A name is made of the characters of clauses. -/
@[simp] theorem Name.all_isClauseChar (n : Name) : n.chars.all isClauseChar = true := by
  rw [List.all_eq_true]
  intro c hc
  rw [isClauseChar, n.isPlainChar c hc, Bool.true_or]

/-- A list of names has plain characters, blanks and commas. -/
theorem mem_listBody {items : List Item} {c : Char} (h : c ∈ listBody items) :
    isPlainChar c = true ∨ c = ' ' ∨ c = ',' := by
  have hitem : ∀ item : Item, c ∈ item.chars → isPlainChar c = true ∨ c = ' ' ∨ c = ',' :=
    fun item hc => (item.mem_chars hc).imp_right .inl
  cases items with
  | nil => exact .inr (.inl (by simpa [listBody] using h))
  | cons item items =>
    simp only [listBody, List.mem_cons, List.mem_append, List.mem_flatMap, List.not_mem_nil,
      or_false] at h
    rcases h with h | h | ⟨other, -, h | h | h⟩ | h
    · exact .inr (.inl h)
    · exact hitem item h
    · exact .inr (.inr h)
    · exact .inr (.inl h)
    · exact hitem other h
    · exact .inr (.inl h)

/-- A list is made of the characters of clauses. -/
@[simp] theorem all_isClauseChar_listChars (items : List Item) :
    (listChars items).all isClauseChar = true := by
  have hbody : (listBody items).all isClauseChar = true := by
    rw [List.all_eq_true]
    intro c hc
    rcases mem_listBody hc with h | rfl | rfl
    · rw [isClauseChar, h, Bool.true_or]
    · rfl
    · rfl
  exact all_append_of (s := ['\x7b']) rfl (all_append_of hbody rfl)

/-- What stands in braces begins with one. -/
theorem led_braced : Led braced "\x7b" := led_text_bind "\x7b" _

/-- A list is read up to its closing brace. -/
theorem first?_braced (items : List Item) (s : List Char) :
    braced.first? (listChars items ++ s) = some (listBody items, s) := by
  -- No name has a brace in it, so the list goes up to its own.
  have hopen : ∀ c ∈ listBody items, (c != '\x7d') = true := by
    intro c hc
    rcases mem_listBody hc with h | rfl | rfl
    · rw [bne_iff_ne]
      rintro rfl
      cases h
    · rfl
    · rfl
  have hbody : all (· != '\x7d') (listBody items ++ '\x7d' :: s)
      = [(listBody items, '\x7d' :: s)] := by
    rw [all, List.takeWhile_append_of_pos hopen, List.dropWhile_append_of_pos hopen]
    simp
  rw [listChars, List.cons_append, List.append_assoc]
  exact first?_bind (first?_of_singleton (text_append "\x7b" _))
    (first?_bind (first?_of_singleton hbody)
      (first?_bind (first?_of_singleton (text_append "\x7d" _)) rfl))

section
variable {α : Type} (pick : List (List Char) → Option α)

/-- What is picked from the pieces of a list is what is picked from its items. -/
theorem filterMap_pieces_items (item : Item) (items : List Item) :
    (pieces (· == ',')
      (' ' :: (item.chars ++ (items.flatMap (fun item => ',' :: ' ' :: item.chars)
        ++ [' '])))).filterMap (fun piece => pick (itemWords piece))
      = (item :: items).filterMap fun item => pick (words (item.own.chars ++ item.aliasChars)) := by
  have hblank : ∀ c ∈ [' '], isBlank c = true := List.forall_mem_singleton.2 rfl
  -- No item has a comma, so the pieces are the items again.
  have hplain : ∀ item : Item, ∀ c ∈ ' ' :: item.chars, (c == ',') = false := by
    intro item c hc
    rw [beq_eq_false_iff_ne]
    rintro rfl
    rcases List.mem_cons.1 hc with hc | hc
    · cases hc
    · exact (item.mem_chars hc).elim (by decide) (by decide)
  induction items generalizing item with
  | nil =>
    have hlast : ∀ c ∈ ' ' :: item.chars ++ [' '], (c == ',') = false := by
      rw [List.forall_mem_append]
      exact ⟨hplain item, List.forall_mem_singleton.2 rfl⟩
    have hwords := item.itemWords_chars hblank hblank
    rw [List.flatMap_nil, List.nil_append, ← List.cons_append, pieces_of_forall hlast,
      List.filterMap_cons, List.filterMap_cons, ← hwords]
    rfl
  | cons next items ih =>
    have hwords := item.itemWords_chars hblank (List.forall_mem_nil _)
    have hsplit : ' ' :: (item.chars
        ++ ((next :: items).flatMap (fun item => ',' :: ' ' :: item.chars) ++ [' ']))
        = (' ' :: item.chars) ++ ',' ::
          (' ' :: (next.chars ++ (items.flatMap (fun item => ',' :: ' ' :: item.chars)
            ++ [' ']))) := by simp
    rw [List.append_nil] at hwords
    rw [hsplit, pieces_append (hplain item) rfl, List.filterMap_cons, List.filterMap_cons, ih next,
      ← hwords]
    rfl

/-- What is picked from the pieces of a list, which may be empty. -/
theorem filterMap_pieces_listBody (items : List Item) (hpick : pick [] = none) :
    (pieces (· == ',') (listBody items)).filterMap (fun piece => pick (itemWords piece))
      = items.filterMap fun item => pick (words (item.own.chars ++ item.aliasChars)) := by
  cases items with
  | nil =>
    have hwords : itemWords [' ', ' '] = [] := by decide
    rw [listBody, pieces_of_forall (by simp)]
    simp [hwords, hpick]
  | cons item items => exact filterMap_pieces_items pick item items

end

/-- The imported names of a list are the own names of its items. -/
theorem importedNames_listBody (items : List Item) :
    importedNames (listBody items) = items.map (·.own.text) := by
  have hbrace : (listBody items).dropWhile (· == '\x7b') = listBody items := by
    cases items with
    | nil => rfl
    | cons item items => rfl
  have hpick : ∀ item : Item,
      (words (item.own.chars ++ item.aliasChars)).head?.map String.ofList = some item.own.text := by
    intro item
    rw [item.words_chars, List.head?_cons, Option.map_some, Name.chars, String.ofList_toList]
  rw [importedNames, hbrace,
    filterMap_pieces_listBody (fun words => words.head?.map String.ofList) items rfl]
  simp only [hpick, List.filterMap_eq_map']

/-- The exported names of a list are the outer names of its items. -/
theorem exportedNames_listBody (items : List Item) :
    exportedNames (listBody items) = items.map (·.outer.text) := by
  have hpick : ∀ item : Item,
      (words (item.own.chars ++ item.aliasChars)).getLast?.map String.ofList
        = some item.outer.text := by
    intro item
    rw [item.words_chars, Item.outer]
    cases item.alias? with
    | none => simp [Name.chars]
    | some other => simp [Name.chars]
  rw [exportedNames,
    filterMap_pieces_listBody (fun words => words.getLast?.map String.ofList) items rfl]
  simp only [hpick, List.filterMap_eq_map']

/-! ### Literals -/

/-- A literal between quotation marks, on one line and without escapes. -/
structure Quoted where
  mark : Char
  text : String
  isQuote : mark = '"' ∨ mark = '\''
  free : mark ∉ text.toList ∧ '\\' ∉ text.toList ∧ '\n' ∉ text.toList
deriving DecidableEq, Repr

namespace Quoted

/-- A literal as it is written. -/
def chars (q : Quoted) : List Char :=
  q.mark :: (q.text.toList ++ [q.mark])

/-- A literal as it is masked. -/
def veiled (q : Quoted) : List Char :=
  q.mark :: (List.replicate (byteSize q.text.toList) ' ' ++ [q.mark])

/-- What is left of a masked literal behind its opening quotation mark, and what follows it. -/
def remainder (q : Quoted) (rest : List Char) : List Char :=
  List.replicate (byteSize q.text.toList) ' ' ++ q.mark :: rest

/-- A veiled literal is its mark, and a remainder. -/
theorem veiled_append (q : Quoted) (rest : List Char) :
    q.veiled ++ rest = q.mark :: q.remainder rest := by
  simp [veiled, remainder]

/-- What follows a remainder belongs to it. -/
theorem remainder_append (q : Quoted) (s t : List Char) :
    q.remainder s ++ t = q.remainder (s ++ t) := by
  simp [remainder]

/-- A blank has one byte. -/
theorem byteSize_spaces (n : Nat) : byteSize (List.replicate n ' ') = n := by
  rw [← length_utf8, utf8_replicate_space, List.length_replicate]

variable (q : Quoted)

/-- The byte of the quotation mark. -/
theorem exists_byte :
    ∃ b, String.utf8EncodeChar q.mark = [b] ∧ isMark b = true ∧
      q.mark = Char.ofNat b.toNat ∧ b < 0x80 := by
  rcases q.isQuote with h | h <;> rw [h]
  · exact ⟨0x22, rfl, rfl, rfl, by decide⟩
  · exact ⟨0x27, rfl, rfl, rfl, by decide⟩

/-- A mark is no blank. -/
theorem head?_mark (s : List Char) : (q.mark :: s).head?.any isBlank = false := by
  rcases q.isQuote with h | h <;> rw [h] <;> rfl

/-- The mark of a literal is read. -/
theorem first?_quote {marks : List Char} (hmarks : '"' ∈ marks ∧ '\'' ∈ marks) (s : List Char) :
    (quote marks).first? (q.mark :: s) = some (q.mark :: s, s) := by
  have hmark : marks.contains q.mark = true := by
    rw [List.contains_iff_mem]
    rcases q.isQuote with h | h <;> rw [h]
    · exact hmarks.1
    · exact hmarks.2
  have hone : (one marks.contains).first? (q.mark :: s) = some (q.mark, s) := by
    rw [first?, one, if_pos hmark]
    rfl
  have hahead : ahead.first? (q.mark :: s) = some (q.mark :: s, q.mark :: s) := rfl
  exact first?_bind hahead (first?_bind hone rfl)

/-- The text of a literal is one that its mark can enclose. -/
theorem literalText {b : UInt8} (hb : q.mark = Char.ofNat b.toNat) (hascii : b < 0x80) :
    LiteralText b (utf8 q.text.toList) := by
  have hfree : ∀ x ∈ utf8 q.text.toList, x ≠ 0x5c ∧ x ≠ b ∧ x ≠ newline := by
    intro x hx
    obtain ⟨c, hc, hx⟩ := List.mem_flatMap.1 hx
    refine ⟨?_, ?_, ?_⟩ <;> rintro rfl
    · rw [eq_of_mem_utf8EncodeChar hx (by decide)] at hc
      exact q.free.2.1 hc
    · rw [eq_of_mem_utf8EncodeChar hx hascii, ← hb] at hc
      exact q.free.1 hc
    · rw [eq_of_mem_utf8EncodeChar hx (by decide)] at hc
      exact q.free.2.2 hc
  rw [← List.append_nil (utf8 q.text.toList)]
  exact .append hfree .nil

/-- A byte of the body is masked by a blank. -/
theorem maskByte_body {b : UInt8} (hb : b ≠ newline) : maskByte .literals b .body = space := by
  simp [maskByte, hb, MaskMode.keeps]

/-- A literal is masked to its quotation marks and spaces between them. -/
theorem mask_chars (s : List Char) :
    mask .literals (q.chars ++ s) = q.veiled ++ mask .literals s := by
  obtain ⟨b, hencoded, hmark, hb, hascii⟩ := q.exists_byte
  have hbytes : utf8 q.chars = b :: (utf8 q.text.toList ++ [b]) := by
    rw [chars, utf8_cons, utf8_append, utf8_cons, hencoded]
    rfl
  refine mask_append (hbytes ▸ setApart_literal hmark (q.literalText hb hascii)) ?_ s
  -- The literal has no line break, so its body is masked by blanks only.
  have hline : ∀ x ∈ utf8 q.text.toList, maskByte .literals x .body = space := by
    intro x hx
    refine maskByte_body ?_
    rintro rfl
    obtain ⟨c, hc, hx⟩ := List.mem_flatMap.1 hx
    rw [eq_of_mem_utf8EncodeChar hx (by decide)] at hc
    exact q.free.2.2 hc
  have hspaces : (utf8 q.text.toList).map (fun x => maskByte .literals x .body)
      = utf8 (List.replicate (byteSize q.text.toList) ' ') := by
    rw [List.map_congr_left hline, List.map_const', length_utf8, utf8_replicate_space]
  rw [veiled, utf8_cons, utf8_append, utf8_cons, hencoded, ← hspaces]
  simp [Lexeme.classified, maskByte, MaskMode.keeps, Function.comp_def, utf8_nil]

/-- A veiled body is measured up to the closing mark. -/
theorem bodySize?_spaces {mark : UInt8} (hmark : isMark mark = true) (n : Nat) (rest : List UInt8) :
    bodySize? mark (List.replicate n space ++ mark :: rest) = some n := by
  have hspace : space ≠ mark := by
    rintro rfl
    exact absurd hmark (by decide)
  have hline : ¬space = newline := by decide
  induction n with
  | zero => simp [bodySize?]
  | succ n ih =>
    rw [List.replicate_succ, List.cons_append, bodySize?, if_neg hspace,
      if_neg (fun h => hline h.1), ih, Option.map_some]

/-- A literal is read back from the source, where masked text says that it stands. -/
theorem literalBody?_veiled {masked source : List Char} (hsize : byteSize masked = byteSize source)
    (mrest srest : List Char) :
    literalBody? (masked ++ (q.veiled ++ mrest)) (source ++ (q.chars ++ srest)) (byteSize masked)
      = some q.text.toList := by
  obtain ⟨b, hencoded, hmark, -⟩ := q.exists_byte
  have hveiled : (utf8 (masked ++ (q.veiled ++ mrest))).drop (byteSize masked)
      = b :: (List.replicate (byteSize q.text.toList) space ++ b :: utf8 mrest) := by
    rw [utf8_append, ← length_utf8, List.drop_left, veiled, utf8_append, utf8_cons, utf8_append,
      utf8_cons, hencoded, utf8_replicate_space]
    simp [utf8_nil]
  have hbyte : byteSize [q.mark] = 1 := by
    rw [← length_utf8, utf8_cons, hencoded]
    rfl
  -- The body is measured in the masked text, and cut out of the source.
  have hslice := slice?_append (source ++ [q.mark]) q.text.toList (q.mark :: srest)
  rw [byteSize_append, hbyte] at hslice
  rw [literalBody?, hveiled]
  dsimp only
  rw [bodySize?_spaces hmark, Option.bind_eq_bind, Option.bind_some, hsize, ← hslice]
  simp [chars]

/-- Veiling keeps the size of a literal. -/
theorem byteSize_veiled : byteSize q.veiled = byteSize q.chars := by
  simp [veiled, chars, byteSize, byteSize_append, byteSize_spaces]

end Quoted

/-- Program text is not masked. -/
theorem mask_literals_bare {word : List Char} (hword : ∀ c ∈ word, IsBare c) (s : List Char) :
    mask .literals (word ++ s) = word ++ mask .literals s := by
  refine mask_append (setApart_bare hword) ?_ s
  simp [Lexeme.classified, maskByte, MaskMode.keeps, List.flatMap_map, List.map_flatMap,
    List.flatMap_singleton']

end Statement

end BlastRadius
