import BlastRadius.Change.Basic
import Mathlib.Data.List.Basic

namespace BlastRadius

/-!
# Lines that say a change

A line is read by trimming it, cutting it at its first blank and trimming what is behind that. The
lines that get through are those of one form, and the form can be told from the line.

* `ChangeKind.spellings` — the words for each kind; `ChangeKind.ofWord?_eq_some_iff` — the table has
  these.
* `ChangeLine` — a line in its parts; `ChangeLine.text` as it is written, `ChangeLine.change` as it
  is meant.
* `ChangeLine.parse_text`, `ChangeLine.exists_of_parse` — all lines of this form are read, and no
  others.
* `ChangeLine.eq_of_text_eq` — the parts of a line can be told.
* `Change.parse_iff_changeLine` — the theorem.
-/

open Text

/-! ### Words for kinds -/

namespace ChangeKind

/-- The words for a kind. -/
def spellings : ChangeKind → List String
  | .created => ["created", "create", "add"]
  | .modified => ["modified", "modify", "change"]
  | .deleted => ["deleted", "delete", "remove", "unlink"]

variable {kind : ChangeKind} {word : String}

/-- A word is read as the kind that it is a spelling of. -/
theorem ofWord?_eq_some_iff : ofWord? word = some kind ↔ word ∈ kind.spellings := by
  have htable : ∀ entry ∈ words, entry.2 = entry.1.spellings := by decide
  have hfound : ∀ kind : ChangeKind, ∀ word ∈ kind.spellings, ofWord? word = some kind := by
    intro kind
    cases kind <;> decide
  refine ⟨fun h => ?_, hfound kind word⟩
  obtain ⟨entry, hentry, rfl⟩ := Option.map_eq_some_iff.1 h
  rw [← htable entry (List.mem_of_find?_eq_some hentry)]
  simpa using List.find?_some hentry

/-- The words are made of letters. -/
theorem not_blank_of_mem_spellings (h : word ∈ kind.spellings) :
    word.toList ≠ [] ∧ ∀ c ∈ word.toList, isBlank c = false := by
  have htable : ∀ word ∈ kind.spellings, word.toList ≠ [] ∧ word.toList.any isBlank = false := by
    cases kind <;> decide
  obtain ⟨hne, hnone⟩ := htable word h
  exact ⟨hne, fun c hc => Bool.not_eq_true _ ▸ List.any_eq_false.1 hnone c hc⟩

end ChangeKind

/-! ### The parts of a line -/

/-- A line that says a change: a word for the kind and a path, with blanks between the two and any
    blanks around them. The path is not empty and may have blanks within, but neither begins nor
    ends with one. -/
@[ext] structure ChangeLine where
  front : List Char
  kind : ChangeKind
  word : String
  gap : List Char
  path : List Char
  back : List Char
  front_blank : ∀ c ∈ front, isBlank c = true
  word_mem : word ∈ kind.spellings
  gap_blank : ∀ c ∈ gap, isBlank c = true
  gap_ne : gap ≠ []
  path_ne : path ≠ []
  path_head : path.head?.any isBlank = false
  path_last : path.getLast?.any isBlank = false
  back_blank : ∀ c ∈ back, isBlank c = true

namespace ChangeLine

/-- The line as it is written. -/
def text (l : ChangeLine) : List Char :=
  l.front ++ (l.word.toList ++ (l.gap ++ (l.path ++ l.back)))

/-- The change that the line says. -/
def change (l : ChangeLine) : Change :=
  ⟨l.kind, .ofChars l.path⟩

/-- Each part ends where the next one begins. -/
theorem head?_word (l : ChangeLine) (rest : List Char) :
    (l.word.toList ++ rest).head?.any isBlank = false := by
  obtain ⟨hne, hword⟩ := ChangeKind.not_blank_of_mem_spellings l.word_mem
  obtain ⟨c, cs, hcs⟩ := List.exists_cons_of_ne_nil hne
  rw [hcs] at hword ⊢
  exact hword c List.mem_cons_self

/-- The word of a line has no blanks. -/
theorem not_blank_word (l : ChangeLine) : ∀ c ∈ l.word.toList, (!isBlank c) = true := by
  intro c hc
  rw [(ChangeKind.not_blank_of_mem_spellings l.word_mem).2 c hc]
  rfl

/-- Where the gap begins, the word ends. -/
theorem head?_gap (l : ChangeLine) (rest : List Char) :
    (l.gap ++ rest).head?.any (!isBlank ·) = false := by
  obtain ⟨b, bs, hgap⟩ := List.exists_cons_of_ne_nil l.gap_ne
  have hb := l.gap_blank b (by rw [hgap]; exact List.mem_cons_self)
  rw [hgap]
  simp [hb]

/-- The path begins with something else than a blank. -/
theorem head?_path (l : ChangeLine) (rest : List Char) :
    (l.path ++ rest).head?.any isBlank = false := by
  rw [List.head?_append_of_ne_nil _ l.path_ne]
  exact l.path_head

/-- Without the blanks around it, a line ends with its path. -/
theorem trim_text (l : ChangeLine) : trim l.text = l.word.toList ++ (l.gap ++ l.path) := by
  have hne : l.word.toList ++ (l.gap ++ l.path) ≠ [] := by simp [l.path_ne]
  have hlast : (l.word.toList ++ (l.gap ++ l.path)).getLast?.any isBlank = false := by
    rw [← List.append_assoc, List.getLast?_append_of_ne_nil _ l.path_ne]
    exact l.path_last
  simpa [text] using trim_between l.front_blank l.back_blank hne (l.head?_word _) hlast

/-- A line is read as the change that it says. -/
theorem parse_text (l : ChangeLine) : Change.parse l.text = .ok l.change := by
  obtain ⟨hword, hrest⟩ := span_append l.not_blank_word (l.head?_gap l.path)
  obtain ⟨b, bs, hgap⟩ := List.exists_cons_of_ne_nil l.gap_ne
  have hpath : trim (bs ++ l.path) = l.path := by
    have hbs : ∀ c ∈ bs, isBlank c = true :=
      fun c hc => l.gap_blank c (by rw [hgap]; exact List.mem_cons_of_mem b hc)
    exact trim_behind hbs l.path_ne l.path_head l.path_last
  rw [Change.parse, l.trim_text, hword, hrest, hgap, List.cons_append, String.ofList_toList,
    ChangeKind.ofWord?_eq_some_iff.2 l.word_mem]
  dsimp only
  rw [hpath]
  rfl

/-! ### Lines that are read -/

/-- Behind a blank there is a path, in a text that does not end with a blank. -/
theorem exists_path {b : Char} {rest : List Char} (hb : isBlank b = true)
    (hlast : (b :: rest).getLast?.any isBlank = false) :
    ∃ gap path, rest = gap ++ path ∧ (∀ c ∈ gap, isBlank c = true) ∧ path ≠ [] ∧
      path.head?.any isBlank = false ∧ path.getLast?.any isBlank = false := by
  have hsplit : rest = rest.takeWhile isBlank ++ rest.dropWhile isBlank :=
    List.takeWhile_append_dropWhile.symm
  have hgap : ∀ c ∈ rest.takeWhile isBlank, isBlank c = true :=
    List.all_eq_true.1 List.all_takeWhile
  -- A rest of blanks only would make the line end with a blank.
  have hne : rest.dropWhile isBlank ≠ [] := by
    intro hnil
    rw [hnil, List.append_nil] at hsplit
    have hall : ∀ c ∈ b :: rest, isBlank c = true := by
      rw [hsplit]
      exact List.forall_mem_cons.2 ⟨hb, hgap⟩
    rw [List.getLast?_eq_some_getLast (List.cons_ne_nil b rest), Option.any_some,
      hall _ (List.getLast_mem _)] at hlast
    cases hlast
  refine ⟨rest.takeWhile isBlank, rest.dropWhile isBlank, hsplit, hgap, hne,
    head?_dropWhile_any isBlank rest, ?_⟩
  rw [hsplit, ← List.cons_append, List.getLast?_append_of_ne_nil _ hne] at hlast
  exact hlast

/-- Only lines of this form are read. -/
theorem exists_of_parse {line : List Char} {c : Change} (h : Change.parse line = .ok c) :
    ∃ l : ChangeLine, l.text = line ∧ l.change = c := by
  obtain ⟨front, back, hline, hfront, hback, hlast⟩ := exists_trim line
  unfold Change.parse at h
  dsimp only at h
  split at h
  · cases h
  · next b rest hdrop =>
    split at h
    · next kind hkind =>
      have hsplit : trim line = (trim line).takeWhile (!isBlank ·) ++ b :: rest := by
        rw [← hdrop, List.takeWhile_append_dropWhile]
      have hb : isBlank b = true := by
        have hfirst := head?_dropWhile_any (!isBlank ·) (trim line)
        rw [hdrop] at hfirst
        simpa using hfirst
      -- The trimmed line does not end with the blank at which it is cut.
      rw [hsplit, List.getLast?_append_of_ne_nil _ (List.cons_ne_nil b rest)] at hlast
      obtain ⟨gap, path, rfl, hgap, hne, hhead, hlast⟩ := exists_path hb hlast
      rw [trim_behind hgap hne hhead hlast] at h
      obtain rfl := Except.ok.inj h
      let l : ChangeLine := {
        front, kind, path, back
        word := String.ofList ((trim line).takeWhile (!isBlank ·))
        gap := b :: gap
        front_blank := hfront
        word_mem := ChangeKind.ofWord?_eq_some_iff.1 hkind
        gap_blank := List.forall_mem_cons.2 ⟨hb, hgap⟩
        gap_ne := List.cons_ne_nil b gap
        path_ne := hne
        path_head := hhead
        path_last := hlast
        back_blank := hback }
      refine ⟨l, ?_, rfl⟩
      calc l.text
          = front ++ ((trim line).takeWhile (!isBlank ·) ++ b :: (gap ++ path) ++ back) := by
            simp [l, text]
        _ = line := by rw [← hsplit, ← hline]
    · cases h

/-! ### The parts can be told -/

/-- A text begins in one way only with characters of a class. -/
theorem append_inj_of_span {accepts : Char → Bool} {front front' rest rest' : List Char}
    (hfront : ∀ c ∈ front, accepts c = true) (hrest : rest.head?.any accepts = false)
    (hfront' : ∀ c ∈ front', accepts c = true) (hrest' : rest'.head?.any accepts = false)
    (h : front ++ rest = front' ++ rest') : front = front' ∧ rest = rest' := by
  have hspan := span_append hfront hrest
  rw [h, (span_append hfront' hrest').1, (span_append hfront' hrest').2] at hspan
  exact ⟨hspan.1.symm, hspan.2.symm⟩

/-- The path does not end with a blank. -/
theorem head?_reverse_path (l : ChangeLine) : l.path.reverse.head?.any isBlank = false := by
  rw [List.head?_reverse]
  exact l.path_last

/-- A line falls into its parts in one way only. -/
theorem eq_of_text_eq {l l' : ChangeLine} (h : l.text = l'.text) : l = l' := by
  obtain ⟨hfront, h⟩ :=
    append_inj_of_span l.front_blank (l.head?_word _) l'.front_blank (l'.head?_word _) h
  obtain ⟨hword, h⟩ :=
    append_inj_of_span l.not_blank_word (l.head?_gap _) l'.not_blank_word (l'.head?_gap _) h
  obtain ⟨hgap, h⟩ :=
    append_inj_of_span l.gap_blank (l.head?_path _) l'.gap_blank (l'.head?_path _) h
  -- Where the path ends is seen from the end of the line.
  have hreverse := congrArg List.reverse h
  rw [List.reverse_append, List.reverse_append] at hreverse
  obtain ⟨hback, hpath⟩ := append_inj_of_span (by simpa using l.back_blank) l.head?_reverse_path
    (by simpa using l'.back_blank) l'.head?_reverse_path hreverse
  have hword := String.toList_inj.1 hword
  have hkind : l.kind = l'.kind := by
    have hl := ChangeKind.ofWord?_eq_some_iff.2 l.word_mem
    rw [hword, ChangeKind.ofWord?_eq_some_iff.2 l'.word_mem] at hl
    exact (Option.some.inj hl).symm
  exact ChangeLine.ext hfront hkind hword hgap (List.reverse_inj.1 hpath) (List.reverse_inj.1 hback)

end ChangeLine

/-- **A line is read exactly if it says a change.** It does if it is blanks, one of the words for a
    kind, at least one blank, a path and blanks. There is only one way to take it so, and what is
    read is the change of that kind with exactly the text of that path, which is not empty. So a
    kind and a path that are written on a line, with whatever blanks around and between them, are
    read back. -/
theorem Change.parse_iff_changeLine (line : List Char) :
    ((∃ c, Change.parse line = .ok c) ↔ ∃ l : ChangeLine, l.text = line) ∧
    (∀ l l' : ChangeLine, l.text = line → l'.text = line → l = l') ∧
    (∀ l : ChangeLine, l.text = line → Change.parse line = .ok l.change) ∧
    (∀ c, Change.parse line = .ok c →
      ∃ l : ChangeLine, l.text = line ∧ c.kind = l.kind ∧ c.path.chars = l.path ∧
        c.path.chars ≠ []) ∧
    ∀ l : ChangeLine, Change.parse l.text = .ok ⟨l.kind, .ofChars l.path⟩ := by
  refine ⟨⟨?_, ?_⟩, ?_, ?_, ?_, ChangeLine.parse_text⟩
  · rintro ⟨c, hc⟩
    obtain ⟨l, hl, -⟩ := ChangeLine.exists_of_parse hc
    exact ⟨l, hl⟩
  · rintro ⟨l, rfl⟩
    exact ⟨l.change, l.parse_text⟩
  · rintro l l' rfl hl'
    exact ChangeLine.eq_of_text_eq hl'.symm
  · rintro l rfl
    exact l.parse_text
  · intro c hc
    obtain ⟨l, hl, rfl⟩ := ChangeLine.exists_of_parse hc
    have hpath : l.change.path.chars = l.path := String.toList_ofList
    exact ⟨l, hl, rfl, hpath, by rw [hpath]; exact l.path_ne⟩

namespace Sample

/-- A path with a blank in it, between blanks of several kinds. -/
def spacedLine : ChangeLine where
  front := "\u3000\t".toList
  kind := .deleted
  word := "unlink"
  gap := "\u00a0 ".toList
  path := "/p/my file.ts".toList
  back := "\u2028\n".toList
  front_blank := List.all_eq_true.1 (by decide)
  word_mem := by decide
  gap_blank := List.all_eq_true.1 (by decide)
  gap_ne := by decide
  path_ne := by decide
  path_head := by decide
  path_last := by decide
  back_blank := List.all_eq_true.1 (by decide)

/-- The blank in the path stays, and there is no other way to take the line. -/
theorem parse_iff_changeLine_spaced :
    spacedLine.text = "\u3000\tunlink\u00a0 /p/my file.ts\u2028\n".toList ∧
    Change.parse spacedLine.text = .ok ⟨.deleted, .ofString "/p/my file.ts"⟩ ∧
    ∀ l : ChangeLine, l.text = spacedLine.text → l = spacedLine := by
  obtain ⟨-, hone, hread, -, -⟩ := Change.parse_iff_changeLine spacedLine.text
  exact ⟨by decide, hread spacedLine rfl, fun l hl => hone l spacedLine hl rfl⟩

end Sample

end BlastRadius
