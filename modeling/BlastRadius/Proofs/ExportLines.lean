import BlastRadius.Proofs.ExportText

namespace BlastRadius.Statement

/-!
# Scripts of export statements

Four patterns go over the same lines. None of them reads anything from the middle of a line on,
since no `export` there is followed by a word that an export statement goes on with.

* `eq_nil_of_exportLead` — all patterns begin with `exportLead`.
* `ExportStatement.passes_behind` — no line has this in its middle.
* `exports_script` — the exports of a script; `Sample.exports_dollarClass` — a name that is taken
  for a statement.
-/

open Text Text.Reading Source

/-! ### How export statements begin -/

/-- A lead begins with the word `export`. -/
theorem led_exportLead : Led exportLead "export" := led_text_bind "export" _

section
variable {α : Type} {s u : List Char}

/-- None of the words is read off a text that begins with none of them. -/
theorem oneOf_leadWords_eq_nil :
    oneOf (leadWords.map text) u = [] ↔ ∀ word ∈ leadWords, ¬word.toList <+: u := by
  rw [oneOf, List.flatMap_eq_nil_iff, List.forall_mem_map]
  refine forall₂_congr fun word _ => ⟨?_, text_eq_nil⟩
  rintro hnone ⟨more, rfl⟩
  rw [text_append] at hnone
  cases hnone

/-- What reads nothing without a lead word reads nothing where the lead is not read. -/
theorem eq_nil_of_exportLead {f : Unit → Reading α}
    (hf : ∀ u, (∀ word ∈ leadWords, ¬word.toList <+: u) → f () u = []) (h : exportLead s = []) :
    (text "export" >>= fun _ => blanks1 >>= f) s = [] := by
  by_cases hprefix : "export".toList <+: s
  · obtain ⟨t, rfl⟩ := hprefix
    rw [exportLead, bind_eq_of_singleton (text_append "export" t)] at h
    rw [bind_eq_of_singleton (text_append "export" t)]
    rcases blanks1_eq t with ht | ht
    · exact bind_eq_nil ht
    · rw [bind_eq_of_singleton ht] at h ⊢
      exact hf _ (oneOf_leadWords_eq_nil.1 h)
  · exact led_text_bind "export" _ s hprefix

/-- Without a lead there is no export list. -/
theorem exportList_of_lead (h : exportLead s = []) : exportList s = [] := by
  refine eq_nil_of_exportLead (fun u hu => ?_) h
  rw [bind_eq_of_singleton (typeMarker_eq (led_text_bind "type" _ u (hu _ (by decide)))),
    bind_eq_nil (led_braced u (hu _ (by decide)))]

/-- Without a lead nothing is passed on. -/
theorem exportAll_of_lead (h : exportLead s = []) : exportAll s = [] := by
  refine eq_nil_of_exportLead (fun u hu => ?_) h
  rw [bind_eq_of_singleton (typeMarker_eq (led_text_bind "type" _ u (hu _ (by decide)))),
    bind_eq_nil (text_eq_nil (hu _ (by decide)))]

/-- A text that begins with no word of a lead declares nothing. -/
theorem declarationKeyword_of_no_lead (hu : ∀ word ∈ leadWords, ¬word.toList <+: u) :
    declarationKeyword u = [] := by
  have hword : ∀ {word} (f : Unit → Reading ExportKind), word ∈ leadWords →
      (text word >>= f) u = [] :=
    fun f hword => led_text_bind _ f u (hu _ hword)
  have hkeyword : ∀ {word} (f : Unit → Reading ExportKind), word ∈ leadWords →
      (keyword word >>= f) u = [] :=
    fun f hword => bind_eq_nil (led_text_bind _ _ u (hu _ hword))
  rw [declarationKeyword, oneOf, List.flatMap_eq_nil_iff]
  simp only [List.forall_mem_cons]
  refine ⟨hword _ ?_, hkeyword _ ?_, hword _ ?_, hkeyword _ ?_, hkeyword _ ?_, hkeyword _ ?_,
    hword _ ?_, hkeyword _ ?_, hkeyword _ ?_, hkeyword _ ?_, hkeyword _ ?_, hkeyword _ ?_,
    hkeyword _ ?_, List.forall_mem_nil _⟩ <;> decide

/-- Without a lead there is no exported declaration. -/
theorem exportDeclaration_of_lead (h : exportLead s = []) : exportDeclaration s = [] := by
  refine eq_nil_of_exportLead (fun u hu => ?_) h
  have hbehind : declarationBehind u = [] :=
    declarationBehind_eq_nil (led_text_bind "default" _ u (hu _ (by decide)))
      (led_text_bind "declare" _ u (hu _ (by decide)))
      (declarationKeyword_of_no_lead hu)
  rw [bind_eq_of_singleton (typeMarker_eq (led_text_bind "type" _ u (hu _ (by decide))))]
  exact hbehind

/-- Without a lead there is no default export. -/
theorem exportDefault_of_lead (h : exportLead s = []) : exportDefault s = [] :=
  eq_nil_of_exportLead (fun u hu => led_text_bind "default" _ u (hu _ (by decide))) h

end

/-! ### What stands behind `export` -/

section
variable {before : Option Char} {s rest : List Char}

/-- A lead needs a blank behind the word `export`. -/
theorem exportLead_cons {c : Char} (hc : isBlank c = false) (s : List Char) :
    exportLead ("export".toList ++ c :: s) = [] := by
  have hblanks : blanks1 (c :: s) = [] := blanks1_eq_nil hc
  rw [exportLead, bind_eq_of_singleton (text_append "export" _), bind_eq_nil hblanks]

/-- A character that is not the first letter of `export`. -/
theorem passes_cons {c : Char} (hc : c ≠ 'e') (h : Passes exportLead (some c) s rest) :
    Passes exportLead before (c :: s) rest :=
  .cons (led_exportLead _ (not_prefix_of_head (c := 'e') rfl (by simpa using hc))) h

/-- A word and the blank behind it. -/
theorem passes_word (word : String) (hword : ¬"export".toList <:+: word.toList)
    (h : Passes exportLead (some ' ') s rest) :
    Passes exportLead before (word.toList ++ ' ' :: s) rest := by
  refine Passes.append (led_exportLead.passes_of_absent ?_ hword) ?_
  · intro c hc
    rw [← Option.some_inj.1 hc]
    decide
  · exact passes_cons (by decide) h

/-- A name, which may end in `export`. -/
theorem Name.passes (n : Name) (hrest : rest.head?.any Statement.isPlainChar = false)
    (hend : exportLead ("export".toList ++ rest) = []) :
    Passes exportLead before n.chars rest :=
  led_exportLead.passes_name (List.all_eq_true.1 (by decide)) n.isPlainChar hrest
    (fun _ _ hc => exportLead_cons (not_isBlank_of_isPlainChar hc) _) fun _ _ _ => hend

/-- A list item. -/
theorem Item.passes (item : Item) (hrest : rest.head?.any isPlainChar = false)
    (hend : exportLead ("export".toList ++ rest) = []) :
    Passes exportLead before item.chars rest := by
  -- The alias, if any, stands behind the name and the word `as`.
  have halias : ∀ before, Passes exportLead before (item.own.chars ++ item.aliasChars) rest := by
    intro before
    unfold aliasChars
    cases item.alias? with
    | none =>
      rw [List.append_nil]
      exact item.own.passes hrest hend
    | some other =>
      refine Passes.append (item.own.passes rfl rfl) ?_
      exact passes_cons (by decide) (passes_word "as" (by decide) (other.passes hrest hend))
  unfold chars
  cases item.isType with
  | false => exact halias before
  | true => exact passes_word "type" (by decide) (halias _)

/-- The items of a list, each behind a comma, and the end of the list. -/
theorem passes_items (items : List Item) (rest : List Char) :
    Passes exportLead before (items.flatMap (fun item => ',' :: ' ' :: item.chars) ++ [' '])
      ('\x7d' :: rest) := by
  induction items generalizing before with
  | nil => exact passes_cons (by decide) (passes_nil _ _ _)
  | cons item items ih =>
    rw [List.flatMap_cons, List.append_assoc]
    refine Passes.append (passes_cons (by decide) (passes_cons (by decide) (item.passes ?_ ?_))) ih
    · cases items <;> rfl
    · cases items <;> rfl

/-- No lead stands inside a list of names. -/
theorem passes_listBody (items : List Item) (rest : List Char) :
    Passes exportLead before (listBody items) ('\x7d' :: rest) := by
  cases items with
  | nil => exact passes_cons (by decide) (passes_cons (by decide) (passes_nil _ _ _))
  | cons item items =>
    refine passes_cons (by decide) (Passes.append (item.passes ?_ ?_) (passes_items items rest))
    · cases items <;> rfl
    · cases items <;> rfl

/-- Nor in the braces around it. -/
theorem passes_listChars (items : List Item) (rest : List Char) :
    Passes exportLead before (listChars items) rest :=
  passes_cons (by decide)
    (Passes.append (passes_listBody items _) (passes_cons (by decide) (passes_nil _ _ _)))

/-- The literal, and what closes the statement. -/
theorem passes_origin (origin? : Option Quoted) (isClosed : Bool) (rest : List Char) :
    Passes exportLead before
      ((origin?.map Quoted.veiled).getD [] ++ if isClosed then [';'] else []) rest := by
  refine led_exportLead.passes_plain (c := 'e') rfl ?_
  have horigin : 'e' ∉ (origin?.map Quoted.veiled).getD [] := by
    cases origin? with
    | none => simp
    | some q => rcases q.isQuote with h | h <;> simp [Quoted.veiled, h]
  have hclosing : 'e' ∉ (if isClosed then [';'] else []) := by
    cases isClosed <;> decide
  rw [List.mem_append, not_or]
  exact ⟨horigin, hclosing⟩

end

namespace ExportStatement

/-- Below a line there is nothing, or another statement. -/
theorem dropWhile_below (lines : List (Option ExportStatement)) :
    (below (fun s => s.layout.veiled) lines).dropWhile isBlank = [] ∨
      ∃ t, (below (fun s => s.layout.veiled) lines).dropWhile isBlank = "export".toList ++ t := by
  induction lines with
  | nil => exact .inl rfl
  | cons line lines ih =>
    cases line with
    | none => exact ih
    | some s =>
      have hline : below (fun s => s.layout.veiled) (some s :: lines)
          = '\n' :: (s.layout.veiled ++ below (fun s => s.layout.veiled) lines) :=
        rfl
      rw [hline, s.veiled_layout, List.append_assoc]
      exact .inr ⟨s.behind ++ below (fun s => s.layout.veiled) lines, rfl⟩

/-- What follows a line begins with a line break. -/
theorem head?_below (lines : List (Option ExportStatement)) :
    ∀ c ∈ (below (fun s => s.layout.veiled) lines).head?, c = '\n' := by
  intro c hc
  cases lines with
  | nil => cases hc
  | cons line lines => exact (Option.some_inj.1 hc).symm

/-- So it does not continue a name. -/
theorem head?_below_any (lines : List (Option ExportStatement)) :
    (below (fun s => s.layout.veiled) lines).head?.any isNameChar = false := by
  cases lines <;> rfl

/-- The lines below do not begin with one of the words that may follow `export`, nor go on with
    one. -/
theorem oneOf_leadWords_append_below {u : List Char}
    (h : oneOf (leadWords.map text) (u.dropWhile isBlank) = [])
    (lines : List (Option ExportStatement)) :
    oneOf (leadWords.map text) ((u ++ below (fun s => s.layout.veiled) lines).dropWhile isBlank)
      = [] := by
  rw [List.dropWhile_append]
  split
  · rcases dropWhile_below lines with hbelow | ⟨t, hbelow⟩ <;> rw [hbelow] <;> rfl
  · rw [oneOf_leadWords_eq_nil] at h ⊢
    intro word hword hprefix
    refine h word hword (prefix_of_prefix_append (fun c hc hmem => ?_) hprefix)
    have hnewline : leadWords.all (fun word => !word.toList.contains '\n') = true := by decide
    have hword := List.all_eq_true.1 hnewline word hword
    rw [head?_below lines c hc] at hmem
    simp [hmem] at hword

/-- What is not the lead of a statement does not become one with the lines below. -/
theorem exportLead_append_below {u : List Char} (h : exportLead ("export".toList ++ u) = [])
    (lines : List (Option ExportStatement)) :
    exportLead ("export".toList ++ (u ++ below (fun s => s.layout.veiled) lines)) = [] := by
  rw [exportLead, bind_eq_of_singleton (text_append "export" _)] at h ⊢
  -- Without a blank in `u`, the first one is the line break.
  cases u with
  | nil =>
    rcases blanks1_eq (below (fun s => s.layout.veiled) lines) with hblanks | hblanks
    · exact bind_eq_nil hblanks
    · rw [List.nil_append, bind_eq_of_singleton hblanks]
      exact oneOf_leadWords_append_below (u := []) rfl lines
  | cons c u =>
    cases hc : isBlank c with
    | false => exact bind_eq_nil (blanks1_eq_nil hc)
    | true =>
      have hblanks : ∀ v, blanks1 (c :: v) = [((), v.dropWhile isBlank)] :=
        fun v => by rw [blanks1, if_pos hc]
      rw [bind_eq_of_singleton (hblanks u)] at h
      rw [List.cons_append, bind_eq_of_singleton (hblanks _)]
      exact oneOf_leadWords_append_below h lines

/-- A line break and what follows it are no rest of a lead. -/
theorem exportLead_below (lines : List (Option ExportStatement)) :
    exportLead ("export".toList ++ below (fun s => s.layout.veiled) lines) = [] :=
  exportLead_append_below (u := []) rfl lines

/-- No other statement begins in the name of a declaration. -/
theorem passes_declaredName (d : Declared) (lines : List (Option ExportStatement)) :
    Passes exportLead (some ' ') d.name.chars
      (d.body.toList ++ below (fun s => s.layout.veiled) lines) := by
  refine led_exportLead.passes_name (List.all_eq_true.1 (by decide)) d.name.isPlainChar ?_
    (fun _ _ hc => exportLead_cons (not_isBlank_of_isPlainChar hc) _) fun a hsplit hbefore => ?_
  · -- The name is not continued by what is below.
    have hapart := d.head?_body (head?_below_any lines)
    cases hhead : (d.body.toList ++ below (fun s => s.layout.veiled) lines).head? with
    | none => rfl
    | some c =>
      rw [hhead, Option.any_some] at hapart
      rw [Option.any_some, Bool.eq_false_iff]
      intro hc
      rw [isNameChar_of_isPlainChar hc] at hapart
      cases hapart
  · -- A word `export` inside the name can only begin behind a dollar sign.
    refine exportLead_append_below (d.noLead ?_) lines
    rcases List.eq_nil_or_concat a with rfl | ⟨a, c, rfl⟩
    · exact absurd hsplit (d.name.ne_of_mem_reserved (by decide)).1
    · have hc : isNameChar c = true :=
        isNameChar_of_isPlainChar (d.name.isPlainChar c (by simp [hsplit]))
      have hword : isWord c = false := by simpa [beforeRest] using hbefore
      have hdollar : c = '$' := by simpa [isNameChar, hword] using hc
      exact ⟨a, by rw [hsplit, hdollar]; simp⟩

/-- No other statement begins in the body of a declaration. -/
theorem passes_body (d : Declared) (before : Option Char) (lines : List (Option ExportStatement)) :
    Passes exportLead before d.body.toList (below (fun s => s.layout.veiled) lines) := by
  intro a b hsplit hne hword
  have hexport := (passes_of_scan_eq_nil d.noExport).of_none a b hsplit hne hword
  by_cases hprefix : "export".toList <+: b ++ below (fun s => s.layout.veiled) lines
  · have hrest : ∀ c ∈ (below (fun s => s.layout.veiled) lines).head?, c ∉ "export".toList := by
      intro c hc
      rw [head?_below lines c hc]
      decide
    -- The word lies inside the body, which has no such word of its own.
    obtain ⟨z, rfl⟩ := prefix_of_prefix_append hrest hprefix
    rw [List.append_nil, keyword, bind_eq_of_singleton (text_append "export" z)] at hexport
    rw [List.append_assoc]
    cases z with
    | nil => cases hexport
    | cons c z =>
      refine exportLead_cons ?_ _
      by_contra hc
      rw [wordEnd, not_isWord_of_isBlank (by simpa using hc)] at hexport
      cases hexport
  · exact led_exportLead _ hprefix

/-- No lead stands inside a declaration. -/
theorem passes_declared (d : Declared) (lines : List (Option ExportStatement)) :
    Passes exportLead (some ' ') d.clause (below (fun s => s.layout.veiled) lines) := by
  have hkeyword : ¬"export".toList <:+: d.keyword.word.toList :=
    of_decide_eq_true (d.keyword.forall_word
      (fun word => decide ¬"export".toList <:+: word.toList) (by decide))
  -- The clause is assembled from its end: keyword, name and body first, then the two markers.
  have hname : Passes exportLead (some ' ') (d.keyword.word.toList ++ ' ' :: d.nameAndBody)
      (below (fun s => s.layout.veiled) lines) :=
    passes_word d.keyword.word hkeyword
      (Passes.append (passes_declaredName d lines) (passes_body d _ lines))
  have hambient : Passes exportLead (some ' ')
      ((if d.isAmbient then "declare".toList ++ [' '] else [])
      ++ (d.keyword.word.toList ++ ' ' :: d.nameAndBody))
        (below (fun s => s.layout.veiled) lines) := by
    cases d.isAmbient with
    | false => exact hname
    | true => exact passes_word "declare" (by decide) hname
  unfold Declared.clause
  cases d.isDefault with
  | false => exact hambient
  | true => exact passes_word "default" (by decide) hambient

/-- **Nothing begins in the middle of a line.** -/
theorem passes_behind (s : ExportStatement) (lines : List (Option ExportStatement)) :
    Passes exportLead (some 't') s.behind (below (fun s => s.layout.veiled) lines) := by
  have hfrom : ∀ before rest, Passes exportLead before " from ".toList rest :=
    fun before rest => passes_cons (by decide) (passes_word "from" (by decide) (passes_nil _ _ _))
  refine passes_cons (by decide) (Passes.append ?_ (passes_origin s.origin? s.isClosed _))
  cases s with
  | declared d => exact passes_declared d lines
  | list items origin? isClosed =>
    cases origin? with
    | none => exact passes_listChars items _
    | some q => exact Passes.append (passes_listChars items _) (hfrom _ _)
  | whole alias? origin isClosed =>
    cases alias? with
    | none => exact passes_cons (by decide) (hfrom _ _)
    | some n =>
      have hname : ∀ rest, Passes exportLead (some ' ') (n.chars ++ " from ".toList) rest :=
        fun rest => Passes.append (n.passes rfl rfl) (hfrom _ _)
      exact passes_cons (by decide)
        (passes_cons (by decide) (passes_word "as" (by decide) (hname _)))
  | main n isClosed =>
    refine passes_word "default" (by decide) (n.passes ?_ ?_)
    · cases isClosed with
      | false => cases lines <;> rfl
      | true => rfl
    · cases isClosed with
      | false => exact exportLead_below lines
      | true => exact exportLead_cons rfl _

section
variable {α : Type} {p : Reading α} (hlead : ∀ s, exportLead s = [] → p s = [])
  (s : ExportStatement)
  (lines : List (Option ExportStatement))

include hlead

/-- A pattern that does not read the statement finds nothing on its line. -/
theorem meets_none
    (h : p ("export".toList ++ (s.behind ++ below (fun s => s.layout.veiled) lines)) = []) :
    Meets p s.layout.veiled (below (fun s => s.layout.veiled) lines) none := by
  have hword :
      Passes exportLead (some 'e') ['x', 'p', 'o', 'r', 't']
        (s.behind ++ below (fun s => s.layout.veiled) lines) :=
    led_exportLead.passes_plain (c := 'e') rfl (by decide)
  rw [s.veiled_layout]
  exact .pass (.cons h ((Passes.append hword (passes_behind s lines)).imp hlead))

/-- A pattern that reads the statement finds it alone. -/
theorem meets_some {read left : List Char} {a : α} (hbehind : s.behind = read ++ left)
    (h : p.first? ("export".toList ++ (s.behind ++ below (fun s => s.layout.veiled) lines))
      = some (a, left ++ below (fun s => s.layout.veiled) lines)) :
    Meets p s.layout.veiled (below (fun s => s.layout.veiled) lines) (some a) := by
  have hpasses := passes_behind s lines
  rw [hbehind] at hpasses h
  have hline : "export".toList ++ (read ++ left) = ("export".toList ++ read) ++ left :=
    (List.append_assoc _ _ _).symm
  rw [s.veiled_layout, hbehind]
  refine .hit hline (by simp) ?_ ?_
  · rw [← h, List.append_assoc, List.append_assoc]
  · rw [beforeRest_append]
    exact hpasses.of_append.imp hlead

end

/-- Nothing is taken from another module for a list at the end of a line. -/
theorem fromOpening_below (isClosed : Bool) (lines : List (Option ExportStatement)) :
    (blanks >>= fun _ => fromOpening)
      ((if isClosed then [';'] else []) ++ below (fun s => s.layout.veiled) lines)
      = [] := by
  cases isClosed with
  | true => rfl
  | false =>
    have hblanks : blanks (below (fun s => s.layout.veiled) lines)
        = [((), (below (fun s => s.layout.veiled) lines).dropWhile isBlank)] := rfl
    change (blanks >>= fun _ => fromOpening) (below (fun s => s.layout.veiled) lines) = []
    rw [bind_eq_of_singleton hblanks]
    rcases dropWhile_below lines with h | ⟨t, h⟩ <;> rw [h] <;> rfl

/-- A statement with a literal, cut behind its opening quotation mark. -/
theorem behind_of_origin {s : ExportStatement} {q : Quoted} (hq : s.origin? = some q) :
    s.behind = (' ' :: (s.clause ++ [q.mark]))
      ++ q.remainder (if s.isClosed then [';'] else []) := by
  have hclosing : s.closing = q.mark :: q.remainder (if s.isClosed then [';'] else []) := by
    rw [closing, hq, Option.map_some, Option.getD_some, Quoted.veiled_append]
  rw [behind, hclosing]
  simp

/-- The closing of a statement with an origin begins with the mark of its literal. -/
theorem closing_of_origin {s : ExportStatement} {q : Quoted} (hq : s.origin? = some q)
    (rest : List Char) :
    s.closing ++ rest = q.mark :: (q.remainder (if s.isClosed then [';'] else []) ++ rest) := by
  rw [closing, hq, Option.map_some, Option.getD_some, Quoted.veiled_append, List.cons_append]

/-- What is found of a statement, if it is one of the given ones. -/
def foundIf (owns : ExportStatement → Bool) (rank : Nat) (place : Place ExportStatement) :
    List Found :=
  if owns place.stated then (records place).map fun item => ⟨place.offset, rank, item⟩ else []

/-- What needs a lead does not begin with a line break. -/
theorem newline_eq_nil {α : Type} {p : Reading α} (hlead : ∀ s, exportLead s = [] → p s = [])
    (s : List Char) : p ('\n' :: s) = [] :=
  hlead _ (led_exportLead _
    (not_prefix_of_head (c := 'e') rfl (show some '\n' ≠ some 'e' by decide)))

/-- A list of own names is read up to its closing brace. -/
theorem meets_exportList_own (items : List Item) (isClosed : Bool)
    (lines : List (Option ExportStatement)) :
    Meets exportList (list items none isClosed).layout.veiled
      (below (fun s => s.layout.veiled) lines) (some (listBody items, none)) := by
  have hbehind : (list items none isClosed).behind
      = (' ' :: listChars items) ++ (if isClosed then [';'] else []) := rfl
  refine meets_some (fun _ => exportList_of_lead) _ _ hbehind ?_
  rw [first?, exportList_behind _ (head?_below_any lines)]
  exact first?_listBehind items (fromOpening_below isClosed lines)

/-- A list that is passed on is read up to the opening of the literal. -/
theorem meets_exportList_from (items : List Item) (q : Quoted) (isClosed : Bool)
    (lines : List (Option ExportStatement)) :
    Meets exportList (list items (some q) isClosed).layout.veiled
      (below (fun s => s.layout.veiled) lines) (some (listBody items,
        some (q.veiled ++ ((if isClosed then [';'] else [])
          ++ below (fun s => s.layout.veiled) lines)))) := by
  refine meets_some (fun _ => exportList_of_lead) _ _ (behind_of_origin rfl) ?_
  rw [first?, exportList_behind _ (head?_below_any lines),
    closing_of_origin (s := .list items (some q) isClosed) rfl
      (below (fun s => s.layout.veiled) lines),
    q.veiled_append, ← q.remainder_append]
  exact first?_listBehind_from items q _

/-- The export lists found in a script are those it states. -/
theorem listed_script (lines : List (Option ExportStatement)) :
    listed (script (fun s => s.layout.veiled) lines) (script (fun s => s.layout.chars) lines)
      = (placed layout lines).flatMap (foundIf isList 0) := by
  refine flatMap_atWordStarts_script
    ⟨newline_eq_nil fun _ => exportList_of_lead, fun place _ below' hstands => ?_⟩
  obtain ⟨offset, line, s⟩ := place
  have hoffset : offsetOf _ (s.layout.veiled ++ _) = offset := hstands.offsetOf
  have hline : lineOf _ offset = line := hstands.lineOf
  -- A list is found where it stands, and no other form is read as one.
  by_cases hlist : s.isList = true
  · cases s with
    | list items origin? isClosed =>
      cases origin? with
      | none =>
        refine ⟨_, meets_exportList_own items isClosed below', ?_⟩
        rw [Option.toList_some, List.flatMap_singleton]
        dsimp only
        rw [exportedNames_listBody, hoffset, hline]
        simp [foundIf, isList, records]
      | some q =>
        have hq :
            literalBody? _ _ (offsetOf _ (q.veiled ++ ((if isClosed then [';'] else []) ++ _)))
              = some q.text.toList :=
          hstands.literalBody? rfl
        refine ⟨_, meets_exportList_from items q isClosed below', ?_⟩
        rw [Option.toList_some, List.flatMap_singleton]
        dsimp only
        rw [exportedNames_listBody, hoffset, hline, Option.bind_some, hq]
        simp [foundIf, isList, records]
    | _ => cases hlist
  · refine ⟨none, meets_none (fun _ => exportList_of_lead) _ _ ?_, by simp [foundIf, hlist]⟩
    rw [exportList_behind s (head?_below_any below'), s.listBehind_eq_nil (by simpa using hlist)]

/-- The export of a whole module is read up to the opening of the literal. -/
theorem meets_exportAll (alias? : Option Name) (q : Quoted) (isClosed : Bool)
    (lines : List (Option ExportStatement)) :
    Meets exportAll (whole alias? q isClosed).layout.veiled (below (fun s => s.layout.veiled) lines)
      (some (q.veiled ++ ((if isClosed then [';'] else [])
        ++ below (fun s => s.layout.veiled) lines))) := by
  refine meets_some (fun _ => exportAll_of_lead) _ _ (behind_of_origin rfl) ?_
  rw [first?, exportAll_behind _ (head?_below_any lines),
    closing_of_origin (s := .whole alias? q isClosed) rfl (below (fun s => s.layout.veiled) lines),
    q.veiled_append, ← q.remainder_append]
  cases alias? with
  | none => exact first?_wholeBehind q _
  | some n => exact first?_wholeBehind_as n q _

/-- The same holds of what it passes on. -/
theorem passedOn_script (lines : List (Option ExportStatement)) :
    passedOn (script (fun s => s.layout.veiled) lines) (script (fun s => s.layout.chars) lines)
      = (placed layout lines).flatMap (foundIf isWhole 0) := by
  rw [passedOn, List.filterMap_eq_flatMap_toList]
  refine flatMap_atWordStarts_script
    ⟨newline_eq_nil fun _ => exportAll_of_lead, fun place _ below' hstands => ?_⟩
  obtain ⟨offset, line, s⟩ := place
  have hoffset : offsetOf _ (s.layout.veiled ++ _) = offset := hstands.offsetOf
  have hline : lineOf _ offset = line := hstands.lineOf
  -- As for lists, with one record for each statement.
  by_cases hwhole : s.isWhole = true
  · cases s with
    | whole alias? q isClosed =>
      have hq :
          literalBody? _ _ (offsetOf _ (q.veiled ++ ((if isClosed then [';'] else []) ++ _)))
            = some q.text.toList :=
        hstands.literalBody? rfl
      refine ⟨_, meets_exportAll alias? q isClosed below', ?_⟩
      rw [Option.toList_some, List.flatMap_singleton]
      dsimp only
      rw [hq, hoffset, hline]
      simp [foundIf, isWhole, records]
    | _ => cases hwhole
  · refine ⟨none, meets_none (fun _ => exportAll_of_lead) _ _ ?_, by simp [foundIf, hwhole]⟩
    rw [exportAll_behind s (head?_below_any below'), s.wholeBehind_eq_nil (by simpa using hwhole)]

/-- A declaration is read, and nothing else is read as one. -/
theorem meets_exportDeclaration (s : ExportStatement) (lines : List (Option ExportStatement)) :
    Meets exportDeclaration s.layout.veiled (below (fun s => s.layout.veiled) lines)
      s.declaration? := by
  have hrest := head?_below_any lines
  have hread := exportDeclaration_behind s hrest
  by_cases hdeclared : s.isDeclared = true
  · cases s with
    | declared d =>
      -- The clause is split where the reading ends, in front of the body.
      have hbehind : (ExportStatement.declared d).behind
          = (' ' :: ((if d.isDefault then "default".toList ++ [' '] else [])
            ++ ((if d.isAmbient then "declare".toList ++ [' '] else [])
              ++ (d.keyword.word.toList ++ ' ' :: d.name.chars))))
            ++ d.body.toList := by
        have hassoc : ∀ a b c d e : List Char,
            ' ' :: ((a ++ (b ++ (c ++ ' ' :: (d ++ e)))) ++ [])
              = (' ' :: (a ++ (b ++ (c ++ ' ' :: d)))) ++ e := by simp
        exact hassoc _ _ _ _ _
      refine meets_some (fun _ => exportDeclaration_of_lead) _ _ hbehind ?_
      rw [first?, hread]
      exact first?_declarationBehind d hrest
    | _ => cases hdeclared
  · have hnone : s.declaration? = none := by
      cases s with
      | declared d => exact absurd rfl hdeclared
      | _ => rfl
    rw [hnone]
    refine meets_none (fun _ => exportDeclaration_of_lead) _ _ ?_
    rw [hread, s.declarationBehind_eq_nil (by simpa using hdeclared) (s.head?_closing hrest)]

/-- The same holds of its declarations. -/
theorem declared_script (lines : List (Option ExportStatement)) :
    Statement.declared (script (fun s => s.layout.veiled) lines)
      (script (fun s => s.layout.chars) lines)
      = (placed layout lines).flatMap (foundIf isDeclared 0) := by
  rw [Statement.declared, List.filterMap_eq_flatMap_toList]
  refine flatMap_atWordStarts_script ⟨newline_eq_nil fun _ => exportDeclaration_of_lead,
    fun place _ below' hstands => ?_⟩
  obtain ⟨offset, line, s⟩ := place
  have hoffset : offsetOf _ (s.layout.veiled ++ _) = offset := hstands.offsetOf
  have hline : lineOf _ offset = line := hstands.lineOf
  refine ⟨s.declaration?, meets_exportDeclaration s below', ?_⟩
  -- Only a declaration is found, and gives its one record.
  cases s with
  | declared d =>
    have hname : d.declaration.exportedName?
        = some (if d.isDefault then "default" else d.name.text) := by
      unfold Declared.declaration Declaration.exportedName?
      cases d.isDefault <;> simp [Name.chars]
    rw [declaration?, Option.toList_some, List.flatMap_singleton]
    dsimp only
    rw [hname, hoffset, hline]
    rfl
  | _ => rfl

/-- The offsets of the statements that declare the default export. -/
theorem declaredDefaults_script (lines : List (Option ExportStatement)) :
    declaredDefaults (script (fun s => s.layout.veiled) lines)
      = (placed layout lines).flatMap fun place =>
        if place.stated.declaresDefault then [place.offset] else [] := by
  rw [declaredDefaults, List.filterMap_eq_flatMap_toList]
  refine flatMap_atWordStarts_script ⟨newline_eq_nil fun _ => exportDeclaration_of_lead,
    fun place _ below' hstands => ?_⟩
  obtain ⟨offset, line, s⟩ := place
  have hoffset : offsetOf _ (s.layout.veiled ++ _) = offset := hstands.offsetOf
  refine ⟨s.declaration?, meets_exportDeclaration s below', ?_⟩
  cases s with
  | declared d =>
    rw [declaration?, Option.toList_some, List.flatMap_singleton]
    dsimp only
    rw [hoffset]
    change (if d.isDefault then some offset else none).toList = if d.isDefault then [offset] else []
    cases d.isDefault <;> rfl
  | _ => rfl

/-- The word `default` is read off every statement that has it behind `export`. -/
theorem meets_exportDefault (s : ExportStatement) (lines : List (Option ExportStatement)) :
    Meets exportDefault s.layout.veiled (below (fun s => s.layout.veiled) lines)
      (if s.isMain || s.declaresDefault then some () else none) := by
  have hblank : blanks1 (s.behind ++ below (fun s => s.layout.veiled) lines)
      = [((), s.clause ++ (s.closing ++ below (fun s => s.layout.veiled) lines))] := by
    rw [behind, List.cons_append, List.append_assoc]
    exact blanks1_space (s.head?_clause _)
  -- The word `default` begins the clause, or the reading fails at it.
  by_cases hdefault : (s.isMain || s.declaresDefault) = true
  · obtain ⟨more, hmore⟩ := s.exists_clause_default (by simpa using hdefault)
    have hbehind : s.behind = (' ' :: "default".toList) ++ (' ' :: (more ++ s.closing)) := by
      rw [behind, hmore]
      rfl
    rw [if_pos hdefault]
    have hkeyword : (keyword "default").first?
        (s.clause ++ (s.closing ++ below (fun s => s.layout.veiled) lines))
        = some ((), ' ' :: ((more ++ s.closing) ++ below (fun s => s.layout.veiled) lines)) := by
      rw [hmore, List.append_assoc more]
      rfl
    exact meets_some (fun _ => exportDefault_of_lead) _ _ hbehind
      (first?_bind (first?_of_singleton (text_append "export" _))
        (first?_bind (first?_of_singleton hblank) hkeyword))
  · rw [if_neg hdefault]
    rw [Bool.or_eq_true, not_or, Bool.not_eq_true, Bool.not_eq_true] at hdefault
    refine meets_none (fun _ => exportDefault_of_lead) _ _ ?_
    rw [exportDefault, bind_eq_of_singleton (text_append "export" _), bind_eq_of_singleton hblank,
      s.keyword_default_eq_nil hdefault.1 hdefault.2]

/-- A statement is known to declare the default export by its offset, since no other one stands
    there. -/
theorem contains_declaredDefaults {lines : List (Option ExportStatement)}
    {place : Place ExportStatement} (hplace : place ∈ placed layout lines) :
    ((placed layout lines).flatMap fun place =>
      if place.stated.declaresDefault then [place.offset] else []).contains place.offset
        = place.stated.declaresDefault := by
  rw [Bool.eq_iff_iff, List.contains_iff_mem, List.mem_flatMap]
  constructor
  · rintro ⟨other, hother, hmem⟩
    split at hmem
    · next hdeclares => rwa [eq_of_offset_eq layout hplace hother (List.mem_singleton.1 hmem)]
    · cases hmem
  · intro hdeclares
    exact ⟨place, hplace, by simp [hdeclares]⟩

/-- The same holds of its default exports that declare nothing. -/
theorem defaulted_script (lines : List (Option ExportStatement)) :
    defaulted (script (fun s => s.layout.veiled) lines) (script (fun s => s.layout.chars) lines)
      = (placed layout lines).flatMap (foundIf isMain 1) := by
  rw [defaulted, declaredDefaults_script, List.filterMap_eq_flatMap_toList]
  refine flatMap_atWordStarts_script ⟨newline_eq_nil fun _ => exportDefault_of_lead,
    fun place hplace below' hstands => ?_⟩
  have hknown := contains_declaredDefaults hplace
  obtain ⟨offset, line, s⟩ := place
  have hoffset : offsetOf _ (s.layout.veiled ++ _) = offset := hstands.offsetOf
  have hline : lineOf _ offset = line := hstands.lineOf
  refine ⟨_, meets_exportDefault s below', ?_⟩
  cases s with
  | main n isClosed =>
    have hmain : ((main n isClosed).isMain || (main n isClosed).declaresDefault) = true := rfl
    rw [if_pos hmain, Option.toList_some, List.flatMap_singleton]
    dsimp only
    rw [hoffset, hline, hknown]
    rfl
  -- A declared default is found again here, but its offset is known.
  | declared d =>
    change ((if d.isDefault then some () else none).toList.flatMap _) = []
    cases hdefault : d.isDefault with
    | false => rfl
    | true =>
      have hdeclares : (declared d).declaresDefault = true := hdefault
      rw [if_pos rfl, Option.toList_some, List.flatMap_singleton]
      dsimp only
      rw [hoffset, hknown, if_pos hdeclares, Option.toList_none]
  | _ => rfl

/-- What is found of a statement by the patterns, in the order in which they are tried. -/
def foundsByForm : List (Place ExportStatement → List Found) :=
  [foundIf isList 0, foundIf isWhole 0, foundIf isDeclared 0, foundIf isMain 1]

/-- One of the patterns finds what a statement stands for, and the others find nothing. -/
theorem flatMap_foundsByForm (place : Place ExportStatement) :
    foundsByForm.flatMap (· place)
      = (records place).map fun item =>
        ⟨place.offset, if place.stated.isMain then 1 else 0, item⟩ := by
  simp only [foundsByForm, List.flatMap_cons, List.flatMap_nil, List.append_nil, foundIf]
  obtain ⟨offset, line, s⟩ := place
  cases s <;> simp [isList, isWhole, isDeclared, isMain]

/-- All exports that are found, form by form. -/
theorem foundExports_script (lines : List (Option ExportStatement)) :
    foundExports (script (fun s => s.layout.veiled) lines) (script (fun s => s.layout.chars) lines)
      = foundsByForm.flatMap fun out => (placed layout lines).flatMap out := by
  rw [foundExports, listed_script, passedOn_script, declared_script, defaulted_script]
  simp [foundsByForm]

end ExportStatement

/-! ### Order and names -/

/-- Exports are sorted by offset, and by rank where the offsets agree. -/
theorem Found.before_iff {a b : Found} :
    a.before b = true ↔ a.offset < b.offset ∨ a.offset = b.offset ∧ a.rank ≤ b.rank := by
  simp [Found.before]

/-- The order of exports is transitive. -/
theorem Found.before_trans {a b c : Found} (hab : a.before b = true) (hbc : b.before c = true) :
    a.before c = true := by
  rw [Found.before_iff] at *
  omega

/-- Of two exports one comes first, if only by a tie. -/
theorem Found.before_total (a b : Found) : (a.before b || b.before a) = true := by
  rw [Bool.or_eq_true, Found.before_iff, Found.before_iff]
  omega

/-- Of several exports of one name the first one stays. -/
theorem firstOfEachName_eq (seen : List String) (es : List Export) :
    firstOfEachName seen es
      = (es.filter fun e => decide (e.name ∉ seen)).eraseDupsBy fun a b => a.name == b.name := by
  induction es generalizing seen with
  | nil => rfl
  | cons e es ih =>
    rw [firstOfEachName]
    split
    · next hseen => rw [ih, List.filter_cons_of_neg (by simpa using hseen)]
    · next hseen =>
      rw [ih, List.filter_cons_of_pos (by simpa using hseen), List.eraseDupsBy_cons,
        List.filter_filter]
      simp [not_or]

/-- What is found in a script, in the order of its lines. -/
theorem mergeSort_foundExports_script (lines : List (Option ExportStatement)) :
    (foundExports (script (fun s => s.layout.veiled) lines)
        (script (fun s => s.layout.chars) lines)).mergeSort Found.before
      = (placed ExportStatement.layout lines).flatMap fun place =>
        ExportStatement.foundsByForm.flatMap (· place) := by
  rw [ExportStatement.foundExports_script]
  refine mergeSort_flatMap ?_ Found.before_total ?_ ?_
  · exact fun _ _ _ => Found.before_trans
  · intro place _
    rw [ExportStatement.flatMap_foundsByForm, List.pairwise_map]
    exact List.pairwise_of_forall fun _ _ => Found.before_iff.2 (.inr ⟨rfl, Nat.le_refl _⟩)
  · -- The exports of different places differ in their offsets.
    refine (pairwise_placedFrom ExportStatement.layout 0 1 lines).imp fun {one other} hlt => ?_
    simp only [ExportStatement.flatMap_foundsByForm, List.mem_map]
    rintro a ⟨_, _, rfl⟩ b ⟨_, _, rfl⟩
    rw [← Bool.not_eq_true, Found.before_iff, Found.before_iff]
    exact ⟨.inl hlt, by dsimp only; omega⟩

/-- **The exports of a script** are those of its statements in their order, the first one of each
    name. -/
theorem exports_script (lines : List (Option ExportStatement)) :
    exports (mask .literals (script (fun s => s.layout.chars) lines))
      (script (fun s => s.layout.chars) lines)
      = ((placed ExportStatement.layout lines).flatMap ExportStatement.records).eraseDupsBy
          fun a b => a.name == b.name := by
  rw [mask_script, exports, mergeSort_foundExports_script, firstOfEachName_eq]
  simp [ExportStatement.flatMap_foundsByForm, List.map_flatMap, Function.comp_def]

namespace Sample

/-- A constant with a name that ends in `$export`. -/
def dollarConstant : Declared where
  isDefault := false
  isAmbient := false
  keyword := .constDecl
  name := ⟨⟨"$export", by decide, by decide⟩, by decide⟩
  body := " = 1"
  isApart := by decide
  isCode := by decide
  noExport := by decide +kernel
  noLead := by decide +kernel

/-- An empty line, and the declaration of this constant. -/
def dollarLines : List (Option ExportStatement) :=
  [none, some (.declared dollarConstant)]

example : script (fun s => s.layout.chars) dollarLines = "\nexport const $export = 1".toList ∧
    (placed ExportStatement.layout dollarLines).flatMap ExportStatement.records
      = [⟨"$export", .variable, 2, false, none⟩] := by
  decide +kernel

/-- A class with a name that ends in `$export`. -/
def dollarClass : List Char :=
  "export class $export \x7b x \x7d".toList

/-- **A name is taken for a statement.** A word may begin behind `$`, and so the end of the name and
    the body are read as an export list, although the name is free and the body is free of the word
    `export`. -/
theorem exports_dollarClass :
    isReserved "$export".toList = false ∧
    (keyword "export").atWordStarts " \x7b x \x7d".toList = [] ∧
      exports (mask .literals dollarClass) dollarClass
        = [⟨"$export", .classDecl, 1, false, none⟩, ⟨"x", .unknown, 1, false, none⟩] := by
  have hfound : foundExports (mask .literals dollarClass) dollarClass
      = [⟨14, 0, ⟨"x", .unknown, 1, false, none⟩⟩,
        ⟨0, 0, ⟨"$export", .classDecl, 1, false, none⟩⟩] := by
    decide +kernel
  refine ⟨by decide, by decide +kernel, ?_⟩
  rw [exports, hfound]
  simp [List.mergeSort, List.MergeSort.Internal.splitInTwo, Found.before, firstOfEachName]

end Sample

end BlastRadius.Statement
