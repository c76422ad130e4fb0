import BlastRadius.Proofs.Lines
import BlastRadius.Proofs.ScriptText
import Mathlib.Data.List.Nodup
import Mathlib.Data.List.Perm.Basic

namespace BlastRadius.Statement

/-!
# Statements on lines of their own

A script has a statement on each of its lines, or nothing. A pattern finds at most one thing on a
line, so that what it finds in the script follows from what it finds on each line. What several
patterns find is put into the order of the lines by a stable sort.

* `Layout` — a statement as it is written, with the literal in it.
* `script`, `placed` — the text of some lines, and where the statements stand in it.
* `flatMap_atWordStarts_script` — what a pattern finds in a script, line by line.
* `mergeSort_flatMap` — what several patterns find, in the order of the lines.
-/

open Text Text.Reading Source

/-! ### One line -/

/-- The characters that may stand in a line outside of literals. -/
def isCode (c : Char) : Bool :=
  !(['/', '"', '\'', '\x60', '\n'].contains c)

/-- The characters of clauses are code. -/
theorem all_isCode_of_all_isClauseChar {s : List Char} (h : s.all isClauseChar = true) :
    s.all isCode = true := by
  rw [List.all_eq_true] at h ⊢
  intro c hc
  have hclause := h c hc
  rw [isCode, Bool.not_eq_true', ← Bool.not_eq_true, List.contains_iff_mem]
  intro hmem
  simp only [List.mem_cons, List.not_mem_nil, or_false] at hmem
  rcases hmem with rfl | rfl | rfl | rfl | rfl <;> cases hclause

/-- A statement as it is written: what stands in front of its literal, the literal, and what stands
    behind it. -/
structure Layout where
  front : List Char
  origin? : Option Quoted
  back : List Char
  isCode : (front ++ back).all isCode = true

namespace Layout

variable (layout : Layout)

/-- The text of a statement. -/
def chars : List Char :=
  layout.front ++ ((layout.origin?.map Quoted.chars).getD [] ++ layout.back)

/-- The masked text of a statement. -/
def veiled : List Char :=
  layout.front ++ ((layout.origin?.map Quoted.veiled).getD [] ++ layout.back)

/-- A character of code is bare. -/
theorem isBare_of_isCode {c : Char} (h : Statement.isCode c = true) : IsBare c := by
  rw [Statement.isCode, Bool.not_eq_true', ← Bool.not_eq_true, List.contains_iff_mem] at h
  exact fun hmem => h (List.mem_append_left ['\n'] hmem)

/-- The front of a layout is code. -/
theorem front_all : layout.front.all Statement.isCode = true := by
  have h := layout.isCode
  rw [List.all_append, Bool.and_eq_true] at h
  exact h.1

/-- So is its back. -/
theorem back_all : layout.back.all Statement.isCode = true := by
  have h := layout.isCode
  rw [List.all_append, Bool.and_eq_true] at h
  exact h.2

/-- Masking veils the literal of a layout, and nothing else. -/
theorem mask_chars (s : List Char) :
    mask .literals (layout.chars ++ s) = layout.veiled ++ mask .literals s := by
  have hbare : ∀ word : List Char, word.all Statement.isCode = true → ∀ c ∈ word, IsBare c :=
    fun word hword c hc => isBare_of_isCode (List.all_eq_true.1 hword c hc)
  have horigin : ∀ s, mask .literals ((layout.origin?.map Quoted.chars).getD [] ++ s)
      = (layout.origin?.map Quoted.veiled).getD [] ++ mask .literals s := by
    intro s
    cases layout.origin? with
    | none => rfl
    | some q => exact q.mask_chars s
  rw [chars, veiled, List.append_assoc, List.append_assoc,
    mask_literals_bare (hbare _ layout.front_all), horigin,
    mask_literals_bare (hbare _ layout.back_all), List.append_assoc, List.append_assoc]

/-- Veiling keeps the size. -/
theorem byteSize_veiled : byteSize layout.veiled = byteSize layout.chars := by
  have horigin : byteSize ((layout.origin?.map Quoted.veiled).getD [])
      = byteSize ((layout.origin?.map Quoted.chars).getD []) := by
    cases layout.origin? with
    | none => rfl
    | some q => exact q.byteSize_veiled
  rw [veiled, chars, byteSize_append, byteSize_append, byteSize_append, byteSize_append, horigin]

/-- A statement does not go on in another line. -/
theorem count_newline_chars : layout.chars.count '\n' = 0 := by
  have hcode : ∀ word : List Char, word.all Statement.isCode = true → '\n' ∉ word :=
    fun word hword hmem => absurd (List.all_eq_true.1 hword _ hmem) (by decide)
  rw [List.count_eq_zero, chars, List.mem_append, List.mem_append, not_or, not_or]
  refine ⟨hcode _ layout.front_all, ?_, hcode _ layout.back_all⟩
  cases layout.origin? with
  | none => exact List.not_mem_nil
  | some q =>
    have hmark : '\n' ≠ q.mark := by
      rcases q.isQuote with h | h <;> rw [h] <;> decide
    simp [Quoted.chars, hmark, q.free.2.2]

end Layout

/-! ### Scripts -/

section
variable {S : Type}

/-- The lines that come next, each behind a newline. -/
def below (shown : S → List Char) (lines : List (Option S)) : List Char :=
  lines.flatMap fun line => '\n' :: line.elim [] shown

/-- The text of some lines, some of which are empty. -/
def script (shown : S → List Char) : List (Option S) → List Char
  | [] => []
  | line :: lines => line.elim [] shown ++ below shown lines

/-- A statement, and the offset and the line where it stands. -/
structure Place (S : Type) where
  offset : Nat
  line : Nat
  stated : S

variable (layout : S → Layout)

/-- The statements of some lines, of which the first starts at the given offset and has the given
    number. -/
def placedFrom (offset line : Nat) : List (Option S) → List (Place S)
  | [] => []
  | none :: lines => placedFrom (offset + 1) (line + 1) lines
  | some s :: lines =>
    ⟨offset, line, s⟩ :: placedFrom (offset + byteSize (layout s).chars + 1) (line + 1) lines

/-- The statements of a script with their places. -/
def placed (lines : List (Option S)) : List (Place S) :=
  placedFrom layout 0 1 lines

/-- The first line of a script ends with a line break. -/
theorem script_cons_cons (shown : S → List Char) (line next : Option S) (lines : List (Option S)) :
    script shown (line :: next :: lines)
      = (line.elim [] shown ++ ['\n']) ++ script shown (next :: lines) := by
  simp [script, below]

/-- Veiling keeps the size of a line. -/
theorem byteSize_line (line : Option S) :
    byteSize (line.elim [] fun s => (layout s).veiled)
      = byteSize (line.elim [] fun s => (layout s).chars) := by
  cases line with
  | none => rfl
  | some s => exact (layout s).byteSize_veiled

/-- A line has no line break inside. -/
theorem count_newline_line (line : Option S) :
    (line.elim [] fun s => (layout s).chars).count '\n' = 0 := by
  cases line with
  | none => rfl
  | some s => exact (layout s).count_newline_chars

/-- The next line is placed behind this one. -/
theorem placedFrom_cons (offset number : Nat) (line : Option S) (lines : List (Option S)) :
    placedFrom layout offset number (line :: lines)
      = line.elim [] (fun s => [⟨offset, number, s⟩])
        ++ placedFrom layout (offset + byteSize (line.elim [] fun s => (layout s).chars) + 1)
          (number + 1) lines := by
  cases line with
  | none => rfl
  | some s => rfl

/-- No place lies in front of the start. -/
theorem le_of_mem_placedFrom {offset line : Nat} {lines : List (Option S)} {place : Place S}
    (h : place ∈ placedFrom layout offset line lines) : offset ≤ place.offset := by
  induction lines generalizing offset line with
  | nil => cases h
  | cons l lines ih =>
    cases l with
    | none => exact Nat.le_of_succ_le (ih h)
    | some s =>
      rcases List.mem_cons.1 h with rfl | h
      · exact Nat.le_refl _
      · have hlater := ih h
        omega

/-- Statements stand one behind the other. -/
theorem pairwise_placedFrom (offset line : Nat) (lines : List (Option S)) :
    (placedFrom layout offset line lines).Pairwise (·.offset < ·.offset) := by
  induction lines generalizing offset line with
  | nil => exact .nil
  | cons l lines ih =>
    cases l with
    | none => exact ih _ _
    | some s =>
      refine .cons (fun place hplace => ?_) (ih _ _)
      have hlater := le_of_mem_placedFrom layout hplace
      dsimp only
      omega

/-- No two statements stand at one offset. -/
theorem eq_of_offset_eq {lines : List (Option S)} {one other : Place S}
    (hone : one ∈ placed layout lines) (hother : other ∈ placed layout lines)
    (h : one.offset = other.offset) : one = other := by
  refine List.inj_on_of_nodup_map (f := Place.offset) ?_ hone hother h
  rw [List.Nodup, List.pairwise_map]
  exact (pairwise_placedFrom layout 0 1 lines).imp Nat.ne_of_lt

/-- A masked script has its literals veiled. -/
theorem mask_script (lines : List (Option S)) :
    mask .literals (script (fun s => (layout s).chars) lines)
      = script (fun s => (layout s).veiled) lines := by
  have hline : ∀ (line : Option S) s, mask .literals (line.elim [] (fun s => (layout s).chars) ++ s)
      = line.elim [] (fun s => (layout s).veiled) ++ mask .literals s := by
    intro line s
    cases line with
    | none => rfl
    | some t => exact (layout t).mask_chars s
  have hnewline : ∀ s, mask .literals ('\n' :: s) = '\n' :: mask .literals s :=
    mask_literals_bare (List.forall_mem_singleton.2 (by simp [IsBare]))
  -- Line by line, since nothing is left open at the end of a line.
  have hbelow : ∀ lines, mask .literals (below (fun s => (layout s).chars) lines)
      = below (fun s => (layout s).veiled) lines := by
    intro lines
    induction lines with
    | nil => rfl
    | cons line lines ih =>
      rw [below, List.flatMap_cons, List.cons_append, hnewline, hline]
      exact congrArg (fun s => '\n' :: (_ ++ s)) ih
  cases lines with
  | nil => rfl
  | cons line lines => rw [script, hline, hbelow, script]

/-! ### What a pattern finds -/

/-- A statement stands in a source and, at the same bytes, in its masked text. Behind it the masked
    text goes on with `rest`. -/
structure Stands (masked source : List Char) (place : Place S) (rest : List Char) : Prop where
  masked_eq : ∃ front, masked = front ++ ((layout place.stated).veiled ++ rest) ∧
    byteSize front = place.offset
  source_eq : ∃ front rest, source = front ++ ((layout place.stated).chars ++ rest) ∧
    byteSize front = place.offset ∧ 1 + front.count '\n' = place.line

variable {layout} {masked source rest : List Char} {place : Place S}

/-- A statement stands at the offset of its place. -/
theorem Stands.offsetOf (h : Stands layout masked source place rest) :
    offsetOf masked ((layout place.stated).veiled ++ rest) = place.offset := by
  obtain ⟨front, rfl, hoffset⟩ := h.masked_eq
  rw [offsetOf_append, hoffset]

/-- It stands on the line of its place. -/
theorem Stands.lineOf (h : Stands layout masked source place rest) :
    lineOf source place.offset = place.line := by
  obtain ⟨front, behind, rfl, hoffset, hline⟩ := h.source_eq
  rw [lineOf_eq, ← hoffset, utf8_append, ← length_utf8, List.take_left, count_newline_utf8, hline]

/-- The literal of a statement is read back. -/
theorem Stands.literalBody? (h : Stands layout masked source place rest) {q : Quoted}
    (hq : (layout place.stated).origin? = some q) :
    literalBody? masked source
      (Text.offsetOf masked (q.veiled ++ ((layout place.stated).back ++ rest)))
      = some q.text.toList := by
  obtain ⟨mfront, hmasked, hoffset⟩ := h.masked_eq
  obtain ⟨sfront, behind, hsource, hsize, -⟩ := h.source_eq
  have hmasked' :
      masked = (mfront ++ (layout place.stated).front)
        ++ (q.veiled ++ ((layout place.stated).back ++ rest)) := by
    simp [hmasked, Layout.veiled, hq]
  have hsource' :
      source = (sfront ++ (layout place.stated).front)
        ++ (q.chars ++ ((layout place.stated).back ++ behind)) := by
    simp [hsource, Layout.chars, hq]
  rw [hmasked', hsource', offsetOf_append]
  exact q.literalBody?_veiled (by rw [byteSize_append, byteSize_append, hoffset, hsize]) _ _

section
variable {α β : Type}

/-- A pattern reads nothing from the end of a line on, and what it finds on the lines of the
    statements at `places` is reported as `out`. -/
structure Finds (layout : S → Layout) (masked source : List Char) (places : List (Place S))
    (p : Reading α) (report : List Char × α → List β) (out : Place S → List β) : Prop where
  newline : ∀ s, p ('\n' :: s) = []
  line : ∀ place ∈ places, ∀ lines,
    Stands layout masked source place (below (fun s => (layout s).veiled) lines) → ∃ found,
      Meets p (layout place.stated).veiled (below (fun s => (layout s).veiled) lines) found ∧
      found.toList.flatMap
        (fun a => report ((layout place.stated).veiled ++ below (fun s => (layout s).veiled) lines,
          a)) = out place

variable {p : Reading α} {report : List Char × α → List β} {out : Place S → List β}
  {before : Option Char}
  {mfront sfront : List Char} {places : List (Place S)}

/-- One line of a script: what is found there is reported, and the scan goes on below. -/
theorem Finds.scan_line (h : Finds layout masked source places p report out) (line : Option S)
    (lines : List (Option S)) (hbefore : before.any isWord = false)
    (hmasked : masked = mfront ++ script (fun s => (layout s).veiled) (line :: lines))
    (hsource : source = sfront ++ script (fun s => (layout s).chars) (line :: lines))
    (hsize : byteSize mfront = byteSize sfront)
    (hplaces : placedFrom layout (byteSize sfront) (1 + sfront.count '\n')
      (line :: lines) ⊆ places) :
    (atWordStartsFrom p before 0
        (script (fun s => (layout s).veiled) (line :: lines))).flatMap report
      = (line.elim [] fun s => [⟨byteSize sfront, 1 + sfront.count '\n', s⟩]).flatMap out
        ++ (atWordStartsFrom p (beforeRest before (line.elim [] fun s => (layout s).veiled)) 0
          (below (fun s => (layout s).veiled) lines)).flatMap report := by
  cases line with
  | none => rfl
  | some s =>
    obtain ⟨found, hmeets, hreport⟩ :=
      h.line ⟨byteSize sfront, 1 + sfront.count '\n', s⟩ (hplaces List.mem_cons_self) lines
      ⟨⟨mfront, hmasked, hsize⟩, ⟨sfront, _, hsource, rfl, rfl⟩⟩
    rw [script, Option.elim_some, hmeets.scan hbefore, List.flatMap_append, List.flatMap_map,
      hreport]
    simp

/-- Nothing is found at a line break. -/
theorem Finds.scan_newline (h : Finds layout masked source places p report out)
    (before : Option Char) (s : List Char) :
    atWordStartsFrom p before 0 ('\n' :: s) = atWordStartsFrom p (some '\n') 0 s := by
  rw [atWordStartsFrom, first?, h.newline s]
  simp

/-- The lines of a script, of which the first stands at a given place. -/
theorem Finds.scan_script (h : Finds layout masked source places p report out) (line : Option S)
    (lines : List (Option S)) (hbefore : before.any isWord = false)
    (hmasked : masked = mfront ++ script (fun s => (layout s).veiled) (line :: lines))
    (hsource : source = sfront ++ script (fun s => (layout s).chars) (line :: lines))
    (hsize : byteSize mfront = byteSize sfront)
    (hplaces : placedFrom layout (byteSize sfront) (1 + sfront.count '\n')
      (line :: lines) ⊆ places) :
    (atWordStartsFrom p before 0
        (script (fun s => (layout s).veiled) (line :: lines))).flatMap report
      = (placedFrom layout (byteSize sfront) (1 + sfront.count '\n')
        (line :: lines)).flatMap out := by
  induction lines generalizing line before mfront sfront with
  | nil =>
    rw [h.scan_line line [] hbefore hmasked hsource hsize hplaces, placedFrom_cons,
      List.flatMap_append]
    rfl
  | cons next lines ih =>
    -- Where the next line starts, and its number.
    have hbytes : byteSize (sfront ++ ((line.elim [] fun s => (layout s).chars) ++ ['\n']))
        = byteSize sfront + byteSize (line.elim [] fun s => (layout s).chars) + 1 := by
      rw [byteSize_append, byteSize_append]
      rfl
    have hcount : (sfront ++ ((line.elim [] fun s => (layout s).chars) ++ ['\n'])).count '\n'
        = sfront.count '\n' + 1 := by
      simp [count_newline_line]
    have hmasked' : masked = (mfront ++ ((line.elim [] fun s => (layout s).veiled) ++ ['\n']))
        ++ script (fun s => (layout s).veiled) (next :: lines) := by
      rw [hmasked, script_cons_cons, ← List.append_assoc]
    have hsource' : source = (sfront ++ ((line.elim [] fun s => (layout s).chars) ++ ['\n']))
        ++ script (fun s => (layout s).chars) (next :: lines) := by
      rw [hsource, script_cons_cons, ← List.append_assoc]
    have hnext : (some '\n').any isWord = false := rfl
    have hline := h.scan_line line (next :: lines) hbefore hmasked hsource hsize hplaces
    rw [placedFrom_cons, List.append_subset] at hplaces
    have hbelow :=
      ih next hnext hmasked' hsource' (by simp only [byteSize_append, hsize, byteSize_line])
      (by rw [hbytes, hcount]; exact hplaces.2)
    rw [hbytes, hcount, ← Nat.add_assoc,
      ← h.scan_newline (beforeRest before (line.elim [] fun s => (layout s).veiled))] at hbelow
    rw [hline, placedFrom_cons, List.flatMap_append, ← hbelow]
    rfl

/-- What a pattern finds in a script, line by line. -/
theorem flatMap_atWordStarts_script {lines : List (Option S)}
    (h : Finds layout (script (fun s => (layout s).veiled) lines)
      (script (fun s => (layout s).chars) lines) (placed layout lines) p report out) :
    (p.atWordStarts (script (fun s => (layout s).veiled) lines)).flatMap report
      = (placed layout lines).flatMap out := by
  cases lines with
  | nil => rfl
  | cons line lines =>
    have hwhole : ∀ shown : S → List Char,
        script shown (line :: lines) = [] ++ script shown (line :: lines) :=
      fun _ => rfl
    exact h.scan_script line lines rfl (hwhole _) (hwhole _) rfl (List.Subset.refl _)

end

end

/-! ### Sorting what is found -/

section
variable {β : Type} {le : β → β → Bool}

/-- Whether the order does not tell two elements apart. -/
def ties (le : β → β → Bool) (a b : β) : Bool :=
  le a b && le b a

/-- A sorted list is known from its elements, and from the order of those that tie. -/
theorem eq_of_pairwise_of_ties {l t : List β} (hrefl : ∀ a, le a a = true) (hperm : l.Perm t)
    (hl : l.Pairwise (le · ·)) (ht : t.Pairwise (le · ·))
    (hties : ∀ a ∈ l, l.filter (ties le a) = t.filter (ties le a)) : l = t := by
  induction l generalizing t with
  | nil => exact (List.nil_perm.1 hperm).symm
  | cons a l ih =>
    cases t with
    | nil => exact absurd (List.perm_nil.1 hperm) (List.cons_ne_nil a l)
    | cons b t =>
      rw [List.pairwise_cons] at hl ht
      -- Each head comes before the other one, so they tie, and the first of those that tie with `a`
      -- is both.
      have hab : le a b = true := by
        rcases List.mem_cons.1 (hperm.mem_iff.2 List.mem_cons_self) with rfl | hb
        · exact hrefl b
        · exact hl.1 b hb
      have hba : le b a = true := by
        rcases List.mem_cons.1 (hperm.mem_iff.1 List.mem_cons_self) with rfl | ha
        · exact hrefl a
        · exact ht.1 a ha
      have hheads := hties a List.mem_cons_self
      rw [List.filter_cons_of_pos (by simp [ties, hrefl]),
        List.filter_cons_of_pos (by simp [ties, hab, hba]), List.cons.injEq] at hheads
      obtain ⟨rfl, -⟩ := hheads
      rw [ih hperm.cons_inv hl.2 ht.2]
      intro x hx
      have htails := hties x (List.mem_cons_of_mem a hx)
      rw [List.filter_cons, List.filter_cons] at htails
      split at htails
      · exact (List.cons.injEq _ _ _ _ ▸ htails).2
      · exact htails

variable (htrans : ∀ a b c, le a b = true → le b c = true → le a c = true)
  (htotal : ∀ a b, (le a b || le b a) = true)

include htrans htotal

/-- A stable sort leaves those that tie in their order. -/
theorem filter_ties_mergeSort (a : β) (l : List β) :
    (l.mergeSort le).filter (ties le a) = l.filter (ties le a) := by
  have hsorted : (l.filter (ties le a)).Pairwise (le · ·) := by
    refine List.pairwise_of_forall_mem_list fun x hx y hy => ?_
    have hxa := (List.mem_filter.1 hx).2
    have hya := (List.mem_filter.1 hy).2
    rw [ties, Bool.and_eq_true] at hxa hya
    exact htrans x a y hxa.2 hya.1
  have hsublist :=
    (List.sublist_mergeSort htrans htotal hsorted List.filter_sublist).filter (ties le a)
  rw [List.filter_filter] at hsublist
  simp only [Bool.and_self] at hsublist
  exact (hsublist.eq_of_length ((List.mergeSort_perm l le).filter _).length_eq.symm).symm

/-- What holds of those that tie, in the order in which they stand, holds of them after a stable
    sort. -/
theorem pairwise_mergeSort_of_ties {l : List β} {R : β → β → Prop}
    (h : l.Pairwise fun a b => ties le a b = true → R a b) :
    (l.mergeSort le).Pairwise fun a b => le a b = true ∧ (ties le a b = true → R a b) := by
  refine (List.pairwise_mergeSort htrans htotal l).and
    (List.pairwise_iff_forall_sublist.2 fun {a b} hsublist hties => ?_)
  have haa : ties le a a = true := by simpa [ties] using htotal a a
  have hfiltered := hsublist.filter (ties le a)
  rw [List.filter_cons_of_pos haa, List.filter_cons_of_pos hties, List.filter_nil,
    filter_ties_mergeSort htrans htotal] at hfiltered
  exact List.pairwise_iff_forall_sublist.1 h (hfiltered.trans List.filter_sublist) hties

/-- A stable sort is determined by the order and by what ties. -/
theorem mergeSort_eq {l t : List β} (hperm : l.Perm t) (ht : t.Pairwise (le · ·))
    (hties : ∀ a ∈ t, l.filter (ties le a) = t.filter (ties le a)) : l.mergeSort le = t := by
  have hsorted := (List.mergeSort_perm l le).trans hperm
  refine eq_of_pairwise_of_ties (fun a => by simpa using htotal a a) hsorted
    (List.pairwise_mergeSort htrans htotal l) ht fun a ha => ?_
  rw [filter_ties_mergeSort htrans htotal, hties a (hsorted.mem_iff.1 ha)]

variable {P : Type}

omit htrans htotal in
/-- Several lists of what is found at some places, one behind the other or place by place. -/
theorem flatMap_flatMap_perm (outs : List (P → List β)) (places : List P) :
    (outs.flatMap fun out => places.flatMap out).Perm
      (places.flatMap fun place => outs.flatMap (· place)) := by
  induction outs with
  | nil => simp
  | cons out outs ih =>
    rw [List.flatMap_cons]
    exact (ih.append_left _).trans (List.flatMap_append_perm places out _)

omit htrans htotal in
/-- What ties with something that is found at a place is found there too. -/
theorem filter_ties_flatMap {places : List P} {all out : P → List β} {place : P} {a : β}
    (hplace : place ∈ places) (ha : a ∈ all place) (hout : ∀ place, out place ⊆ all place)
    (hbetween : places.Pairwise fun one other => ∀ a ∈ all one, ∀ b ∈ all other, le a b = true ∧
      le b a = false) :
    (places.flatMap out).filter (ties le a) = (out place).filter (ties le a) := by
  obtain ⟨earlier, later, rfl⟩ := List.append_of_mem hplace
  rw [List.pairwise_append, List.pairwise_cons] at hbetween
  obtain ⟨-, ⟨hlater, -⟩, hearlier⟩ := hbetween
  -- Only what comes from the same place ties.
  have hnone : ∀ others : List P, (∀ other ∈ others, ∀ b ∈ all other, ties le a b = false) →
      (others.flatMap out).filter (ties le a) = [] := by
    intro others hothers
    rw [List.filter_eq_nil_iff]
    intro b hb
    obtain ⟨other, hother, hb⟩ := List.mem_flatMap.1 hb
    simp [hothers other hother b (hout other hb)]
  rw [List.flatMap_append, List.flatMap_cons, List.filter_append, List.filter_append, hnone earlier,
    hnone later, List.nil_append, List.append_nil]
  · intro other hother b hb
    simp [ties, (hlater other hother a ha b hb).2]
  · intro other hother b hb
    simp [ties, (hearlier other hother place List.mem_cons_self b hb a ha).2]

/-- What several patterns find, in the order of the places where they find it. -/
theorem mergeSort_flatMap {outs : List (P → List β)} {places : List P}
    (hwithin : ∀ place ∈ places, (outs.flatMap (· place)).Pairwise (le · ·))
    (hbetween : places.Pairwise fun one other => ∀ a ∈ outs.flatMap (· one),
      ∀ b ∈ outs.flatMap (· other), le a b = true ∧ le b a = false) :
    (outs.flatMap fun out => places.flatMap out).mergeSort le
      = places.flatMap fun place => outs.flatMap (· place) := by
  refine mergeSort_eq htrans htotal (flatMap_flatMap_perm outs places) ?_ ?_
  · rw [List.flatMap_def, List.pairwise_flatten, List.forall_mem_map, List.pairwise_map]
    exact ⟨hwithin, hbetween.imp fun h a ha b hb => (h a ha b hb).1⟩
  · intro a ha
    obtain ⟨place, hplace, ha⟩ := List.mem_flatMap.1 ha
    have hout : ∀ out ∈ outs, ∀ place, out place ⊆ outs.flatMap (· place) :=
      fun out hmem place b hb => List.mem_flatMap.2 ⟨out, hmem, hb⟩
    rw [filter_ties_flatMap hplace ha (fun _ => List.Subset.refl _) hbetween, List.filter_flatMap,
      List.filter_flatMap]
    refine List.flatMap_congr fun out hmem => ?_
    exact filter_ties_flatMap hplace ha (hout out hmem) hbetween

end

end BlastRadius.Statement
