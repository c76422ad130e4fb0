import BlastRadius.Proofs.Canonical

namespace BlastRadius

/-!
# Names and extensions at the end of a path

What is put at the end of a path, or in place of its extension, is put at the end of its spelling.
Paths that are the same may be spelled differently there.

* `Path.IdleTail` — separators and dots at the end of a spelling, which say nothing.
* `exists_spelling` — a path with a file name is spelled with that name, up to a tail that says
  nothing.
* `components_renameExtension`, `components_withExtension` — the components of a path with another
  extension.
* `Path.EndsAlike` — paths that are the same and stay so when something is put at their end.
-/

open Text Component

namespace Path

/-! ### The end of a spelling -/

/-- Separators and dots at the end of a spelling, which say nothing. -/
inductive IdleTail : List Char → Prop where
  | nil : IdleTail []
  | separator {tail : List Char} (h : IdleTail tail) : IdleTail ('/' :: tail)
  | dot {tail : List Char} (h : IdleTail tail) : IdleTail ('/' :: '.' :: tail)

/-- An idle tail says no component. -/
theorem IdleTail.ofText_append {tail : List Char} (h : IdleTail tail) {s : List Char}
    (hs : s ≠ []) : ofText (s ++ tail) = ofText s := by
  induction h generalizing s with
  | nil => rw [List.append_nil]
  | @separator tail _ ih =>
    rw [← List.singleton_append, ← List.append_assoc, ih (by simp), ofText_concat_separator hs]
  | @dot tail _ ih =>
    have hsplit : s ++ '/' :: '.' :: tail = s ++ ['/', '.'] ++ tail := by simp
    have hdot : (segments ['.']).filterMap ofSegment? = [] := by decide
    rw [hsplit, ih (by simp), ofText_append_separator, hdot, List.append_nil,
      ofText_concat_separator hs]

/-- The front of an idle tail is idle. -/
theorem IdleTail.take {tail : List Char} (h : IdleTail tail) (n : Nat) :
    IdleTail (tail.take n) := by
  induction h generalizing n with
  | nil =>
    rw [List.take_nil]
    exact .nil
  | separator _ ih =>
    rcases n with _ | n
    · exact .nil
    · exact .separator (ih n)
  | dot _ ih =>
    rcases n with _ | _ | n
    · exact .nil
    · exact .separator .nil
    · exact .dot (ih n)

/-- An idle tail ends with an idle segment. -/
theorem IdleTail.exists_last {tail : List Char} (h : IdleTail tail) (hne : tail ≠ []) :
    ∃ front last, tail = front ++ '/' :: last ∧ isIdle last = true ∧ '/' ∉ last := by
  induction h with
  | nil => exact absurd rfl hne
  | @separator tail _ ih =>
    by_cases htail : tail = []
    · exact ⟨[], [], by rw [htail]; rfl, rfl, by simp⟩
    · obtain ⟨front, last, rfl, hlast⟩ := ih htail
      exact ⟨'/' :: front, last, rfl, hlast⟩
  | @dot tail _ ih =>
    by_cases htail : tail = []
    · exact ⟨[], ['.'], by rw [htail]; rfl, rfl, by simp⟩
    · obtain ⟨front, last, rfl, hlast⟩ := ih htail
      exact ⟨'/' :: '.' :: front, last, rfl, hlast⟩

/-- Segments that say nothing make such a tail. -/
theorem idleTail_flatMap {idles : List (List Char)} (h : ∀ segment ∈ idles, isIdle segment = true) :
    IdleTail (idles.flatMap ('/' :: ·)) := by
  induction idles with
  | nil => exact .nil
  | cons idle idles ih =>
    have hrest := ih fun segment hmem => h segment (List.mem_cons_of_mem idle hmem)
    have hidle := h idle List.mem_cons_self
    rw [isIdle, Bool.or_eq_true, List.isEmpty_iff, beq_iff_eq] at hidle
    rcases hidle with rfl | rfl
    · exact .separator hrest
    · exact .dot hrest

/-- Segments are joined at the end each behind a separator. -/
theorem joined_append {segs : List (List Char)} (hne : segs ≠ []) (more : List (List Char)) :
    joined (segs ++ more) = joined segs ++ more.flatMap ('/' :: ·) := by
  induction more generalizing segs with
  | nil => simp
  | cons segment more ih =>
    rw [← List.singleton_append, ← List.append_assoc, ih (by simp), joined_append_singleton hne,
      List.append_assoc, List.flatMap_append]
    simp

/-- The last of some segments stands behind all that the others spell. -/
theorem exists_joined_concat (init : List (List Char)) :
    ∃ front, (front = [] ∧ init = [] ∨ front.getLast? = some '/') ∧
      ∀ segment, joined (init ++ [segment]) = front ++ segment := by
  by_cases hinit : init = []
  · subst hinit
    exact ⟨[], Or.inl ⟨rfl, rfl⟩, fun segment => rfl⟩
  · refine ⟨joined init ++ ['/'], Or.inr (by simp), fun segment => ?_⟩
    rw [joined_append_singleton hinit, List.append_assoc]
    rfl

/-- A last segment that says something. -/
theorem ofText_append_segment {front segment : List Char}
    (hfront : front = [] ∨ front.getLast? = some '/') (hsep : '/' ∉ segment) {c : Component}
    (hc : ofSegment? segment = some c) : ofText (front ++ segment) = ofText front ++ [c] := by
  have hsegs := segments_of_separator_not_mem hsep
  rcases hfront with rfl | hlast
  · have hdot : segment ≠ ['.'] := by
      rintro rfl
      cases hc
    have hhead : segment.head? ≠ some '/' := fun h => hsep (List.mem_of_head? h)
    rw [List.nil_append, ofText_of_relative hhead hsegs, if_neg hdot, hc]
    rfl
  · obtain ⟨front, rfl⟩ := List.getLast?_eq_some_iff.1 hlast
    rw [List.append_assoc, List.singleton_append, ofText_append_separator, hsegs,
      List.filterMap_cons, hc]
    rfl

/-! ### The two parts of a spelling -/

/-- What the first part of a spelling says. -/
def Cut.start (c : Cut) : List Component :=
  if c.front = ['/'] then [.root] else if c.front = ['.'] then [.here] else []

/-- Cutting a path loses nothing. -/
theorem text_cut (p : Path) : p.cut.text = p.chars := by
  unfold cut
  split
  · next s hs => rw [Cut.text, joined_segments, hs]; rfl
  · next s hs =>
    split
    · rw [hs]; rfl
    · rw [Cut.text, joined_segments, hs]; rfl
    · rw [Cut.text, joined_segments]; rfl
  · rw [Cut.text, joined_segments]; rfl

/-- The first part is the root, or nothing, or a dot with a separator behind it. -/
theorem front_cut (p : Path) :
    p.cut.front = ['/'] ∨ p.cut.front = [] ∨
    p.cut.front = ['.'] ∧ ∀ segment ∈ p.cut.segments.head?, segment = [] := by
  unfold cut
  split
  · exact Or.inl rfl
  · split
    · exact Or.inr (Or.inr ⟨rfl, by simp⟩)
    · refine Or.inr (Or.inr ⟨rfl, ?_⟩)
      rw [segments_cons_separator]
      simp
    · exact Or.inr (Or.inl rfl)
  · exact Or.inr (Or.inl rfl)

/-- A text that begins neither with a separator nor with a dot alone. -/
theorem ofText_of_plain {s : List Char} (hs : s.head? ≠ some '/')
    (hdot : (segments s).head? ≠ some ['.']) : ofText s = (segments s).filterMap ofSegment? := by
  obtain ⟨first, segs, hsegs⟩ := exists_segments_eq_cons s
  rw [hsegs, List.head?_cons] at hdot
  have hfirst : first ≠ ['.'] := fun h => hdot (by rw [h])
  rw [ofText_of_relative hs hsegs, if_neg hfirst, hsegs, List.filterMap_cons]
  cases ofSegment? first with
  | none => rfl
  | some c => rfl

/-- A character that is no separator begins the first segment. -/
theorem head?_segments_cons {c : Char} (hc : c ≠ '/') (s : List Char) :
    ∃ segment, (segments (c :: s)).head? = some (c :: segment) ∧
      (segments s).head? = some segment := by
  obtain ⟨segment, segs, hsegs⟩ := exists_segments_eq_cons s
  exact ⟨segment, by rw [segments_cons hc hsegs]; rfl, by rw [hsegs]; rfl⟩

/-- The components are the start of the cut, and what its segments say. -/
theorem components_cut (p : Path) :
    p.components = p.cut.start ++ p.cut.segments.filterMap ofSegment? := by
  rw [components_eq_ofText]
  unfold cut
  split
  · next s hs =>
    rw [hs, ofText_separator]
    rfl
  · next s hs =>
    split
    · rw [hs]
      rfl
    · -- The path begins with a dot and a separator.
      next t =>
      have hsegs : segments ('.' :: '/' :: t) = ['.'] :: segments t := segments_append ['.'] t
      rw [hs, ofText_of_relative (by simp) hsegs, if_pos rfl, segments_cons_separator]
      rfl
    · -- The dot begins a longer first segment, such as a hidden name or a step up.
      next hnil hsep =>
      refine (ofText_of_plain ?_ ?_).trans rfl
      · simp [hs]
      · cases s with
        | nil => exact absurd rfl hnil
        | cons c s =>
          have hc : c ≠ '/' := fun h => hsep s (by rw [h])
          obtain ⟨segment, hsegment, hrest⟩ := head?_segments_cons (by decide : '.' ≠ '/') (c :: s)
          obtain ⟨rest, hfirst, -⟩ := head?_segments_cons hc s
          rw [hfirst, Option.some.injEq] at hrest
          rw [hs, hsegment, ← hrest]
          simp
  · next hsep hdot =>
    refine (ofText_of_plain ?_ ?_).trans rfl
    · cases hs : p.chars with
      | nil => simp
      | cons c s => simpa using fun h : c = '/' => hsep s (by rw [hs, h])
    · cases hs : p.chars with
      | nil => decide
      | cons c s =>
        have hc : c ≠ '/' := fun h => hsep s (by rw [hs, h])
        obtain ⟨segment, hsegment, -⟩ := head?_segments_cons hc s
        rw [hsegment]
        simpa using fun h : c = '.' => absurd (by rw [hs, h]) (hdot s)

/-! ### File names -/

/-- Trimming takes idle segments from the end. -/
theorem exists_trimmed (segs : List (List Char)) :
    ∃ idles, (∀ segment ∈ idles, isIdle segment = true) ∧ segs = trimSegments segs ++ idles := by
  refine ⟨(segs.reverse.takeWhile isIdle).reverse, fun segment hmem => ?_, ?_⟩
  · exact List.all_eq_true.1 List.all_takeWhile segment (List.mem_reverse.1 hmem)
  · rw [trimSegments, ← List.reverse_append, List.takeWhile_append_dropWhile, List.reverse_reverse]

/-- Idle segments say nothing. -/
theorem filterMap_idle {idles : List (List Char)} (h : ∀ segment ∈ idles, isIdle segment = true) :
    idles.filterMap ofSegment? = [] := by
  rw [List.filterMap_eq_nil_iff]
  intro segment hmem
  rw [ofSegment?, if_pos (h segment hmem)]

/-- The last of the segments that are not cut off says the last component. -/
theorem trimSegments_eq_concat {segs : List (List Char)} {c : Component}
    (h : (segs.filterMap ofSegment?).getLast? = some c) :
    ∃ init segment, trimSegments segs = init ++ [segment] ∧ ofSegment? segment = some c := by
  obtain ⟨idles, hidles, hsegs⟩ := exists_trimmed segs
  rw [hsegs, List.filterMap_append, filterMap_idle hidles, List.append_nil] at h
  rcases List.eq_nil_or_concat' (trimSegments segs) with hnil | ⟨init, segment, htrim⟩
  · rw [hnil] at h
    cases h
  · refine ⟨init, segment, htrim, ?_⟩
    -- Trimming stops at a segment that is not idle, and such a segment says something.
    have hbusy : isIdle segment = false := by
      have hhead : (segs.reverse.dropWhile isIdle).head? = some segment := by
        rw [← List.reverse_reverse (segs.reverse.dropWhile isIdle), ← trimSegments, htrim]
        simp
      have hfirst := List.head?_dropWhile_not isIdle segs.reverse
      rwa [hhead] at hfirst
    obtain ⟨said, hsaid⟩ := exists_ofSegment? hbusy
    rw [htrim, List.filterMap_append, List.filterMap_cons, hsaid] at h
    simpa [hsaid] using h

/-- A segment that says a name is that name. -/
theorem ofSegment?_eq_name {segment : List Char} {text : String}
    (h : ofSegment? segment = some (.name text)) : segment = text.toList := by
  unfold ofSegment? at h
  split at h
  · cases h
  · split at h
    · cases h
    · cases h
      exact String.toList_ofList.symm

/-- The names in a path are proper ones. -/
theorem properName_of_mem_components {p : Path} {text : String} (h : .name text ∈ p.components) :
    ProperName text := by
  rw [components_eq_ofText] at h
  rcases ofText_cases p.chars with ⟨t, -, heq⟩ | ⟨segs, hsegs, heq⟩ | heq
  · rw [heq, List.mem_cons] at h
    exact inner_of_mem_filterMap (h.resolve_left (by simp))
  · rw [heq, List.mem_cons] at h
    have hmem : .name text ∈ (segments p.chars).filterMap ofSegment? := by
      rw [hsegs]
      exact h.resolve_left (by simp)
    exact inner_of_mem_filterMap hmem
  · rw [heq] at h
    exact inner_of_mem_filterMap h

/-- A file name is the last component. -/
theorem getLast?_of_fileName? {p : Path} {file : String} (h : p.fileName? = some file) :
    p.components.getLast? = some (.name file) := by
  unfold fileName? at h
  split at h
  · next text htext => rw [htext, Option.some.inj h]
  · cases h

/-- A name for the last component is the file name. -/
theorem fileName?_of_getLast? {p : Path} {file : String}
    (h : p.components.getLast? = some (.name file)) : p.fileName? = some file := by
  rw [fileName?, h]

/-- A path with a file name is spelled with that name, behind a separator if there is anything in
    front of it, and up to a tail that says nothing. With another extension it is spelled alike, but
    without the tail. -/
theorem exists_spelling {p : Path} {file : String} (h : p.fileName? = some file) :
    ∃ front tail, (front = [] ∨ front.getLast? = some '/') ∧ IdleTail tail ∧ ProperName file ∧
      p.chars = front ++ file.toList ++ tail ∧
      ∀ ext : String, (p.renameExtension ext).chars =
        front ++ ((splitExtension file.toList).1 ++ '.' :: ext.toList) := by
  have hlast := getLast?_of_fileName? h
  have hproper : ProperName file := properName_of_mem_components (List.mem_of_getLast? hlast)
  -- The first part of the spelling says no name, so the name is said by a segment.
  have hsaid : (p.cut.segments.filterMap ofSegment?).getLast? = some (.name file) := by
    rw [components_cut] at hlast
    rcases List.eq_nil_or_concat' (p.cut.segments.filterMap ofSegment?) with hnil | ⟨front, c, hc⟩
    · rw [hnil, List.append_nil, Cut.start] at hlast
      split at hlast
      · cases hlast
      · split at hlast <;> cases hlast
    · rw [hc, ← List.append_assoc, List.getLast?_concat] at hlast
      rw [hc, List.getLast?_concat, hlast]
  obtain ⟨init, segment, htrim, hsegment⟩ := trimSegments_eq_concat hsaid
  obtain ⟨idles, hidles, hsegs⟩ := exists_trimmed p.cut.segments
  obtain ⟨front, hfront, hjoined⟩ := exists_joined_concat init
  obtain rfl := ofSegment?_eq_name hsegment
  refine ⟨p.cut.front ++ front, idles.flatMap ('/' :: ·), ?_, idleTail_flatMap hidles, hproper,
    ?_, fun ext => ?_⟩
  · rcases hfront with ⟨rfl, rfl⟩ | hfront
    · rw [List.append_nil]
      rcases front_cut p with hroot | hnone | ⟨-, hdot⟩
      · exact Or.inr (by rw [hroot]; rfl)
      · exact Or.inl hnone
      · -- Behind a dot alone the name is not the first segment.
        have hfile := hdot file.toList (by rw [hsegs, htrim]; rfl)
        exact absurd hfile (properName_ne_nil hproper)
    · exact Or.inr (by rw [List.getLast?_append, hfront]; rfl)
  · rw [← text_cut, Cut.text, hsegs, htrim, joined_append (by simp), hjoined]
    simp only [List.append_assoc]
  · unfold renameExtension
    rw [h]
    dsimp only
    rw [chars_ofChars, Cut.text, htrim, List.dropLast_concat, hjoined, List.append_assoc]

/-! ### Extensions -/

/-- A file name is split at its last dot. -/
theorem splitExtension_concat {stem last : List Char} (hstem : stem ≠ []) (hlast : '.' ∉ last) :
    splitExtension (stem ++ '.' :: last) = (stem, some last) := by
  -- Seen from the end, the extension reaches up to the first dot.
  have htake : (stem ++ '.' :: last).reverse.takeWhile (· != '.') = last.reverse := by
    have hplain : ∀ c ∈ last.reverse, (c != '.') = true := by
      intro c hc
      have hne : c ≠ '.' := by
        rintro rfl
        exact hlast (List.mem_reverse.1 hc)
      simpa using hne
    rw [List.reverse_append, List.reverse_cons, List.append_assoc,
      List.takeWhile_append_of_pos hplain]
    simp
  have hdrop : (stem ++ '.' :: last).reverse.drop last.reverse.length = '.' :: stem.reverse := by
    rw [List.reverse_append, List.reverse_cons, List.append_assoc, List.drop_left]
    rfl
  unfold splitExtension
  dsimp only
  rw [htake, hdrop]
  split
  · next heq => cases heq
  · next heq =>
    obtain ⟨-, hnil⟩ := List.cons.inj heq
    exact absurd (List.reverse_eq_nil_iff.1 hnil) hstem
  · next heq =>
    obtain ⟨-, rfl⟩ := List.cons.inj heq
    rw [List.reverse_reverse, List.reverse_reverse]

/-- What is split comes from a dot, with something in front of it. -/
theorem eq_concat_of_splitExtension {text stem last : List Char}
    (h : splitExtension text = (stem, some last)) :
    text = stem ++ '.' :: last ∧ stem ≠ [] ∧ '.' ∉ last := by
  have hwhole : text.reverse.takeWhile (· != '.') ++ text.reverse.dropWhile (· != '.')
      = text.reverse :=
    List.takeWhile_append_dropWhile
  have hdrop : text.reverse.drop (text.reverse.takeWhile (· != '.')).length
      = text.reverse.dropWhile (· != '.') :=
    (congrArg (List.drop _) hwhole.symm).trans List.drop_left
  unfold splitExtension at h
  dsimp only at h
  rw [hdrop] at h
  split at h
  · cases h
  · cases h
  · next x behind hbehind heq =>
    obtain ⟨rfl, hlast⟩ := Prod.mk.inj h
    obtain rfl := Option.some.inj hlast
    -- The characters that were taken stop at a dot, so that is what follows them.
    have hx : x = '.' := by
      have hfirst := List.head?_dropWhile_not (· != '.') text.reverse
      rw [heq] at hfirst
      simpa using hfirst
    subst hx
    refine ⟨?_, ?_, ?_⟩
    · rw [heq] at hwhole
      have htext := congrArg List.reverse hwhole
      simpa using htext.symm
    · intro hnil
      exact hbehind (List.reverse_eq_nil_iff.1 hnil)
    · intro hmem
      have hplain := List.all_eq_true.1 List.all_takeWhile _ (List.mem_reverse.1 hmem)
      simp at hplain

/-- An extension that can be put behind a stem. -/
def ProperExtension (ext : String) : Prop :=
  ext.toList ≠ [] ∧ '/' ∉ ext.toList ∧ '.' ∉ ext.toList

instance (ext : String) : Decidable (ProperExtension ext) :=
  inferInstanceAs (Decidable (_ ∧ _ ∧ _))

/-- A stem and what stands behind its dot make a proper name, but for `..` and what has a separator
    in it. -/
theorem properName_concat {stem last : List Char} (hstem : stem ≠ [])
    (hsep : '/' ∉ stem ++ '.' :: last) (hup : ¬(stem = ['.'] ∧ last = [])) :
    ProperName (String.ofList (stem ++ '.' :: last)) := by
  refine ⟨?_, ?_, ?_⟩ <;> rw [String.toList_ofList]
  · obtain ⟨c, stem, rfl⟩ := List.exists_cons_of_ne_nil hstem
    simp [isIdle]
  · intro heq
    apply hup
    obtain ⟨c, stem, rfl⟩ := List.exists_cons_of_ne_nil hstem
    have hlength := congrArg List.length heq
    simp only [List.cons_append, List.length_cons, List.length_append, List.length_nil] at hlength
    obtain rfl : stem = [] := List.length_eq_zero_iff.1 (by omega)
    obtain rfl : last = [] := List.length_eq_zero_iff.1 (by omega)
    simpa using heq
  · exact hsep

/-- A file name behind a directory, with an idle tail, is the last component. -/
theorem components_of_spelling {p : Path} {front tail : List Char} {file : String}
    (hfront : front = [] ∨ front.getLast? = some '/') (htail : IdleTail tail)
    (hfile : ProperName file) (hchars : p.chars = front ++ file.toList ++ tail) :
    p.components = ofText front ++ [.name file] := by
  have hne : front ++ file.toList ≠ [] := by simp [properName_ne_nil hfile]
  have hsegment : ofSegment? file.toList = some (.name file) := ofSegment?_text hfile
  rw [components_eq_ofText, hchars, htail.ofText_append hne,
    ofText_append_segment hfront hfile.2.2 hsegment]

/-- Another extension without separators keeps the file name one segment. -/
theorem separator_notMem_concat {stem last other : List Char} (h : '/' ∉ stem ++ '.' :: last)
    (hother : '/' ∉ other) : '/' ∉ stem ++ '.' :: other := by
  simp only [List.mem_append, List.mem_cons, not_or] at h ⊢
  exact ⟨h.1, by decide, hother⟩

/-- The name of the file with another extension takes the place of its name. -/
theorem components_renameExtension {p : Path} {file : String} (h : p.fileName? = some file)
    {stem last : List Char} (hsplit : splitExtension file.toList = (stem, some last)) {ext : String}
    (hext : ProperExtension ext) : (p.renameExtension ext).components =
      p.components.dropLast ++ [.name (String.ofList (stem ++ '.' :: ext.toList))] := by
  obtain ⟨front, tail, hfront, htail, hfile, hchars, hrenamed⟩ := exists_spelling h
  obtain ⟨htext, hstem, -⟩ := eq_concat_of_splitExtension hsplit
  have hsep : '/' ∉ stem ++ '.' :: ext.toList :=
    separator_notMem_concat (htext ▸ hfile.2.2) hext.2.1
  have hname := properName_concat hstem hsep fun hup => hext.1 hup.2
  have hspelling : (p.renameExtension ext).chars =
      front ++ (String.ofList (stem ++ '.' :: ext.toList)).toList ++ [] := by
    rw [hrenamed ext, hsplit, String.toList_ofList, List.append_nil]
  rw [components_of_spelling hfront .nil hname hspelling,
    components_of_spelling hfront htail hfile hchars, List.dropLast_concat]

/-- Whether the spelling ends with a segment that says nothing. -/
def endsIdle (p : Path) : Bool :=
  (segments p.chars).getLast?.any isIdle

/-- The last segment stands behind the last separator. -/
theorem getLast?_segments_append (s t : List Char) :
    (segments (s ++ '/' :: t)).getLast? = (segments t).getLast? := by
  obtain ⟨segment, segs, hsegs⟩ := exists_segments_eq_cons t
  rw [segments_append, List.getLast?_append_of_ne_nil _ (by simp [hsegs])]

/-- Such a path ends idle exactly where it has a tail. -/
theorem endsIdle_of_spelling {p : Path} {front tail : List Char} {file : String}
    (hfront : front = [] ∨ front.getLast? = some '/') (htail : IdleTail tail)
    (hfile : ProperName file) (hchars : p.chars = front ++ file.toList ++ tail) :
    p.endsIdle = true ↔ tail ≠ [] := by
  unfold endsIdle
  -- Without a tail the last segment is the file name, which is proper.
  by_cases hnil : tail = []
  · subst hnil
    have hsegs := segments_of_separator_not_mem hfile.2.2
    have hlast : (segments p.chars).getLast? = some file.toList := by
      rw [hchars, List.append_nil]
      rcases hfront with rfl | hfront
      · rw [List.nil_append, hsegs]
        rfl
      · obtain ⟨front, rfl⟩ := List.getLast?_eq_some_iff.1 hfront
        rw [List.append_assoc, List.singleton_append, getLast?_segments_append, hsegs]
        rfl
    simp [hlast, hfile.1]
  · obtain ⟨before, last, rfl, hidle, hsep⟩ := htail.exists_last hnil
    have hlast : (segments p.chars).getLast? = some last := by
      rw [hchars, ← List.append_assoc, getLast?_segments_append, segments_of_separator_not_mem hsep]
      rfl
    simp [hlast, hidle]

/-- Renaming the extension changes the last component only. -/
theorem components_renamed_of_spelling {p : Path} {front tail stem last : List Char}
    (hfront : front = [] ∨ front.getLast? = some '/') (htail : IdleTail tail)
    (hfile : ProperName (String.ofList (stem ++ '.' :: last))) (hstem : stem ≠ [])
    (hlast : '.' ∉ last) (hchars : p.chars = front ++ (stem ++ '.' :: last) ++ tail) {ext : String}
    (hext : ProperExtension ext) :
    (p.renameExtension ext).components
      = ofText front ++ [.name (String.ofList (stem ++ '.' :: ext.toList))] := by
  rw [← String.toList_ofList (l := stem ++ '.' :: last)] at hchars
  have hcomponents := components_of_spelling hfront htail hfile hchars
  have hname : p.fileName? = some (String.ofList (stem ++ '.' :: last)) :=
    fileName?_of_getLast? (by rw [hcomponents, List.getLast?_concat])
  have hsplit := splitExtension_concat hstem hlast
  rw [← String.toList_ofList (l := stem ++ '.' :: last)] at hsplit
  rw [components_renameExtension hname hsplit hext, hcomponents, List.dropLast_concat]

/-- A long tail is cut off in part. -/
theorem take_of_long_tail {front last tail : List Char} (h : last.length ≤ tail.length) :
    (front ++ tail).take ((front ++ tail).length - last.length)
      = front ++ tail.take (tail.length - last.length) := by
  have hlength : (front ++ tail).length - last.length
      = front.length + (tail.length - last.length) := by
    rw [List.length_append]
    omega
  rw [hlength, List.take_length_add_append]

/-- A short tail is cut off, and a part of the extension in front of it, but not its dot. -/
theorem take_of_short_tail {front stem last tail : List Char} (h : ¬last.length ≤ tail.length) :
    (front ++ (stem ++ '.' :: last) ++ tail).take
      ((front ++ (stem ++ '.' :: last) ++ tail).length - last.length)
      = front ++ (stem ++ '.' :: last.take tail.length) := by
  have hsplit : front ++ (stem ++ '.' :: last) ++ tail
      = (front ++ (stem ++ ['.'])) ++ (last ++ tail) := by simp
  have hlength : (front ++ (stem ++ '.' :: last) ++ tail).length - last.length =
      (front ++ (stem ++ ['.'])).length + tail.length := by
    simp only [List.length_append, List.length_cons, List.length_nil]
    omega
  rw [hlength, hsplit, List.take_length_add_append, List.take_append_of_le_length (by omega)]
  simp

/-- A path that ends with two dots has no file name, so there is no extension to change. -/
theorem components_renamed_dots {front : List Char}
    (hfront : front = [] ∨ front.getLast? = some '/') (ext : String) :
    ((ofChars (front ++ (['.'] ++ '.' :: []))).renameExtension ext).components
      = ofText front ++ [.up] := by
  have hdots : (ofChars (front ++ (['.'] ++ '.' :: []))).components = ofText front ++ [.up] := by
    rw [components_ofChars]
    exact ofText_append_segment hfront (by decide) rfl
  have hnone : (ofChars (front ++ (['.'] ++ '.' :: []))).fileName? = none := by
    rw [fileName?, hdots, List.getLast?_concat]
  rw [renameExtension, hnone]
  exact hdots

/-- A path with another extension has the name with that extension. Only where its spelling ends
    with a name of the form `..js`, the dots that are left of it say something else. -/
theorem components_withExtension {p : Path} {file : String} (h : p.fileName? = some file)
    {stem last : List Char} (hsplit : splitExtension file.toList = (stem, some last)) {ext : String}
    (hext : ProperExtension ext) : (p.withExtension ext).components = p.components.dropLast ++
      [if stem = ['.'] ∧ p.endsIdle
        = false then .up else .name (String.ofList (stem ++ '.' :: ext.toList))] := by
  obtain ⟨front, tail, hfront, htail, hfile, hchars, -⟩ := exists_spelling h
  obtain ⟨htext, hstem, hlast⟩ := eq_concat_of_splitExtension hsplit
  have hbusy : p.endsIdle = false ↔ tail = [] := by
    rw [← Bool.not_eq_true, endsIdle_of_spelling hfront htail hfile hchars, not_not]
  have hown : p.extension? = some (String.ofList last) := by simp [extension?, h, hsplit]
  have hcomponents := components_of_spelling hfront htail hfile hchars
  rw [hcomponents, List.dropLast_concat, withExtension, hown]
  dsimp only
  rw [htext] at hchars
  rw [String.length_ofList, hchars]
  by_cases hlong : last.length ≤ tail.length
  · have hname : ProperName (String.ofList (stem ++ '.' :: last)) := by
      rwa [← htext, String.ofList_toList]
    rw [take_of_long_tail hlong,
      components_renamed_of_spelling hfront (htail.take _) hname hstem hlast (chars_ofChars _) hext,
      if_neg]
    rintro ⟨rfl, hend⟩
    -- Without a tail the extension is empty, and the name would be `..`.
    have hempty : last = [] := List.length_eq_zero_iff.1 (by simpa [hbusy.1 hend] using hlong)
    exact hfile.2.1 (by rw [htext, hempty]; rfl)
  · rw [take_of_short_tail hlong]
    have hend : p.endsIdle = false ↔ last.take tail.length = [] := by
      rw [hbusy, List.take_eq_nil_iff, List.length_eq_zero_iff]
      refine ⟨Or.inl, fun h => h.resolve_right ?_⟩
      rintro rfl
      simp at hlong
    simp only [hend]
    by_cases hup : stem = ['.'] ∧ last.take tail.length = []
    · -- What is left is `..`, which is no file name.
      rw [if_pos hup, hup.1, hup.2]
      exact components_renamed_dots hfront ext
    · have hclean : '/' ∉ stem ++ '.' :: last := htext ▸ hfile.2.2
      have hsep : '/' ∉ stem ++ '.' :: last.take tail.length :=
        separator_notMem_concat hclean fun hmem => hclean (by simp [List.mem_of_mem_take hmem])
      have hname := properName_concat hstem hsep hup
      rw [if_neg hup, components_renamed_of_spelling hfront .nil hname hstem
        (fun hmem => hlast (List.mem_of_mem_take hmem))
          (by rw [chars_ofChars, List.append_nil]) hext]

/-! ### Paths that end alike -/

/-- Paths that are the same, and that are spelled alike at the end: letter by letter, or at least
    behind some separator. -/
structure EndsAlike (p q : Path) : Prop where
  same : p.Same q
  ending : p = q ∨ ∃ front front' tail, p.chars = front ++ '/' :: tail ∧
    q.chars = front' ++ '/' :: tail

/-- A path ends like itself. -/
theorem EndsAlike.refl (p : Path) : p.EndsAlike p :=
  ⟨.refl p, .inl rfl⟩

section
variable {p q : Path}

/-- Paths that end alike stay the same when something is put at their end. -/
theorem EndsAlike.append (h : p.EndsAlike q) (s : String) : (p.append s).Same (q.append s) := by
  obtain ⟨hsame, rfl | ⟨front, front', tail, hp, hq⟩⟩ := h
  · exact .refl _
  · unfold Same at hsame ⊢
    rw [components_eq_ofText, components_eq_ofText, hp, hq, ofText_append_separator,
      ofText_append_separator front', List.append_cancel_right_eq] at hsame
    have hchars : ∀ r : Path, (r.append s).chars = r.chars ++ s.toList :=
      fun r => String.toList_append
    rw [components_eq_ofText, components_eq_ofText, hchars, hchars, hp, hq, List.append_assoc,
      List.append_assoc, List.cons_append, ofText_append_separator,
      ofText_append_separator front', hsame]

/-- Paths that end alike agree in whether they end idle. -/
theorem EndsAlike.endsIdle_eq (h : p.EndsAlike q) : p.endsIdle = q.endsIdle := by
  obtain ⟨-, rfl | ⟨front, front', tail, hp, hq⟩⟩ := h
  · rfl
  · rw [endsIdle, endsIdle, hp, hq, getLast?_segments_append, getLast?_segments_append]

/-- Paths that end alike have the same extension. -/
theorem EndsAlike.extension?_eq (h : p.EndsAlike q) : p.extension? = q.extension? := by
  have hname : p.fileName? = q.fileName? := by
    rw [fileName?, fileName?, show p.components = _ from h.same]
  rw [extension?, extension?, hname]

/-- Paths that end alike stay the same under another extension. -/
theorem EndsAlike.withExtension (h : p.EndsAlike q) {own : String} (hown : p.extension? = some own)
    {ext : String} (hext : ProperExtension ext) :
    (p.withExtension ext).Same (q.withExtension ext) := by
  have hname : q.fileName? = p.fileName? := by
    rw [fileName?, fileName?, show p.components = _ from h.same]
  obtain ⟨file, hfile, hrest⟩ := Option.bind_eq_some_iff.1 hown
  obtain ⟨last, hlast, -⟩ := Option.bind_eq_some_iff.1 hrest
  have hsplit : splitExtension file.toList = ((splitExtension file.toList).1, some last) :=
    Prod.ext rfl hlast
  unfold Same
  rw [components_withExtension hfile hsplit hext,
    components_withExtension (hname.trans hfile) hsplit hext, h.endsIdle_eq,
    show p.components = _ from h.same]

end

/-! ### Paths seen from paths that are the same -/

/-- Only the empty text says nothing at all. -/
theorem components_eq_nil_iff {p : Path} : p.components = [] ↔ p.chars = [] := by
  rw [components_eq_ofText]
  constructor
  · intro h
    cases hs : p.chars with
    | nil => rfl
    | cons c s =>
      rw [hs] at h
      by_cases hc : c = '/'
      · rw [hc, ofText_separator] at h
        cases h
      · -- The first segment is not empty, so it says something even if it is a dot.
        obtain ⟨segment, segs, hsegs⟩ := exists_segments_eq_cons s
        rw [ofText_of_relative (by simpa using hc) (segments_cons hc hsegs),
          List.append_eq_nil_iff] at h
        have hfirst := h.1
        split at hfirst
        · cases hfirst
        · next hdot =>
          have hbusy : isIdle (c :: segment) = false := by simpa [isIdle] using hdot
          rw [ofSegment?, hbusy] at hfirst
          by_cases hup : c :: segment = ['.', '.'] <;> simp [hup] at hfirst
  · intro h
    rw [h]
    rfl

/-- A path seen from spellings of one path. -/
theorem same_child {p q : Path} (h : p.Same q) (s : String) : (p.child s).Same (q.child s) := by
  unfold child
  by_cases hs : (ofString s).isAbsolute = true
  · rw [join, join, hs]
    exact .refl _
  · have hs : (ofString s).isAbsolute = false := by simpa using hs
    have hnil : p.chars = [] ↔ q.chars = [] := by
      rw [← components_eq_nil_iff, ← components_eq_nil_iff, show p.components = _ from h]
    -- Joining puts no separator behind an empty path, so that case stands apart.
    by_cases hp : p.chars = []
    · have hjoin : ∀ r : Path, r.chars = [] → r.join (ofString s) = ofString s := by
        intro r hr
        simp [join, hr]
      rw [hjoin p hp, hjoin q (hnil.1 hp)]
      exact .refl _
    · unfold Same
      rw [components_join hp hs, components_join (hnil.not.1 hp) hs, show p.components = _ from h]

end Path

end BlastRadius
