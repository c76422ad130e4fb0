import BlastRadius.Path.Normal
import Mathlib.Data.List.Basic

namespace BlastRadius

/-!
# Spellings and components

What the components of a spelling say about it, and which lists of components can be spelled and
read back.

* `joined_segments`, `segments_joined` — cutting a text at separators and putting it together again.
* `Component.Inner` — the components that can stand behind the first one.
* `ofText_spell_root`, `ofText_joined` — reading back the plainest spelling.
* `ofText_append_separator` — what stands behind a separator is read for itself.
* `Path.mem_chars_congr` — spellings of one path have the same characters.
-/

open Text

namespace Component

/-! ### Segments -/

/-- A separator ends an empty segment. -/
theorem segments_cons_separator (s : List Char) : segments ('/' :: s) = [] :: segments s := by
  simp [segments, pieces]

/-- A character that is no separator belongs to the first segment. -/
theorem segments_cons {c : Char} (hc : c ≠ '/') {s segment : List Char} {segs : List (List Char)}
    (h : segments s = segment :: segs) : segments (c :: s) = (c :: segment) :: segs := by
  have hsep : (c == '/') = false := by simpa using hc
  unfold segments at h ⊢
  rw [pieces, hsep, h]
  rfl

/-- Every text has a first segment. -/
theorem exists_segments_eq_cons (s : List Char) : ∃ segment segs, segments s = segment :: segs := by
  have hne := pieces_ne_nil (· == '/') s
  exact List.exists_cons_of_ne_nil hne

/-- Two segments have a separator between them. -/
theorem joined_cons_cons (segment next : List Char) (segs : List (List Char)) :
    joined (segment :: next :: segs) = segment ++ '/' :: joined (next :: segs) := rfl

/-- The first character of the first segment comes first. -/
theorem joined_char_cons (c : Char) (segment : List Char) (segs : List (List Char)) :
    joined ((c :: segment) :: segs) = c :: joined (segment :: segs) := by
  cases segs with
  | nil => rfl
  | cons next segs => rfl

/-- A text is its segments with separators between them. -/
theorem joined_segments (s : List Char) : joined (segments s) = s := by
  induction s with
  | nil => rfl
  | cons c s ih =>
    obtain ⟨segment, segs, hsegs⟩ := exists_segments_eq_cons s
    by_cases hc : c = '/'
    · subst hc
      rw [segments_cons_separator, hsegs, joined_cons_cons, ← hsegs, ih]
      rfl
    · rw [segments_cons hc hsegs, joined_char_cons, ← hsegs, ih]

/-- No separator is left in a segment. -/
theorem separator_not_mem_segments {s segment : List Char} (h : segment ∈ segments s) :
    '/' ∉ segment := by
  induction s generalizing segment with
  | nil =>
    obtain rfl := List.mem_singleton.1 h
    exact List.not_mem_nil
  | cons c s ih =>
    obtain ⟨first, segs, hsegs⟩ := exists_segments_eq_cons s
    by_cases hc : c = '/'
    · subst hc
      rw [segments_cons_separator, List.mem_cons] at h
      rcases h with rfl | h
      · exact List.not_mem_nil
      · exact ih h
    · rw [segments_cons hc hsegs, List.mem_cons] at h
      rcases h with rfl | h
      · -- The first segment only grew by a character that is no separator.
        have hfirst : '/' ∉ first := ih (by rw [hsegs]; exact List.mem_cons_self)
        rw [List.mem_cons, not_or]
        exact ⟨fun heq => hc heq.symm, hfirst⟩
      · exact ih (by rw [hsegs]; exact List.mem_cons_of_mem _ h)

/-- A text without separators is one segment. -/
theorem segments_of_separator_not_mem {s : List Char} (h : '/' ∉ s) : segments s = [s] := by
  induction s with
  | nil => rfl
  | cons c s ih =>
    rw [List.mem_cons, not_or] at h
    exact segments_cons (fun heq => h.1 heq.symm) (ih h.2)

/-- A separator ends a segment. -/
theorem segments_append (s t : List Char) :
    segments (s ++ '/' :: t) = segments s ++ segments t := by
  induction s with
  | nil => exact segments_cons_separator t
  | cons c s ih =>
    -- The character either ends an empty segment or joins the first one, on both sides alike.
    obtain ⟨segment, segs, hsegs⟩ := exists_segments_eq_cons s
    rw [hsegs, List.cons_append] at ih
    by_cases hc : c = '/'
    · subst hc
      rw [List.cons_append, segments_cons_separator, segments_cons_separator, ih, hsegs]
      rfl
    · rw [List.cons_append, segments_cons hc ih, segments_cons hc hsegs]
      rfl

/-- Segments without separators in them are read back. -/
theorem segments_joined {segs : List (List Char)} (hne : segs ≠ [])
    (h : ∀ segment ∈ segs, '/' ∉ segment) : segments (joined segs) = segs := by
  induction segs with
  | nil => exact absurd rfl hne
  | cons segment segs ih =>
    cases segs with
    | nil => exact segments_of_separator_not_mem (h segment List.mem_cons_self)
    | cons next segs =>
      rw [joined_cons_cons, segments_append,
        segments_of_separator_not_mem (h segment List.mem_cons_self),
        ih (by simp) (fun segment' hmem => h segment' (List.mem_cons_of_mem _ hmem))]
      rfl

/-- A segment is joined at the end behind a separator. -/
theorem joined_append_singleton {segs : List (List Char)} (hne : segs ≠ []) (segment : List Char) :
    joined (segs ++ [segment]) = joined segs ++ '/' :: segment := by
  induction segs with
  | nil => exact absurd rfl hne
  | cons first segs ih =>
    cases segs with
    | nil => rfl
    | cons next segs =>
      rw [List.cons_append, List.cons_append, joined_cons_cons, ← List.cons_append, ih (by simp),
        joined_cons_cons, List.append_assoc, List.cons_append]

/-- Joining adds nothing but separators. -/
theorem mem_joined {c : Char} (hc : c ≠ '/') {segs : List (List Char)} :
    c ∈ joined segs ↔ ∃ segment ∈ segs, c ∈ segment := by
  induction segs with
  | nil => simp [joined]
  | cons segment segs ih =>
    cases segs with
    | nil => simp [joined]
    | cons next segs =>
      rw [joined_cons_cons, List.mem_append, List.mem_cons, ih]
      simp [hc]

/-! ### Components behind the first -/

/-- A component that can stand behind the first one: `..`, or a name that says something else than
    to stay and has no separator in it. -/
def Inner : Component → Prop
  | .up => True
  | .name text => isIdle text.toList = false ∧ text.toList ≠ ['.', '.'] ∧ '/' ∉ text.toList
  | _ => False

/-- A segment that is not idle says a component. -/
theorem exists_ofSegment? {segment : List Char} (h : isIdle segment = false) :
    ∃ c, ofSegment? segment = some c := by
  rw [ofSegment?, if_neg (by simp [h])]
  split
  · exact ⟨.up, rfl⟩
  · exact ⟨.name (String.ofList segment), rfl⟩

/-- What a segment says can stand behind the first component. -/
theorem inner_of_ofSegment? {segment : List Char} (h : '/' ∉ segment) {c : Component}
    (hc : ofSegment? segment = some c) : c.Inner := by
  unfold ofSegment? at hc
  by_cases hidle : isIdle segment = true
  · rw [if_pos hidle] at hc
    cases hc
  · rw [if_neg hidle] at hc
    by_cases hup : segment = ['.', '.']
    · rw [if_pos hup] at hc
      cases hc
      trivial
    · rw [if_neg hup] at hc
      cases hc
      simpa [Inner, hidle, hup] using h

/-- A component that can stand behind the first is read back from its text. -/
theorem ofSegment?_text {c : Component} (h : c.Inner) : ofSegment? c.text = some c := by
  cases c with
  | root => exact h.elim
  | here => exact h.elim
  | up => rfl
  | name text =>
    obtain ⟨hidle, hup, -⟩ := h
    unfold ofSegment? Component.text
    simp [hidle, hup]

/-- The text of such a component has no separator in it. -/
theorem separator_not_mem_text {c : Component} (h : c.Inner) : '/' ∉ c.text := by
  cases c with
  | root => exact h.elim
  | here => exact h.elim
  | up => decide
  | name text => exact h.2.2

/-- The text of such a component says something. -/
theorem text_ne_of_inner {c : Component} (h : c.Inner) : c.text ≠ [] ∧ c.text ≠ ['.'] := by
  have hread := ofSegment?_text h
  constructor
  · intro hnil
    rw [hnil] at hread
    cases hread
  · intro hdot
    rw [hdot] at hread
    cases hread

/-- Components are joined so that their texts are the segments again. -/
theorem segments_joined_text {cs : List Component} (hne : cs ≠ []) (h : ∀ c ∈ cs, c.Inner) :
    segments (joined (cs.map text)) = cs.map text := by
  refine segments_joined (by simpa using hne) fun segment hsegment => ?_
  obtain ⟨c, hc, rfl⟩ := List.mem_map.1 hsegment
  exact separator_not_mem_text (h c hc)

/-- All the components but the first can stand there. -/
theorem inner_of_mem_filterMap {s : List Char} {c : Component}
    (h : c ∈ (segments s).filterMap ofSegment?) : c.Inner := by
  obtain ⟨segment, hmem, hc⟩ := List.mem_filterMap.1 h
  exact inner_of_ofSegment? (separator_not_mem_segments hmem) hc

/-- Components that can stand behind the first are read back one by one. -/
theorem filterMap_ofSegment?_text {cs : List Component} (h : ∀ c ∈ cs, c.Inner) :
    (cs.map text).filterMap ofSegment? = cs := by
  rw [List.filterMap_map]
  induction cs with
  | nil => rfl
  | cons c cs ih =>
    rw [List.filterMap_cons, Function.comp, ofSegment?_text (h c List.mem_cons_self),
      ih (fun c' hmem => h c' (List.mem_cons_of_mem c hmem))]

/-- The components behind the first are read back from between separators. -/
theorem filterMap_segments_joined {cs : List Component} (h : ∀ c ∈ cs, c.Inner) :
    (segments (joined (cs.map text))).filterMap ofSegment? = cs := by
  by_cases hne : cs = []
  · -- Nothing is joined to the empty text, which has one segment and no component.
    subst hne
    rfl
  · rw [segments_joined_text hne h, filterMap_ofSegment?_text h]

/-- A text that begins with a separator is read from the root on. -/
theorem ofText_separator (s : List Char) :
    ofText ('/' :: s) = .root :: (segments s).filterMap ofSegment? := by
  rw [ofText, segments_cons_separator]
  rfl

/-- The plainest spelling of an absolute path is read back. -/
theorem ofText_spell_root {cs : List Component} (h : ∀ c ∈ cs, c.Inner) :
    ofText (spell (.root :: cs)) = .root :: cs := by
  rw [spell, ofText_separator, filterMap_segments_joined h]

/-! ### Texts behind a separator -/

/-- The three ways in which a text is read. -/
theorem ofText_cases (s : List Char) :
    (∃ t, s = '/' :: t ∧ ofText s = .root :: (segments t).filterMap ofSegment?) ∨
    (∃ segs, segments s = ['.'] :: segs ∧ ofText s = .here :: segs.filterMap ofSegment?) ∨
    ofText s = (segments s).filterMap ofSegment? := by
  cases hs : segments s with
  | nil => exact absurd hs (pieces_ne_nil _ s)
  | cons first segs =>
    -- The match looks for a separator in front first, then for a dot as the first segment.
    by_cases hroot : ∃ t, s = '/' :: t
    · obtain ⟨t, rfl⟩ := hroot
      exact Or.inl ⟨t, rfl, ofText_separator t⟩
    · refine Or.inr ?_
      by_cases hdot : first = ['.']
      · subst hdot
        refine Or.inl ⟨segs, rfl, ?_⟩
        unfold ofText
        rw [hs]
        split
        · exact absurd ⟨_, rfl⟩ hroot
        · next heq => cases heq; rfl
        · next hnot => exact absurd rfl (hnot segs)
      · refine Or.inr ?_
        unfold ofText
        rw [hs]
        split
        · exact absurd ⟨_, rfl⟩ hroot
        · next heq => cases heq; exact absurd rfl hdot
        · rfl

/-- Components that can stand behind the first are also read back where they stand alone. -/
theorem ofText_joined {cs : List Component} (h : ∀ c ∈ cs, c.Inner) :
    ofText (joined (cs.map text)) = cs := by
  cases cs with
  | nil => rfl
  | cons c cs =>
    have hsegs := segments_joined_text (List.cons_ne_nil c cs) h
    obtain ⟨hnil, hdot⟩ := text_ne_of_inner (h c List.mem_cons_self)
    rcases ofText_cases (joined ((c :: cs).map text)) with ⟨t, ht, -⟩ | ⟨segs, hsegs', -⟩ | heq
    · -- The text does not begin with a separator.
      rw [ht, segments_cons_separator, List.map_cons, List.cons.injEq] at hsegs
      exact absurd hsegs.1.symm hnil
    · -- Nor does it begin with a dot alone.
      rw [hsegs', List.map_cons, List.cons.injEq] at hsegs
      exact absurd hsegs.1.symm hdot
    · rw [heq, filterMap_segments_joined h]

/-- A text that does not begin with a separator: its first segment may be a dot. -/
theorem ofText_of_relative {s first : List Char} {segs : List (List Char)} (hs : s.head? ≠ some '/')
    (hsegs : segments s = first :: segs) :
    ofText s = (if first = ['.'] then [.here] else (ofSegment? first).toList)
      ++ segs.filterMap ofSegment? := by
  unfold ofText
  rw [hsegs]
  split
  · exact absurd rfl hs
  · -- The first segment is a dot.
    next heq =>
    obtain ⟨rfl, rfl⟩ := List.cons.inj heq
    rw [if_pos rfl]
    rfl
  · next hdot =>
    have hfirst : first ≠ ['.'] := fun h => hdot segs (by rw [h])
    rw [if_neg hfirst, List.filterMap_cons]
    cases ofSegment? first with
    | none => rfl
    | some c => rfl

/-- The empty text says no component. -/
theorem filterMap_segments_nil : (segments []).filterMap ofSegment? = [] := rfl

/-- Behind a separator every segment counts for itself. -/
theorem ofText_append_separator (s t : List Char) :
    ofText (s ++ '/' :: t) = ofText (s ++ ['/']) ++ (segments t).filterMap ofSegment? := by
  cases s with
  | nil =>
    rw [List.nil_append, List.nil_append, ofText_separator, ofText_separator,
      filterMap_segments_nil]
    rfl
  | cons c s =>
    by_cases hc : c = '/'
    · subst hc
      rw [List.cons_append, List.cons_append, ofText_separator, ofText_separator, segments_append,
        segments_append, List.filterMap_append, List.filterMap_append, filterMap_segments_nil,
        List.append_nil]
      rfl
    · -- The first segment stands in front of the separator, so it is the same for all that follows.
      obtain ⟨first, segs, hsegs⟩ := exists_segments_eq_cons (c :: s)
      have hhead : ∀ u, (c :: s ++ u).head? ≠ some '/' := by simp [hc]
      have hsplit : ∀ u, segments (c :: s ++ '/' :: u) = first :: (segs ++ segments u) := by
        intro u
        rw [segments_append, hsegs]
        rfl
      rw [ofText_of_relative (hhead _) (hsplit t), ofText_of_relative (hhead _) (hsplit []),
        List.filterMap_append, List.filterMap_append, filterMap_segments_nil, List.append_nil,
        List.append_assoc]

/-- A separator at the end says nothing. -/
theorem ofText_concat_separator {s : List Char} (hs : s ≠ []) : ofText (s ++ ['/']) = ofText s := by
  cases s with
  | nil => exact absurd rfl hs
  | cons c s =>
    by_cases hc : c = '/'
    · subst hc
      rw [List.cons_append, ofText_separator, ofText_separator, segments_append,
        List.filterMap_append, filterMap_segments_nil, List.append_nil]
    · obtain ⟨first, segs, hsegs⟩ := exists_segments_eq_cons (c :: s)
      have hsplit : segments (c :: s ++ ['/']) = first :: (segs ++ segments []) := by
        rw [segments_append, hsegs]
        rfl
      rw [ofText_of_relative (by simp [hc]) hsplit, ofText_of_relative (by simp [hc]) hsegs,
        List.filterMap_append, filterMap_segments_nil, List.append_nil]

/-! ### The characters of a path -/

/-- A text has the characters of its segments, separators apart. -/
theorem mem_iff_mem_segments {c : Char} (hc : c ≠ '/') {s : List Char} :
    c ∈ s ↔ ∃ segment ∈ segments s, c ∈ segment := by
  rw [← mem_joined hc, joined_segments]

/-- A character that is no dot stands in a segment exactly when it stands in the component of it. -/
theorem mem_filterMap_text {c : Char} (hdot : c ≠ '.') {segs : List (List Char)} :
    (∃ component ∈ segs.filterMap ofSegment?, c ∈ component.text) ↔
      ∃ segment ∈ segs, c ∈ segment := by
  constructor
  · rintro ⟨component, hmem, hc⟩
    obtain ⟨segment, hsegment, heq⟩ := List.mem_filterMap.1 hmem
    refine ⟨segment, hsegment, ?_⟩
    unfold ofSegment? at heq
    split at heq
    · cases heq
    · split at heq
      · cases heq
        simp [text, hdot] at hc
      · cases heq
        simpa [text] using hc
  · rintro ⟨segment, hsegment, hc⟩
    -- A segment that is dropped or read as a step up has nothing but dots in it.
    have hidle : ¬isIdle segment = true := by
      intro hidle
      rw [isIdle, Bool.or_eq_true, List.isEmpty_iff, beq_iff_eq] at hidle
      rcases hidle with rfl | rfl
      · exact absurd hc List.not_mem_nil
      · exact hdot (List.mem_singleton.1 hc)
    have hup : segment ≠ ['.', '.'] := by
      rintro rfl
      simp [hdot] at hc
    refine ⟨.name (String.ofList segment), List.mem_filterMap.2 ⟨segment, hsegment, ?_⟩, ?_⟩
    · rw [ofSegment?, if_neg hidle, if_neg hup]
    · simpa [text] using hc

/-- A character that is no separator and no dot stands in a text exactly when it stands in one of
    its components. -/
theorem mem_ofText {c : Char} (hsep : c ≠ '/') (hdot : c ≠ '.') {s : List Char} :
    (∃ component ∈ ofText s, c ∈ component.text) ↔ c ∈ s := by
  rcases ofText_cases s with ⟨t, rfl, heq⟩ | ⟨segs, hsegs, heq⟩ | heq
  · rw [heq, List.mem_cons, mem_iff_mem_segments hsep, ← mem_filterMap_text hdot]
    simp [text, hsep]
  · rw [heq, mem_iff_mem_segments hsep, hsegs]
    simp only [List.mem_cons, exists_eq_or_imp, mem_filterMap_text hdot]
    simp [text]
  · rw [heq, mem_iff_mem_segments hsep, mem_filterMap_text hdot]

end Component

namespace Path

/-- The characters of a path are those of its spelling. -/
@[simp] theorem chars_ofString (s : String) : (ofString s).chars = s.toList := rfl

/-- A path has the characters that it was made of. -/
@[simp] theorem chars_ofChars (s : List Char) : (ofChars s).chars = s :=
  String.toList_ofList

/-- The components of a path are read off its characters. -/
@[simp] theorem components_ofChars (s : List Char) : (ofChars s).components = Component.ofText s :=
  congrArg Component.ofText String.toList_ofList

/-- Every path has the components that its characters say. -/
theorem components_eq_ofText (p : Path) : p.components = Component.ofText p.chars :=
  p.components_eq

/-- A path is determined by its characters. -/
theorem ext_chars {p q : Path} (h : p.chars = q.chars) : p = q :=
  ext_spelling (String.toList_inj.1 h)

/-- A relative path seen from another path is put behind it, with one separator between them. -/
theorem chars_join {p q : Path} (hq : q.isAbsolute = false) (hp : p.chars ≠ []) :
    (p.join q).chars = if p.chars.getLast?
      = some '/' then p.chars ++ q.chars else p.chars ++ '/' :: q.chars := by
  have hempty : p.chars.isEmpty = false := List.isEmpty_eq_false_iff.2 hp
  rw [join, hq, hempty, if_neg (by simp)]
  by_cases hlast : p.chars.getLast? = some '/'
  · rw [if_pos hlast, if_pos hlast, chars_ofString, String.toList_append]
    rfl
  · rw [if_neg hlast, if_neg hlast, chars_ofString, String.toList_append, String.toList_append,
      List.append_assoc]
    rfl

/-- Spellings of one path have the same characters, but for separators and dots. -/
theorem mem_chars_congr {c : Char} (hsep : c ≠ '/') (hdot : c ≠ '.') {p q : Path} (h : p.Same q) :
    c ∈ p.chars ↔ c ∈ q.chars := by
  rw [← Component.mem_ofText hsep hdot, ← Component.mem_ofText hsep hdot, ← components_eq_ofText,
    ← components_eq_ofText, show p.components = _ from h]

end Path

end BlastRadius
