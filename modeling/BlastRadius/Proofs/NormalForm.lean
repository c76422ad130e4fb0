import BlastRadius.Proofs.Canonical

namespace BlastRadius

/-!
# The normal form of a path

Normalizing goes through the components of a path with a stack. The stack of an absolute path has
names on top of the root (`Canonical`), and that of a relative one names on top of steps up.

* `Path.NamesOnUps`, `namesOnUps_collapseStep`, `namesOnUps_foldl` — the stack of a relative path.
* `Path.Rising`, `rising_normalize` — what normalizing a relative path gives.
* `Path.components_normalize`, `Path.normalize_normalize` — a normal path is read back, and stays.
* `Path.Normal`, `Path.normalize_eq_self_iff` — what a normal path is, by its components and by its
  spelling.
* `Path.foldl_components_join` — a path seen from another one is gone through behind that one.
* `Path.normalize_normal_form` — the theorem.
-/

open Component

/-! ### Spellings without idle segments -/

namespace Component

variable {cs : List Component} {s : List Char}

/-- A text is tidy if it is empty or all its segments say something. -/
def Tidy (s : List Char) : Prop :=
  s = [] ∨ ∀ segment ∈ segments s, isIdle segment = false

/-- Components that can stand behind the first are joined to a tidy text. -/
theorem tidy_joined (h : ∀ c ∈ cs, c.Inner) : Tidy (joined (cs.map text)) := by
  by_cases hne : cs = []
  · subst hne
    exact Or.inl rfl
  · refine Or.inr fun segment hsegment => ?_
    rw [segments_joined_text hne h] at hsegment
    obtain ⟨c, hc, rfl⟩ := List.mem_map.1 hsegment
    obtain ⟨hnil, hdot⟩ := text_ne_of_inner (h c hc)
    simp [isIdle, hnil, hdot]

/-- A tidy text that is not empty has no empty segment. -/
theorem Tidy.nil_not_mem (h : Tidy s) (hs : s ≠ []) : [] ∉ segments s := by
  intro hnil
  have hidle := h.resolve_left hs [] hnil
  cases hidle

/-- There are no two separators in a row, also not with one in front. -/
theorem Tidy.single (h : Tidy s) : ¬['/', '/'] <:+: '/' :: s := by
  rintro ⟨front, back, hs⟩
  rw [List.append_assoc] at hs
  cases front with
  | nil =>
    obtain rfl : '/' :: back = s := (List.cons.inj hs).2
    refine h.nil_not_mem (by simp) ?_
    rw [segments_cons_separator]
    exact List.mem_cons_self
  | cons c front =>
    obtain rfl : front ++ (['/', '/'] ++ back) = s := (List.cons.inj hs).2
    refine h.nil_not_mem (by simp) ?_
    rw [List.cons_append, segments_append, List.singleton_append, segments_cons_separator]
    simp

/-- There is no separator at the end. -/
theorem Tidy.getLast?_ne (h : Tidy s) : s.getLast? ≠ some '/' := by
  intro hlast
  obtain ⟨front, rfl⟩ := List.getLast?_eq_some_iff.1 hlast
  refine h.nil_not_mem (by simp) ?_
  rw [segments_append]
  exact List.mem_append_right _ List.mem_cons_self

/-- A tidy text has no single dot for a segment. -/
theorem Tidy.dot_not_mem (h : Tidy s) : ['.'] ∉ segments s := by
  rcases h with rfl | h
  · decide
  · intro hdot
    have hidle := h _ hdot
    cases hidle

/-- What a segment says has that segment for its text. -/
theorem text_of_ofSegment? {c : Component} (h : ofSegment? s = some c) : c.text = s := by
  unfold ofSegment? at h
  split at h
  · cases h
  · split at h
    · next hup =>
      rw [← Option.some.inj h, hup]
      rfl
    · rw [← Option.some.inj h, text, String.toList_ofList]

/-- A tidy text is the plainest spelling of its components. -/
theorem Tidy.joined_text (h : Tidy s) :
    joined (((segments s).filterMap ofSegment?).map text) = s := by
  -- Every segment says a component, whose text is that segment.
  have hread : ∀ segs : List (List Char), (∀ segment ∈ segs, isIdle segment = false) →
      (segs.filterMap ofSegment?).map text = segs := by
    intro segs
    induction segs with
    | nil => exact fun _ => rfl
    | cons segment segs ih =>
      intro hsegs
      rw [List.forall_mem_cons] at hsegs
      obtain ⟨c, hc⟩ := exists_ofSegment? hsegs.1
      rw [List.filterMap_cons_some hc, List.map_cons, ih hsegs.2, text_of_ofSegment? hc]
  rcases h with rfl | h
  · rfl
  · rw [hread _ h, joined_segments]

/-- A character that is no separator changes the first segment only. -/
theorem exists_segments_cons {c : Char} (hc : c ≠ '/') (s : List Char) :
    ∃ segment, segments (c :: s) = (c :: segment) :: (segments s).tail := by
  obtain ⟨segment, segs, hsegs⟩ := exists_segments_eq_cons s
  refine ⟨segment, ?_⟩
  rw [segments_cons hc hsegs, hsegs]
  rfl

/-- The first segment is not empty where a text begins with something else than a separator. -/
theorem nil_not_mem_segments (hne : s ≠ []) (hhead : s.head? ≠ some '/')
    (htail : [] ∉ (segments s).tail) : [] ∉ segments s := by
  cases s with
  | nil => exact absurd rfl hne
  | cons c s =>
    have hc : c ≠ '/' := by simpa using hhead
    obtain ⟨segment, hsegs⟩ := exists_segments_cons hc s
    rw [hsegs] at htail ⊢
    simpa using htail

/-- An empty segment stands at an end, or between two separators. -/
theorem nil_not_mem_tail_segments (hlast : s.getLast? ≠ some '/') (hsingle : ¬['/', '/'] <:+: s) :
    [] ∉ (segments s).tail := by
  induction s with
  | nil => exact List.not_mem_nil
  | cons c s ih =>
    -- The last character alone is no separator, so it ends no segment.
    by_cases hs : s = []
    · subst hs
      have hc : c ≠ '/' := by simpa using hlast
      obtain ⟨segment, hsegs⟩ := exists_segments_cons hc []
      rw [hsegs]
      exact List.not_mem_nil
    · rw [List.getLast?_cons_of_ne_nil hs] at hlast
      have htail := ih hlast fun htwo => hsingle (htwo.trans (List.suffix_cons c s).isInfix)
      by_cases hc : c = '/'
      · subst hc
        rw [segments_cons_separator]
        refine nil_not_mem_segments hs (fun hhead => hsingle ?_) htail
        obtain ⟨t, rfl⟩ := List.head?_eq_some_iff.1 hhead
        exact ⟨[], t, rfl⟩
      · obtain ⟨segment, hsegs⟩ := exists_segments_cons hc s
        rw [hsegs]
        exact htail

/-- A text with single separators, none of them at an end, and without single dots is tidy. -/
theorem tidy_of_single (hhead : s.head? ≠ some '/') (hlast : s.getLast? ≠ some '/')
    (hsingle : ¬['/', '/'] <:+: s) (hdot : ['.'] ∉ segments s) : Tidy s := by
  by_cases hs : s = []
  · exact Or.inl hs
  · refine Or.inr fun segment hsegment => ?_
    have hnil := nil_not_mem_segments hs hhead (nil_not_mem_tail_segments hlast hsingle)
    have hne : segment ≠ [] := ne_of_mem_of_not_mem hsegment hnil
    have hne' : segment ≠ ['.'] := ne_of_mem_of_not_mem hsegment hdot
    simp [isIdle, hne, hne']

/-- Components without a step up behind the first are names. -/
theorem exists_names (hinner : ∀ c ∈ cs, c.Inner) (hup : .up ∉ cs) :
    ∃ names : List String, (∀ name ∈ names, ProperName name) ∧ cs = names.map .name := by
  induction cs with
  | nil => exact ⟨[], by simp, rfl⟩
  | cons c cs ih =>
    rw [List.forall_mem_cons] at hinner
    rw [List.mem_cons, not_or] at hup
    obtain ⟨names, hnames, rfl⟩ := ih hinner.2 hup.2
    cases c with
    | root => exact hinner.1.elim
    | here => exact hinner.1.elim
    | up => exact absurd rfl hup.1
    | name text => exact ⟨text :: names, List.forall_mem_cons.2 ⟨hinner.1, hnames⟩, rfl⟩

end Component

namespace Path

/-! ### Normalizing a relative path -/

/-- A stack of proper names on top of steps up. -/
def NamesOnUps (stack : List Component) : Prop :=
  ∃ (n : Nat) (names : List String), (∀ name ∈ names, ProperName name) ∧
    stack = names.map .name ++ List.replicate n .up

section
variable {stack cs : List Component} {c : Component}

/-- One more component leaves names on top of steps up. -/
theorem namesOnUps_collapseStep (hc : c.Inner) (h : NamesOnUps stack) :
    NamesOnUps (collapseStep stack c) := by
  obtain ⟨n, names, hnames, rfl⟩ := h
  cases c with
  | root => exact hc.elim
  | here => exact hc.elim
  | up =>
    cases names with
    -- Without a name to take off, a step up stays.
    | nil =>
      refine ⟨n + 1, [], hnames, ?_⟩
      cases n <;> rfl
    | cons name names =>
      exact ⟨n, names, fun name' h => hnames name' (List.mem_cons_of_mem name h), rfl⟩
  | name text =>
    exact ⟨n, text :: names, List.forall_mem_cons.2 ⟨hc, hnames⟩, rfl⟩

/-- Going through components leaves names on top of steps up. -/
theorem namesOnUps_foldl (hcs : ∀ c ∈ cs, c.Inner) (h : NamesOnUps stack) :
    NamesOnUps (cs.foldl collapseStep stack) := by
  induction cs generalizing stack with
  | nil => exact h
  | cons c cs ih =>
    rw [List.forall_mem_cons] at hcs
    exact ih hcs.2 (namesOnUps_collapseStep hcs.1 h)

end

/-- A dot says nothing. -/
theorem foldl_collapseStep_filter (cs stack : List Component) :
    (cs.filter (· ≠ .here)).foldl collapseStep stack = cs.foldl collapseStep stack := by
  induction cs generalizing stack with
  | nil => rfl
  | cons c cs ih =>
    by_cases hc : c = .here
    · subst hc
      rw [List.filter_cons_of_neg (by simp), ih, List.foldl_cons]
      rfl
    · rw [List.filter_cons_of_pos (by simpa using hc), List.foldl_cons, ih, List.foldl_cons]

/-- The normal form of a relative path has steps up, and names behind them. -/
theorem exists_collapse_of_relative {p : Path} (h : p.isAbsolute = false) :
    ∃ (n : Nat) (names : List String), (∀ name ∈ names, ProperName name) ∧
      collapse p.components = List.replicate n .up ++ names.map .name := by
  have hstart : NamesOnUps [] := ⟨0, [], by simp, rfl⟩
  obtain ⟨n, names, hnames, hfold⟩ := namesOnUps_foldl
    (fun c (hc : c ∈ (segments p.chars).filterMap ofSegment?) => inner_of_mem_filterMap hc) hstart
  refine ⟨n, names.reverse, by simpa using hnames, ?_⟩
  rw [collapse, ← foldl_collapseStep_filter, ← filterMap_segments_of_relative h, hfold,
    List.reverse_append, List.reverse_replicate, List.map_reverse]

/-- A relative path that goes up, and then down by proper names, in its plainest spelling. -/
def Rising (p : Path) : Prop :=
  ∃ (n : Nat) (names : List String), (∀ name ∈ names, ProperName name) ∧
    p = ofComponents (List.replicate n .up ++ names.map .name)

/-- The normal form of a relative path goes up, and then down. -/
theorem rising_normalize {p : Path} (h : p.isAbsolute = false) : p.normalize.Rising := by
  obtain ⟨n, names, hnames, hcollapse⟩ := exists_collapse_of_relative h
  exact ⟨n, names, hnames, by rw [normalize, hcollapse]⟩

section
variable {n : Nat} {names : List String}

/-- Steps up and proper names can all stand behind the first component. -/
theorem inner_ups_names (h : ∀ name ∈ names, ProperName name) :
    ∀ c ∈ List.replicate n Component.up ++ names.map .name, c.Inner := by
  intro c hc
  rcases List.mem_append.1 hc with hc | hc
  · rw [List.eq_of_mem_replicate hc]
    trivial
  · exact inner_of_properName h c hc

/-- A path that goes up and then down is spelled without a root. -/
theorem chars_rising (n : Nat) (names : List String) :
    (ofComponents (List.replicate n .up ++ names.map .name)).chars
      = joined ((List.replicate n Component.up ++ names.map Component.name).map text) := by
  rw [ofComponents, chars_ofChars]
  -- The first component, whichever it is, is not the root.
  cases n with
  | zero => cases names <;> rfl
  | succ n => rfl

/-- Such a path is read back from its spelling. -/
theorem components_rising (h : ∀ name ∈ names, ProperName name) :
    (ofComponents (List.replicate n .up ++ names.map .name)).components
      = List.replicate n .up ++ names.map .name := by
  rw [components_eq_ofText, chars_rising, ofText_joined (inner_ups_names h)]

/-- Steps up are gone through to where they are. -/
theorem foldl_collapseStep_replicate (n : Nat) :
    (List.replicate n Component.up).foldl collapseStep [] = List.replicate n .up := by
  induction n with
  | zero => rfl
  | succ n ih =>
    rw [List.replicate_succ', List.foldl_append, ih, ← List.replicate_succ']
    cases n <;> rfl

end

/-- Such a path is normal already. -/
theorem Rising.normalize_eq {p : Path} (h : p.Rising) : p.normalize = p := by
  obtain ⟨n, names, hnames, rfl⟩ := h
  rw [normalize, components_rising hnames, collapse, List.foldl_append,
    foldl_collapseStep_replicate, foldl_collapseStep_names, List.reverse_append,
    List.reverse_replicate, ← List.map_reverse, List.reverse_reverse]

/-! ### Normal paths -/

/-- A normal path is read back from its spelling. -/
theorem components_normalize (p : Path) : p.normalize.components = collapse p.components := by
  cases hp : p.isAbsolute with
  | true =>
    obtain ⟨place, hplace, hcollapse⟩ := exists_collapse_of_isAbsolute hp
    rw [normalize, hcollapse]
    exact components_pathOf hplace
  | false =>
    obtain ⟨n, names, hnames, hcollapse⟩ := exists_collapse_of_relative hp
    rw [normalize, hcollapse, components_rising hnames]

/-- A path in normal form. -/
structure Normal (p : Path) : Prop where
  /-- No component is the current directory, and no part of the spelling is a single dot. -/
  no_here : .here ∉ p.components ∧ ['.'] ∉ segments p.chars
  /-- Steps up stand in a row at the beginning, and only if the path is relative. -/
  ups : ∃ n rest, p.components = List.replicate n .up ++ rest ∧ .up ∉ rest ∧
    (p.isAbsolute = true → n = 0)
  /-- Separators stand alone. -/
  single : ¬['/', '/'] <:+: p.chars
  /-- Only the root ends with one. -/
  last : p.chars.getLast? = some '/' → p.chars = ['/']

/-- A canonical path is normal. -/
theorem Canonical.normal {p : Path} (h : p.Canonical) : p.Normal := by
  obtain ⟨place, hplace, rfl⟩ := h
  have htidy : Tidy (joined (place.map String.toList)) := by
    have htexts := tidy_joined (inner_of_properName hplace)
    rwa [List.map_map] at htexts
  -- In turn: no dot among the components and segments, no step up, single separators, the end.
  refine ⟨⟨?_, ?_⟩, ⟨0, .root :: place.map .name, ?_, ?_, fun _ => rfl⟩, ?_, ?_⟩
  · rw [components_pathOf hplace]
    simp
  · rw [chars_pathOf, segments_cons_separator, List.mem_cons, not_or]
    exact ⟨by simp, htidy.dot_not_mem⟩
  · rw [components_pathOf hplace]
    rfl
  · simp
  · rw [chars_pathOf]
    exact htidy.single
  · rw [chars_pathOf, List.getLast?_cons]
    cases hlast : (joined (place.map String.toList)).getLast? with
    | none => simp [List.getLast?_eq_none_iff.1 hlast]
    | some c =>
      intro hc
      exact absurd (hlast.trans hc) htidy.getLast?_ne

/-- A path that goes up and then down is normal. -/
theorem Rising.normal {p : Path} (h : p.Rising) : p.Normal := by
  obtain ⟨n, names, hnames, rfl⟩ := h
  have htidy : Tidy (joined
      ((List.replicate n Component.up ++ names.map Component.name).map text)) :=
    tidy_joined (inner_ups_names hnames)
  have hinner : ∀ c ∈ List.replicate n Component.up ++ names.map .name, c.Inner :=
    inner_ups_names hnames
  -- As for a canonical path, but the steps up come first and there is no root.
  refine ⟨⟨?_, ?_⟩, ⟨n, names.map .name, components_rising hnames, ?_, ?_⟩, ?_, ?_⟩
  · rw [components_rising hnames]
    exact fun hhere => hinner .here hhere
  · rw [chars_rising]
    exact htidy.dot_not_mem
  · simp
  · rw [isAbsolute_iff_head?, components_rising hnames]
    intro hroot
    exact (hinner .root (List.mem_of_head? hroot)).elim
  · rw [chars_rising]
    exact fun htwo => htidy.single (htwo.trans (List.suffix_cons _ _).isInfix)
  · rw [chars_rising]
    exact fun hlast => absurd hlast htidy.getLast?_ne

/-- Normalizing gives a normal path. -/
theorem normal_normalize (p : Path) : p.normalize.Normal := by
  cases hp : p.isAbsolute with
  | true => exact (canonical_normalize hp).normal
  | false => exact (rising_normalize hp).normal

/-- A normal path that is absolute leads to its place without detours. -/
theorem Normal.canonical {p : Path} (h : p.Normal) (hp : p.isAbsolute = true) : p.Canonical := by
  obtain ⟨s, hs⟩ := exists_chars_of_isAbsolute hp
  have hsingle := h.single
  have hlast := h.last
  have hdot := h.no_here.2
  rw [hs] at hsingle hlast hdot
  have htidy : Tidy s := by
    refine tidy_of_single (fun hhead => hsingle ?_) (fun hend => ?_)
      (fun htwo => hsingle (htwo.trans (List.suffix_cons _ s).isInfix)) fun hmem => hdot ?_
    · obtain ⟨t, rfl⟩ := List.head?_eq_some_iff.1 hhead
      exact ⟨[], t, rfl⟩
    · -- The separator at the end would be that of the root.
      have hne : s ≠ [] := by
        rintro rfl
        cases hend
      rw [List.getLast?_cons_of_ne_nil hne] at hlast
      exact hne (List.cons.inj (hlast hend)).2
    · rw [segments_cons_separator]
      exact List.mem_cons_of_mem [] hmem
  have hcomponents : p.components = .root :: (segments s).filterMap ofSegment? :=
    components_of_chars hs
  obtain ⟨n, rest, hups, hrest, hn⟩ := h.ups
  obtain rfl := hn hp
  obtain rfl : rest = .root :: (segments s).filterMap ofSegment? := hups.symm.trans hcomponents
  rw [List.mem_cons, not_or] at hrest
  obtain ⟨place, hplace, hnames⟩ := exists_names (fun c hc => inner_of_mem_filterMap hc) hrest.2
  refine ⟨place, hplace, ext_chars ?_⟩
  have hspelled := htidy.joined_text
  rw [hnames, List.map_map] at hspelled
  rw [hs, chars_pathOf]
  exact congrArg _ hspelled.symm

/-- A normal path that is relative goes up, and then down. -/
theorem Normal.rising {p : Path} (h : p.Normal) (hp : p.isAbsolute = false) : p.Rising := by
  have hhead : p.chars.head? ≠ some '/' := by simpa [isAbsolute] using hp
  have hlast : p.chars.getLast? ≠ some '/' := by
    intro hend
    rw [h.last hend] at hhead
    exact hhead rfl
  have htidy : Tidy p.chars := tidy_of_single hhead hlast h.single h.no_here.2
  -- Without a dot in front, the components are those of the segments.
  have hcomponents : (segments p.chars).filterMap ofSegment? = p.components := by
    rw [filterMap_segments_of_relative hp, List.filter_eq_self]
    intro c hc
    simpa using ne_of_mem_of_not_mem hc h.no_here.1
  obtain ⟨n, rest, hups, hrest, -⟩ := h.ups
  have hinner : ∀ c ∈ rest, c.Inner := by
    intro c hc
    refine inner_of_mem_filterMap (s := p.chars) ?_
    rw [hcomponents, hups]
    exact List.mem_append_right _ hc
  obtain ⟨names, hnames, rfl⟩ := exists_names hinner hrest
  refine ⟨n, names, hnames, ext_chars ?_⟩
  rw [chars_rising, ← hups, ← hcomponents, htidy.joined_text]

/-- The normal paths are those that normalizing leaves as they are. -/
theorem normalize_eq_self_iff {p : Path} : p.normalize = p ↔ p.Normal := by
  constructor
  · intro h
    rw [← h]
    exact normal_normalize p
  · intro h
    cases hp : p.isAbsolute with
    | true => exact (h.canonical hp).normalize_eq
    | false => exact (h.rising hp).normalize_eq

/-- Normalizing twice is as good as once. -/
theorem normalize_normalize (p : Path) : p.normalize.normalize = p.normalize :=
  normalize_eq_self_iff.2 (normal_normalize p)

/-- Normalizing keeps absolute paths absolute, and relative ones relative. -/
theorem isAbsolute_normalize (p : Path) : p.normalize.isAbsolute = p.isAbsolute := by
  cases hp : p.isAbsolute with
  | true => exact (canonical_normalize hp).isAbsolute
  | false =>
    obtain ⟨n, names, hnames, hcollapse⟩ := exists_collapse_of_relative hp
    rw [← Bool.not_eq_true, isAbsolute_iff_head?, components_normalize, hcollapse]
    intro hroot
    exact inner_ups_names hnames .root (List.mem_of_head? hroot)

/-! ### Normalizing a path seen from another one -/

/-- The components of a relative path are gone through behind those of the path that it is seen
    from. -/
theorem foldl_components_join {p q : Path} (hq : q.isAbsolute = false) (stack : List Component) :
    (p.join q).components.foldl collapseStep stack
      = q.components.foldl collapseStep (p.components.foldl collapseStep stack) := by
  by_cases hp : p.chars = []
  · -- Seen from the empty path, a path is itself.
    have hjoin : p.join q = q := by simp [join, hp]
    rw [hjoin, components_eq_ofText p, hp]
    rfl
  · rw [components_join hp hq, List.foldl_append, foldl_collapseStep_filter]

/-- Going through a normal path comes to the same as going through the path. -/
theorem foldl_components_normalize (p : Path) :
    p.normalize.components.foldl collapseStep [] = p.components.foldl collapseStep [] := by
  have hcollapse : collapse p.normalize.components = collapse p.components := by
    rw [← components_normalize, normalize_normalize, components_normalize]
  exact List.reverse_injective hcollapse

/-- A path that another one is seen from can be normalized beforehand. -/
theorem normalize_join (p q : Path) : (p.join q).normalize = (p.normalize.join q).normalize := by
  cases hq : q.isAbsolute with
  | true => simp [join, hq]
  | false =>
    rw [normalize, normalize, collapse, collapse, foldl_components_join hq,
      foldl_components_join hq, foldl_components_normalize]

/-- **Normalizing gives a normal form.** Whatever a path is, its normal form has no `.`, and `..`
    only in a row at the beginning and only if the path is relative. It is absolute exactly if the
    path is. It is spelled with single separators, and ends with one only if it is the root. The
    paths of that kind are exactly those that normalizing leaves as they are, so normalizing again
    changes nothing; and a path that another one is seen from can be normalized beforehand. -/
theorem normalize_normal_form (p q : Path) :
    p.normalize.Normal ∧ p.normalize.isAbsolute = p.isAbsolute ∧ (p.normalize = p ↔ p.Normal) ∧
      p.normalize.normalize = p.normalize ∧ (p.join q).normalize = (p.normalize.join q).normalize :=
  ⟨p.normal_normalize, p.isAbsolute_normalize, normalize_eq_self_iff, p.normalize_normalize,
    normalize_join p q⟩

/-- A path that collapses to nothing, and one that goes up from there. -/
example : (ofString "./a/..").normalize = ofString "" ∧
    ((ofString "./a/..").join (ofString "..//b/.")).normalize = ofString "../b" ∧
    (ofString "/../b//").normalize = ofString "/b" := by
  decide +kernel

end Path

end BlastRadius
