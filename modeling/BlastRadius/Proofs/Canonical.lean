import BlastRadius.Disk.Scan
import BlastRadius.Proofs.PathMap
import BlastRadius.Proofs.Spelling

namespace BlastRadius

/-!
# Canonical paths

A canonical path is absolute, has no `.` and no `..`, and is spelled in the plainest way. Every file
of a project stands under such a path, whether it was scanned or named by a change.

* `ProperName` — what can be the name of an entry of a directory.
* `Path.Canonical` — the paths of places on a disk; two that are the same are equal.
* `canonical_normalize` — what normalizing an absolute path gives.
* `components_join` — the components of a path seen from another one.
* `isExcluded_pathOf` — which files below a root are left out.
* `PathMap.Canonical` — maps all of whose paths are canonical; they are equal if they have the same
  values.
-/

open Component Disk

/-- A name that an entry of a directory can have. -/
def ProperName (name : String) : Prop :=
  (Component.name name).Inner

instance (name : String) : Decidable (ProperName name) :=
  inferInstanceAs (Decidable (_ ∧ _ ∧ _))

/-- Proper names can stand behind the root. -/
theorem inner_of_properName {place : List String} (h : ∀ name ∈ place, ProperName name) :
    ∀ c ∈ place.map Component.name, c.Inner := by
  intro c hc
  obtain ⟨name, hname, rfl⟩ := List.mem_map.1 hc
  exact h name hname

/-- The path to a place goes from the root through its names. -/
theorem components_pathOf {place : List String} (h : ∀ name ∈ place, ProperName name) :
    (pathOf place).components = .root :: place.map .name := by
  rw [pathOf, Path.ofComponents, Path.components_ofChars, ofText_spell_root (inner_of_properName h)]

/-- The path to a place is spelled with its names behind the root. -/
theorem chars_pathOf (place : List String) :
    (pathOf place).chars = '/' :: joined (place.map String.toList) := by
  rw [pathOf, Path.ofComponents, Path.chars_ofChars, spell, List.map_map]
  rfl

namespace Path

/-- A path that leads to a place without detours, in its plainest spelling. -/
def Canonical (p : Path) : Prop :=
  ∃ place, (∀ name ∈ place, ProperName name) ∧ p = pathOf place

/-- The path to a place of proper names is canonical. -/
theorem canonical_pathOf {place : List String} (h : ∀ name ∈ place, ProperName name) :
    (pathOf place).Canonical :=
  ⟨place, h, rfl⟩

/-- Canonical paths that are the same are spelled the same. -/
theorem Canonical.eq_of_same {p q : Path} (hp : p.Canonical) (hq : q.Canonical) (h : p.Same q) :
    p = q := by
  obtain ⟨place, hplace, rfl⟩ := hp
  obtain ⟨place', hplace', rfl⟩ := hq
  unfold Same at h
  rw [components_pathOf hplace, components_pathOf hplace', List.cons.injEq] at h
  have hinjective : Function.Injective Component.name := fun _ _ heq => Component.name.inj heq
  rw [hinjective.list_map h.2]

/-- The path to a place starts at the root. -/
theorem isAbsolute_pathOf (place : List String) : (pathOf place).isAbsolute = true := by
  rw [isAbsolute, chars_pathOf]
  rfl

/-- A proper name is not empty. -/
theorem properName_ne_nil {name : String} (h : ProperName name) : name.toList ≠ [] := by
  intro hnil
  have hidle := h.1
  rw [hnil] at hidle
  cases hidle

/-- A proper name alone is a relative path. -/
theorem not_isAbsolute_ofString {name : String} (h : ProperName name) :
    (ofString name).isAbsolute = false := by
  rw [isAbsolute, chars, spelling_ofString]
  cases hname : name.toList with
  | nil => rfl
  | cons c rest =>
    have hsep := h.2.2
    rw [hname, List.mem_cons, not_or] at hsep
    simpa using fun heq : c = '/' => hsep.1 heq.symm

/-- The path to a place below the root does not end with a separator. -/
theorem getLast?_chars_pathOf {place : List String} (hne : place ≠ [])
    (h : ∀ name ∈ place, ProperName name) : (pathOf place).chars.getLast? ≠ some '/' := by
  obtain ⟨front, last, rfl⟩ := (List.eq_nil_or_concat' place).resolve_left hne
  have hlast : ProperName last := h last (by simp)
  have hchars : ∃ s, (pathOf (front ++ [last])).chars = s ++ last.toList := by
    rw [chars_pathOf, List.map_append, List.map_singleton]
    by_cases hfront : front = []
    · subst hfront
      exact ⟨['/'], rfl⟩
    · rw [joined_append_singleton (by simpa using hfront)]
      exact ⟨'/' :: joined (front.map String.toList) ++ ['/'], by simp⟩
  obtain ⟨s, hs⟩ := hchars
  rw [hs, List.getLast?_append_of_ne_nil _ (properName_ne_nil hlast)]
  intro heq
  exact hlast.2.2 (List.mem_of_getLast? heq)

/-- An entry of the directory at a place. -/
theorem child_pathOf {place : List String} (hplace : ∀ name ∈ place, ProperName name)
    {name : String} (hname : ProperName name) :
    (pathOf place).child name = pathOf (place ++ [name]) := by
  apply ext_chars
  rw [child, chars_join (not_isAbsolute_ofString hname) (by rw [chars_pathOf]; simp),
    chars_pathOf (place ++ [name]), List.map_append, List.map_singleton, chars_ofString]
  -- Only the root ends with a separator.
  by_cases hne : place = []
  · subst hne
    rfl
  · rw [if_neg (getLast?_chars_pathOf hne hplace), joined_append_singleton (by simpa using hne),
      chars_pathOf]
    rfl

/-! ### Normal paths -/

/-- A stack of proper names on top of the root. -/
def NamesOnRoot (stack : List Component) : Prop :=
  ∃ names : List String, (∀ name ∈ names, ProperName name) ∧ stack = names.map .name ++ [.root]

/-- One more component leaves names on top of the root. -/
theorem namesOnRoot_collapseStep {stack : List Component} {c : Component} (hc : c.Inner)
    (h : NamesOnRoot stack) : NamesOnRoot (collapseStep stack c) := by
  obtain ⟨names, hnames, rfl⟩ := h
  cases c with
  | root => exact hc.elim
  | here => exact hc.elim
  | up =>
    cases names with
    -- There is nothing above the root.
    | nil => exact ⟨[], hnames, rfl⟩
    | cons name names =>
      exact ⟨names, fun name' h => hnames name' (List.mem_cons_of_mem name h), rfl⟩
  | name text =>
    refine ⟨text :: names, fun name' h => ?_, rfl⟩
    rcases List.mem_cons.1 h with rfl | h
    · exact hc
    · exact hnames name' h

/-- Going through components leaves names on top of the root. -/
theorem namesOnRoot_foldl {cs : List Component} (hcs : ∀ c ∈ cs, c.Inner) {stack : List Component}
    (h : NamesOnRoot stack) : NamesOnRoot (cs.foldl collapseStep stack) := by
  induction cs generalizing stack with
  | nil => exact h
  | cons c cs ih =>
    exact ih (fun c' hc' => hcs c' (List.mem_cons_of_mem c hc'))
      (namesOnRoot_collapseStep (hcs c List.mem_cons_self) h)

/-- An absolute path is spelled with a separator in front. -/
theorem exists_chars_of_isAbsolute {p : Path} (h : p.isAbsolute = true) :
    ∃ s, p.chars = '/' :: s := by
  unfold isAbsolute at h
  cases hchars : p.chars with
  | nil =>
    rw [hchars] at h
    cases h
  | cons c s =>
    rw [hchars, List.head?_cons, beq_iff_eq, Option.some.injEq] at h
    exact ⟨s, by rw [h]⟩

/-- The components of a path that is spelled with a separator in front. -/
theorem components_of_chars {p : Path} {s : List Char} (h : p.chars = '/' :: s) :
    p.components = .root :: (segments s).filterMap ofSegment? := by
  rw [components_eq_ofText, h, ofText_separator]

/-- The normal form of an absolute path has names behind the root. -/
theorem exists_collapse_of_isAbsolute {p : Path} (h : p.isAbsolute = true) :
    ∃ place : List String, (∀ name ∈ place, ProperName name) ∧
      collapse p.components = .root :: place.map .name := by
  obtain ⟨s, hs⟩ := exists_chars_of_isAbsolute h
  have hstart : NamesOnRoot [.root] := ⟨[], by simp, rfl⟩
  obtain ⟨names, hnames, hfold⟩ := namesOnRoot_foldl
    (fun c (hc : c ∈ (segments s).filterMap ofSegment?) => inner_of_mem_filterMap hc) hstart
  -- The stack has the last name on top.
  refine ⟨names.reverse, by simpa using hnames, ?_⟩
  rw [collapse, components_of_chars hs, List.foldl_cons,
    show collapseStep [] .root = [.root] from rfl, hfold, List.reverse_append, List.map_reverse]
  rfl

/-- Normalizing an absolute path gives a canonical one. -/
theorem canonical_normalize {p : Path} (h : p.isAbsolute = true) : p.normalize.Canonical := by
  obtain ⟨place, hplace, hcollapse⟩ := exists_collapse_of_isAbsolute h
  exact ⟨place, hplace, by rw [normalize, hcollapse, pathOf]⟩

/-- Names are put on the stack one by one. -/
theorem foldl_collapseStep_names (names : List String) (stack : List Component) :
    (names.map Component.name).foldl collapseStep stack = names.reverse.map .name ++ stack := by
  induction names generalizing stack with
  | nil => rfl
  | cons name names ih =>
    rw [List.map_cons, List.foldl_cons, ih, List.reverse_cons, List.map_append, List.append_assoc]
    rfl

/-- A canonical path is normal. -/
theorem Canonical.normalize_eq {p : Path} (h : p.Canonical) : p.normalize = p := by
  obtain ⟨place, hplace, rfl⟩ := h
  rw [normalize, components_pathOf hplace, collapse, List.foldl_cons,
    show collapseStep [] .root = [.root] from rfl, foldl_collapseStep_names, List.reverse_append,
    ← List.map_reverse, List.reverse_reverse]
  rfl

/-- A canonical path is absolute. -/
theorem Canonical.isAbsolute {p : Path} (h : p.Canonical) : p.isAbsolute = true := by
  obtain ⟨place, -, rfl⟩ := h
  exact isAbsolute_pathOf place

/-- A canonical path is not empty. -/
theorem Canonical.chars_ne_nil {p : Path} (h : p.Canonical) : p.chars ≠ [] := by
  obtain ⟨place, -, rfl⟩ := h
  rw [chars_pathOf]
  exact List.cons_ne_nil _ _

/-- A path seen from an absolute one is absolute. -/
theorem isAbsolute_join {p q : Path} (hp : p.isAbsolute = true) : (p.join q).isAbsolute = true := by
  by_cases hq : q.isAbsolute = true
  · rw [join, hq]
    exact hq
  · obtain ⟨s, hs⟩ := exists_chars_of_isAbsolute hp
    rw [Path.isAbsolute, chars_join (by simpa using hq) (by rw [hs]; simp), hs]
    split
    · rfl
    · rfl

/-! ### Paths seen from another -/

/-- The root stands only at the beginning of an absolute path. -/
theorem isAbsolute_iff_head? {p : Path} :
    p.isAbsolute = true ↔ p.components.head? = some .root := by
  constructor
  · intro h
    obtain ⟨s, hs⟩ := exists_chars_of_isAbsolute h
    rw [components_of_chars hs]
    rfl
  · intro h
    rw [components_eq_ofText] at h
    rcases ofText_cases p.chars with ⟨t, ht, -⟩ | ⟨segs, -, heq⟩ | heq
    · rw [isAbsolute, ht]
      rfl
    · rw [heq] at h
      cases h
    · -- Behind the first component there is no root.
      rw [heq] at h
      exact (inner_of_mem_filterMap (List.mem_of_head? h)).elim

/-- Being absolute does not hang on the spelling. -/
theorem isAbsolute_congr {p q : Path} (h : p.Same q) : p.isAbsolute = q.isAbsolute := by
  rw [Bool.eq_iff_iff, isAbsolute_iff_head?, isAbsolute_iff_head?,
    show p.components = q.components from h]

/-- The normal form does not hang on the spelling. -/
theorem normalize_congr {p q : Path} (h : p.Same q) : p.normalize = q.normalize := by
  rw [normalize, normalize, show p.components = q.components from h]

/-- The components that a relative path says when it stands behind another path. -/
theorem filterMap_segments_of_relative {q : Path} (hq : q.isAbsolute = false) :
    (segments q.chars).filterMap ofSegment? = q.components.filter (· ≠ .here) := by
  have hinner : ∀ {s : List Char}, ∀ c ∈ (segments s).filterMap ofSegment?, c ≠ .here := by
    rintro s c hc rfl
    exact inner_of_mem_filterMap hc
  rw [components_eq_ofText]
  rcases ofText_cases q.chars with ⟨t, ht, -⟩ | ⟨segs, hsegs, heq⟩ | heq
  · rw [isAbsolute, ht] at hq
    cases hq
  · -- Only a dot at the beginning says something, and only there.
    have hrest : (segments q.chars).filterMap ofSegment? = segs.filterMap ofSegment? := by
      rw [hsegs]
      rfl
    rw [heq, hrest, List.filter_cons_of_neg (by simp), List.filter_eq_self.2]
    intro c hc
    rw [← hrest] at hc
    simpa using hinner c hc
  · rw [heq, List.filter_eq_self.2]
    intro c hc
    simpa using hinner c hc

/-- The components of a relative path seen from another one. -/
theorem components_join {p q : Path} (hp : p.chars ≠ []) (hq : q.isAbsolute = false) :
    (p.join q).components = p.components ++ q.components.filter (· ≠ .here) := by
  rw [← filterMap_segments_of_relative hq, components_eq_ofText, components_eq_ofText,
    chars_join hq hp]
  by_cases hlast : p.chars.getLast? = some '/'
  · -- No separator is put in; the one at the end of `p` divides the two paths.
    obtain ⟨front, hfront⟩ := List.getLast?_eq_some_iff.1 hlast
    rw [if_pos hlast, hfront, List.append_assoc, List.singleton_append, ofText_append_separator]
  · rw [if_neg hlast, ofText_append_separator, ofText_concat_separator hp]

/-! ### Paths below a root -/

/-- Proper names are joined so that they are the segments again. -/
theorem segments_joined_names {place : List String} (hne : place ≠ [])
    (h : ∀ name ∈ place, ProperName name) :
    segments (joined (place.map String.toList)) = place.map String.toList := by
  refine segments_joined (by simpa using hne) fun segment hsegment => ?_
  obtain ⟨name, hname, rfl⟩ := List.mem_map.1 hsegment
  exact (h name hname).2.2

/-- A relative path of proper names is read back. -/
theorem ofText_joined_names {place : List String} (h : ∀ name ∈ place, ProperName name) :
    ofText (joined (place.map String.toList)) = place.map .name := by
  have hread := ofText_joined (inner_of_properName h)
  rwa [List.map_map] at hread

/-- Every proper name counts as a component. -/
theorem dropComponents_names {place : List String} (h : ∀ name ∈ place, ProperName name) (n : Nat) :
    dropComponents n (place.map String.toList) = (place.drop n).map String.toList := by
  induction place generalizing n with
  | nil => cases n <;> rfl
  | cons name place ih =>
    cases n with
    | zero => rfl
    | succ n =>
      rw [List.map_cons, dropComponents, (h name List.mem_cons_self).1]
      exact ih (fun name' hname' => h name' (List.mem_cons_of_mem name hname')) n

/-- No proper name is idle. -/
theorem dropWhile_isIdle_names {place : List String} (h : ∀ name ∈ place, ProperName name) :
    (place.map String.toList).dropWhile isIdle = place.map String.toList := by
  cases place with
  | nil => rfl
  | cons name place =>
    rw [List.map_cons, List.dropWhile_cons_of_neg (by simp [(h name List.mem_cons_self).1])]

/-- There is nothing to trim behind proper names. -/
theorem trimSegments_names {place : List String} (h : ∀ name ∈ place, ProperName name) :
    trimSegments (place.map String.toList) = place.map String.toList := by
  rw [trimSegments, ← List.map_reverse, dropWhile_isIdle_names (by simpa using h),
    ← List.map_reverse, List.reverse_reverse]

/-- The path to a place is cut behind the root. -/
theorem cut_pathOf (place : List String) :
    (pathOf place).cut = ⟨['/'], segments (joined (place.map String.toList))⟩ := by
  rw [cut, chars_pathOf]
  rfl

/-- The directory of an entry. -/
theorem parent?_pathOf {place : List String} (hplace : ∀ name ∈ place, ProperName name)
    {name : String} (hname : ProperName name) :
    (pathOf (place ++ [name])).parent? = some (pathOf place) := by
  have hnames : ∀ x ∈ place ++ [name], ProperName x :=
    List.forall_mem_append.2 ⟨hplace, List.forall_mem_singleton.2 hname⟩
  have hsegments : trimSegments (pathOf (place ++ [name])).cut.segments
      = (place ++ [name]).map String.toList := by
    rw [cut_pathOf, segments_joined_names (by simp) hnames, trimSegments_names hnames]
  unfold parent?
  dsimp only
  rw [hsegments, if_neg (by simp), Option.some_inj]
  apply ext_chars
  rw [chars_ofChars, chars_pathOf, cut_pathOf, Cut.text, List.map_append, List.map_singleton,
    List.dropLast_concat, trimSegments_names hplace]
  rfl

/-- What is left of a canonical path behind the root and some names. -/
theorem components_afterComponents {place : List String} (h : ∀ name ∈ place, ProperName name)
    (n : Nat) : ((pathOf place).afterComponents (n + 1)).components = (place.drop n).map .name := by
  have hdrop : ∀ name ∈ place.drop n, ProperName name :=
    fun name hname => h name (List.mem_of_mem_drop hname)
  rw [afterComponents, cut_pathOf]
  show (ofChars _).components = _
  rw [components_ofChars]
  -- The empty text has one segment, which is no name.
  by_cases hne : place = []
  · subst hne
    cases n <;> rfl
  · rw [segments_joined_names hne h]
    show ofText (joined (trimSegments
        ((dropComponents n (place.map String.toList)).dropWhile isIdle))) = _
    rw [dropComponents_names h, dropWhile_isIdle_names hdrop, trimSegments_names hdrop,
      ofText_joined_names hdrop]

/-- A place lies under the places that its path goes through. -/
theorem isUnder_pathOf {place rest : List String} (h : ∀ name ∈ place ++ rest, ProperName name) :
    (pathOf (place ++ rest)).isUnder (pathOf place) = true := by
  have hplace : ∀ name ∈ place, ProperName name :=
    fun name hname => h name (List.mem_append_left rest hname)
  rw [isUnder, components_pathOf h, components_pathOf hplace, List.isPrefixOf_iff_prefix,
    List.map_append]
  exact ⟨rest.map .name, rfl⟩

/-- A file below a root is left out because of a directory on the way to it. -/
theorem isExcluded_pathOf {place rest : List String} (h : ∀ name ∈ place ++ rest, ProperName name) :
    isExcluded (pathOf place) (pathOf (place ++ rest)) = rest.dropLast.any isExcludedName := by
  have hplace : ∀ name ∈ place, ProperName name :=
    fun name hname => h name (List.mem_append_left rest hname)
  have hunder := isUnder_pathOf h
  rw [isUnder] at hunder
  rw [isExcluded, relativeTo?, if_pos hunder, Option.getD_some, components_pathOf hplace,
    List.length_cons, components_afterComponents h, List.length_map, List.drop_left,
    ← List.map_dropLast, List.any_map]
  rfl

end Path

/-! ### Maps of canonical paths -/

/-- All the paths of a map are canonical. -/
def PathMap.Canonical {α : Type} (m : PathMap α) : Prop :=
  ∀ (p q : Path) (value : α), m.slot? p = some (q, value) → q.Canonical

namespace PathMap

variable {α : Type} {m n : PathMap α}

/-- The empty map has canonical keys only. -/
theorem canonical_empty : (empty : PathMap α).Canonical := by
  intro p q value h
  rw [slot?_empty] at h
  cases h

/-- Inserting a canonical path keeps the keys canonical. -/
theorem Canonical.insert (h : m.Canonical) {p : Path} (hp : p.Canonical) (value : α) :
    (m.insert p value).Canonical := by
  intro x q value' hslot
  rw [slot?_insert] at hslot
  split at hslot
  · -- The spelling that is there already stays.
    cases hold : m.slot? p with
    | none =>
      rw [hold] at hslot
      cases hslot
      exact hp
    | some old =>
      rw [hold] at hslot
      cases hslot
      exact h p old.1 old.2 hold
  · exact h x q value' hslot

/-- Erasing keeps the keys canonical. -/
theorem Canonical.erase (h : m.Canonical) (p : Path) : (m.erase p).Canonical := by
  intro x q value hslot
  rw [slot?_erase] at hslot
  split at hslot
  · cases hslot
  · exact h x q value hslot

/-- Maps of canonical paths are equal if they have the same values. -/
theorem Canonical.ext (hm : m.Canonical) (hn : n.Canonical) (h : ∀ p, m.get? p = n.get? p) :
    m = n := by
  refine ext_slot? fun p => ?_
  have hp := h p
  unfold get? at hp
  cases hmp : m.slot? p with
  | none =>
    rw [hmp] at hp
    exact (Option.map_eq_none_iff.1 hp.symm).symm
  | some entry =>
    rw [hmp] at hp
    obtain ⟨other, hother, hvalue⟩ := Option.map_eq_some_iff.1 hp.symm
    -- Both maps have the path in a canonical spelling, of which there is one.
    have hsame : entry.1.Same other.1 := (same_of_slot? hmp).trans (same_of_slot? hother).symm
    rw [hother, Option.some.injEq]
    exact Prod.ext ((hm p _ _ hmp).eq_of_same (hn p _ _ hother) hsame) hvalue.symm

/-- The paths of such a map are canonical. -/
theorem Canonical.of_mem_paths (h : m.Canonical) {p : Path} (hp : p ∈ m.paths) : p.Canonical := by
  obtain ⟨entry, hentry, rfl⟩ := List.mem_map.1 hp
  exact h entry.1 entry.1 entry.2 (mem_toList.1 hentry)

end PathMap

/-- Sets of canonical paths are equal if they have the same members. -/
theorem PathSet.ext_contains {s t : PathSet} (hs : s.Canonical) (ht : t.Canonical)
    (h : ∀ p : Path, s.contains p = t.contains p) : s = t := by
  refine hs.ext ht fun p => ?_
  have hp := h p
  rw [PathMap.contains_eq_isSome_get?, PathMap.contains_eq_isSome_get?] at hp
  cases hsp : s.get? p with
  | none =>
    rw [hsp] at hp
    exact (Option.not_isSome_iff_eq_none.1 (by simp [← hp])).symm
  | some _ =>
    rw [hsp] at hp
    obtain ⟨value, hvalue⟩ := Option.isSome_iff_exists.1 hp.symm
    rw [hvalue]

/-- The set of canonical paths has canonical members. -/
theorem PathSet.canonical_ofList {ps : List Path} (h : ∀ p ∈ ps, p.Canonical) :
    (PathSet.ofList ps).Canonical := by
  induction ps with
  | nil => exact PathMap.canonical_empty
  | cons p ps ih =>
    exact (ih fun q hq => h q (List.mem_cons_of_mem p hq)).insert (h p List.mem_cons_self) ()

end BlastRadius
