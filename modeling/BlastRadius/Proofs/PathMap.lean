import BlastRadius.Path.Map
import Mathlib.Data.List.Nodup
import Mathlib.Data.List.Perm.Subperm

namespace BlastRadius

/-!
# Lists, maps and sets of paths up to spelling

Paths are compared by components, so a list has a path when it has some spelling of it.

* `Path.precedes_total`, `Path.precedes_trans`, `Path.same_of_precedes` — the order of paths is
  linear.
* `Path.Before` — the strict order of paths.
* `Path.Listed` — a list has a path, in some spelling.
* `Path.Distinct` — a list has no path twice.
* `PathMap.listed_paths`, `PathMap.distinct_paths` — the paths of a map are the ones that it
  contains, each once.
* `PathSet.contains_ofList` — the members of the set of a list.
-/

namespace Path

/-- A path is the same as itself. -/
theorem Same.refl (p : Path) : p.Same p := rfl

/-- Being the same path goes both ways. -/
theorem Same.symm {p q : Path} (h : p.Same q) : q.Same p := Eq.symm h

/-- Being the same path carries over. -/
theorem Same.trans {p q r : Path} (h : p.Same q) (h' : q.Same r) : p.Same r := Eq.trans h h'

/-- Being the same path goes both ways, as an equivalence. -/
theorem same_comm {p q : Path} : p.Same q ↔ q.Same p := ⟨Same.symm, Same.symm⟩

/-! ### Order -/

/-- Of two paths, one precedes the other. -/
theorem precedes_total (p q : Path) : (p.precedes q || q.precedes p) = true := by
  unfold precedes
  rw [Std.OrientedOrd.eq_swap (a := q.components)]
  cases compare p.components q.components <;> rfl

/-- The order of paths is transitive. -/
theorem precedes_trans {p q r : Path} (h : p.precedes q = true) (h' : q.precedes r = true) :
    p.precedes r = true :=
  Std.TransCmp.isLE_trans h h'

/-- Paths that precede each other are the same. -/
theorem same_of_precedes {p q : Path} (h : p.precedes q = true) (h' : q.precedes p = true) :
    p.Same q :=
  Std.LawfulEqOrd.eq_of_compare (Std.OrientedCmp.isLE_antisymm h h')

/-- `p` comes before `q`, which is another path. -/
def Before (p q : Path) : Prop :=
  compare p.components q.components = .lt

instance (p q : Path) : Decidable (p.Before q) :=
  inferInstanceAs (Decidable (compare p.components q.components = .lt))

/-- A path is not the same as one that comes after it. -/
theorem Before.not_same {p q : Path} (h : p.Before q) : ¬p.Same q := by
  intro hsame
  have heq : compare p.components q.components = .eq := Std.LawfulEqOrd.compare_eq_iff_eq.2 hsame
  rw [Before, heq] at h
  cases h

/-- Two paths do not come before each other. -/
theorem Before.asymm {p q : Path} (h : p.Before q) : ¬q.Before p := by
  intro h'
  rw [Before, Std.OrientedCmp.gt_of_lt h] at h'
  cases h'

/-! ### Lists -/

/-- A list has a path, in some spelling. -/
def Listed (p : Path) (ps : List Path) : Prop :=
  ∃ q ∈ ps, q.Same p

instance (p : Path) (ps : List Path) : Decidable (p.Listed ps) :=
  inferInstanceAs (Decidable (∃ q ∈ ps, q.Same p))

/-- A path is listed if its components are those of a path in the list. -/
theorem listed_iff_mem_map {p : Path} {ps : List Path} :
    p.Listed ps ↔ p.components ∈ ps.map (·.components) := by
  rw [List.mem_map]
  exact Iff.rfl

/-- Nothing is listed in the empty list. -/
@[simp] theorem not_listed_nil (p : Path) : ¬p.Listed [] := by
  simp [Listed]

/-- A path is listed if it is the first one or listed behind it. -/
theorem listed_cons {p q : Path} {ps : List Path} :
    p.Listed (q :: ps) ↔ q.Same p ∨ p.Listed ps := by
  simp [Listed]

/-- A path is listed in two lists together if it is in one of them. -/
theorem listed_append {p : Path} {ps qs : List Path} :
    p.Listed (ps ++ qs) ↔ p.Listed ps ∨ p.Listed qs := by
  simp [listed_iff_mem_map]

/-- The order of a list does not matter for what is listed. -/
theorem listed_reverse {p : Path} {ps : List Path} : p.Listed ps.reverse ↔ p.Listed ps := by
  simp [Listed]

/-- A path in a list is listed in it. -/
theorem listed_of_mem {p : Path} {ps : List Path} (h : p ∈ ps) : p.Listed ps :=
  ⟨p, h, Same.refl p⟩

/-- Whether a path is listed does not hang on its spelling. -/
theorem listed_congr {p q : Path} (h : p.Same q) {ps : List Path} : p.Listed ps ↔ q.Listed ps := by
  rw [listed_iff_mem_map, listed_iff_mem_map, show p.components = q.components from h]

/-- A test that does not depend on the spelling can be made on any spelling. -/
theorem listed_filter {p : Path} {ps : List Path} {test : Path → Bool}
    (htest : ∀ q, q.Same p → test q = test p) :
    p.Listed (ps.filter test) ↔ p.Listed ps ∧ test p = true := by
  constructor
  · rintro ⟨q, hq, hsame⟩
    rw [List.mem_filter] at hq
    exact ⟨⟨q, hq.1, hsame⟩, by rw [← htest q hsame]; exact hq.2⟩
  · rintro ⟨⟨q, hq, hsame⟩, hp⟩
    exact ⟨q, List.mem_filter.2 ⟨hq, by rw [htest q hsame]; exact hp⟩, hsame⟩

/-- A list has no path twice. -/
def Distinct (ps : List Path) : Prop :=
  ps.Pairwise fun p q => ¬p.Same q

/-- Paths are distinct if their components are without repetition. -/
theorem distinct_iff_nodup {ps : List Path} : Distinct ps ↔ (ps.map (·.components)).Nodup := by
  rw [Distinct, List.Nodup, List.pairwise_map]
  exact Iff.rfl

/-- Some of distinct paths are distinct. -/
theorem Distinct.filter {ps : List Path} (h : Distinct ps) (test : Path → Bool) :
    Distinct (ps.filter test) :=
  List.Pairwise.filter test h

/-- Distinct paths are distinct in any order. -/
theorem Distinct.perm {ps qs : List Path} (h : Distinct ps) (hperm : ps.Perm qs) : Distinct qs := by
  rw [distinct_iff_nodup] at h ⊢
  exact (hperm.map (·.components)).nodup_iff.1 h

/-- Two lists together are distinct if both are and no path is listed in both. -/
theorem distinct_append {ps qs : List Path} :
    Distinct (ps ++ qs) ↔ Distinct ps ∧ Distinct qs ∧ ∀ p : Path, p.Listed ps → ¬p.Listed qs := by
  rw [Distinct, List.pairwise_append]
  refine and_congr_right fun _ => and_congr_right fun _ => ?_
  constructor
  · rintro h p ⟨a, ha, hap⟩ ⟨b, hb, hbp⟩
    exact h a ha b hb (hap.trans hbp.symm)
  · intro h a ha b hb hab
    exact h a (listed_of_mem ha) ⟨b, hb, hab.symm⟩

/-- A list without repetitions is no longer than a list that has all its paths. -/
theorem length_le_of_distinct {ps qs : List Path} (hps : Distinct ps)
    (hsub : ∀ x : Path, x.Listed ps → x.Listed qs) : ps.length ≤ qs.length := by
  -- Up to spelling this is a fact about lists of components.
  have hsubset : ps.map (·.components) ⊆ qs.map (·.components) := by
    intro key hkey
    obtain ⟨q, hq, rfl⟩ := List.mem_map.1 hkey
    exact listed_iff_mem_map.1 (hsub q (listed_of_mem hq))
  have hle := (List.subperm_of_subset (distinct_iff_nodup.1 hps) hsubset).length_le
  rwa [List.length_map, List.length_map] at hle

end Path

open BlastRadius.Path

namespace PathMap

variable {α : Type}

/-- The entry of a path does not hang on its spelling. -/
theorem slot?_congr (m : PathMap α) {p q : Path} (h : p.Same q) : m.slot? p = m.slot? q := by
  rw [slot?, slot?, show p.components = q.components from h]

/-- The value of a path does not hang on its spelling. -/
theorem get?_congr (m : PathMap α) {p q : Path} (h : p.Same q) : m.get? p = m.get? q := by
  rw [get?, get?, m.slot?_congr h]

/-- Whether a path is a key does not hang on its spelling. -/
theorem contains_congr (m : PathMap α) {p q : Path} (h : p.Same q) :
    m.contains p = m.contains q := by
  rw [contains, contains, m.slot?_congr h]

/-- A path is a key if it has a value. -/
theorem contains_eq_isSome_get? (m : PathMap α) (p : Path) : m.contains p = (m.get? p).isSome := by
  simp [contains, get?]

/-- A path is a key just if there is a value for it. -/
theorem contains_iff_exists_get? {m : PathMap α} {p : Path} :
    m.contains p = true ↔ ∃ value, m.get? p = some value := by
  rw [contains_eq_isSome_get?, Option.isSome_iff_exists]

/-- The empty map has no keys. -/
@[simp] theorem contains_empty (p : Path) : (empty : PathMap α).contains p = false := by
  simp [contains]

/-- Inserting adds one key. -/
theorem contains_insert (m : PathMap α) (p q : Path) (value : α) :
    (m.insert p value).contains q = (decide (p.Same q) || m.contains q) := by
  rw [contains, slot?_insert]
  by_cases h : p.Same q
  · simp [h]
  · simp [h, contains]

/-- Erasing takes one key away. -/
theorem contains_erase (m : PathMap α) (p q : Path) :
    (m.erase p).contains q = (!decide (p.Same q) && m.contains q) := by
  rw [contains, slot?_erase]
  by_cases h : p.Same q
  · simp [h]
  · simp [h, contains]

/-- Erasing what is not there changes nothing. -/
theorem erase_of_not_contains {m : PathMap α} {p : Path} (h : ¬m.contains p = true) :
    m.erase p = m := by
  have hnone : m.slot? p = none := Option.not_isSome_iff_eq_none.1 h
  refine ext_slot? fun q => ?_
  rw [slot?_erase]
  split
  · next hsame => rw [← m.slot?_congr hsame, hnone]
  · rfl

/-! ### Changes of a map one after the other -/

section Changes

variable {p q : Path}

/-- Two keys can be erased in either order. -/
theorem erase_comm (m : PathMap α) (p q : Path) : (m.erase p).erase q = (m.erase q).erase p := by
  refine ext_slot? fun r => ?_
  simp only [slot?_erase]
  by_cases hp : p.Same r
  · simp [hp]
  · simp [hp]

/-- Erasing a key twice is as good as once. -/
theorem erase_erase (m : PathMap α) (p : Path) : (m.erase p).erase p = m.erase p :=
  erase_of_not_contains (by simp [contains_erase, Same.refl])

/-- Different paths can be put in and taken out in any order. -/
theorem erase_insert_of_ne (m : PathMap α) (h : ¬p.Same q) (value : α) :
    (m.insert p value).erase q = (m.erase q).insert p value := by
  refine ext_slot? fun r => ?_
  have hqp : ¬q.Same p := fun hqp => h hqp.symm
  rw [slot?_erase, slot?_insert, slot?_insert, slot?_erase, slot?_erase, if_neg hqp]
  by_cases hpr : p.Same r
  · have hqr : ¬q.Same r := fun hqr => h (hpr.trans hqr.symm)
    rw [if_neg hqr, if_pos hpr, if_pos hpr]
  · rw [if_neg hpr, if_neg hpr]

/-- What is inserted and erased again leaves no trace. -/
theorem erase_insert_self (m : PathMap α) (p : Path) (value : α) :
    (m.insert p value).erase p = m.erase p := by
  refine ext_slot? fun r => ?_
  rw [slot?_erase, slot?_erase, slot?_insert]
  by_cases hpr : p.Same r
  · rw [if_pos hpr, if_pos hpr]
  · rw [if_neg hpr, if_neg hpr, if_neg hpr]

/-- Values can be put under different paths in any order. -/
theorem insert_comm (m : PathMap α) (h : ¬p.Same q) (value value' : α) :
    (m.insert p value).insert q value' = (m.insert q value').insert p value := by
  refine ext_slot? fun r => ?_
  have hqp : ¬q.Same p := fun hqp => h hqp.symm
  simp only [slot?_insert, if_neg h, if_neg hqp]
  by_cases hpr : p.Same r
  · have hqr : ¬q.Same r := fun hqr => h (hpr.trans hqr.symm)
    rw [if_neg hqr, if_pos hpr, if_pos hpr]
  · rw [if_neg hpr, if_neg hpr]

/-- Of two values put under one path the second stays. -/
theorem insert_insert (m : PathMap α) (p : Path) (value value' : α) :
    (m.insert p value).insert p value' = m.insert p value' := by
  refine ext_slot? fun r => ?_
  simp only [slot?_insert, if_pos (Same.refl p)]
  by_cases hpr : p.Same r
  · rw [if_pos hpr, if_pos hpr]
    rfl
  · rw [if_neg hpr, if_neg hpr, if_neg hpr]

end Changes

/-! ### The entries of a map -/

/-- The spelling that stands in an entry is one of the path asked for. -/
theorem same_of_slot? {m : PathMap α} {p : Path} {entry : Path × α} (h : m.slot? p = some entry) :
    entry.1.Same p :=
  m.keyed p.components entry h

/-- The list of a map has the entries that are found under their own paths. -/
theorem mem_toList {m : PathMap α} {entry : Path × α} :
    entry ∈ m.toList ↔ m.slot? entry.1 = some entry := by
  rw [toList, List.mem_map]
  constructor
  · rintro ⟨⟨key, e⟩, hmem, rfl⟩
    -- The path in an entry has the components under which the entry stands.
    have hget : m.table[key]? = some e := Std.ExtTreeMap.mem_toList_iff_getElem?_eq_some.1 hmem
    rw [slot?, m.keyed key e hget]
    exact hget
  · intro h
    exact ⟨(entry.1.components, entry), Std.ExtTreeMap.mem_toList_iff_getElem?_eq_some.2 h, rfl⟩

/-- The entry under a path is in the list of entries. -/
theorem mem_toList_of_slot? {m : PathMap α} {p : Path} {entry : Path × α}
    (h : m.slot? p = some entry) : entry ∈ m.toList := by
  rw [mem_toList, m.slot?_congr (same_of_slot? h)]
  exact h

/-- The list of a map has as many entries as the map. -/
theorem length_toList (m : PathMap α) : m.toList.length = m.size := by
  rw [toList, List.length_map, Std.ExtTreeMap.length_toList, size]

/-- A map has as many paths as entries. -/
theorem length_paths (m : PathMap α) : m.paths.length = m.size := by
  rw [paths, List.length_map, length_toList]

/-- The paths of a map are those that it contains. -/
theorem listed_paths {m : PathMap α} {p : Path} : p.Listed m.paths ↔ m.contains p = true := by
  rw [contains, Option.isSome_iff_exists]
  constructor
  · rintro ⟨q, hq, hsame⟩
    obtain ⟨entry, hentry, rfl⟩ := List.mem_map.1 hq
    refine ⟨entry, ?_⟩
    rw [← m.slot?_congr hsame]
    exact mem_toList.1 hentry
  · rintro ⟨entry, hentry⟩
    exact ⟨entry.1, List.mem_map_of_mem (mem_toList_of_slot? hentry), same_of_slot? hentry⟩

/-- The components of the paths of a map are the keys of its table. -/
theorem map_components_paths (m : PathMap α) : m.paths.map (·.components) = m.table.keys := by
  rw [paths, toList, List.map_map, List.map_map, ← Std.ExtTreeMap.map_fst_toList_eq_keys]
  refine List.map_congr_left fun entry hentry => ?_
  exact m.keyed entry.1 entry.2 (Std.ExtTreeMap.mem_toList_iff_getElem?_eq_some.1 hentry)

/-- The paths of a map are in order, each once. -/
theorem increasing_paths (m : PathMap α) : m.paths.Pairwise Path.Before := by
  have hkeys := Std.ExtTreeMap.ordered_keys (t := m.table)
  rwa [← map_components_paths, List.pairwise_map] at hkeys

/-- The paths of a map are in order: none of them precedes one before it. -/
theorem ordered_paths (m : PathMap α) : m.paths.Pairwise fun p q => q.precedes p = false := by
  refine m.increasing_paths.imp fun {p q} hpq => ?_
  rw [Path.precedes, Std.OrientedCmp.gt_of_lt hpq]
  rfl

/-- No path is a key twice. -/
theorem distinct_paths (m : PathMap α) : Distinct m.paths := by
  rw [distinct_iff_nodup, map_components_paths]
  refine List.Pairwise.imp ?_ (Std.ExtTreeMap.distinct_keys (t := m.table))
  intro a b hab heq
  exact hab (Std.LawfulEqOrd.compare_eq_iff_eq.2 heq)

/-- A value of a map stands under the spelling that the map has for it. -/
theorem mem_values {m : PathMap α} {value : α} :
    value ∈ m.values ↔ ∃ p, m.get? p = some value := by
  rw [values, List.mem_map]
  constructor
  · rintro ⟨entry, hentry, rfl⟩
    exact ⟨entry.1, by rw [get?, mem_toList.1 hentry]; rfl⟩
  · rintro ⟨p, hp⟩
    obtain ⟨entry, hentry, rfl⟩ := Option.map_eq_some_iff.1 hp
    exact ⟨entry, mem_toList_of_slot? hentry, rfl⟩

/-- Maps that have the same values under all paths have them under all keys. -/
theorem map_snd_table_congr {m n : PathMap α} (h : ∀ p, m.get? p = n.get? p)
    (key : List Component) : m.table[key]?.map (·.2) = n.table[key]?.map (·.2) := by
  -- A key that is in one of the maps is that of the path that stands there.
  have hpath : ∀ p : Path, p.components = key →
      m.table[key]?.map (·.2) = n.table[key]?.map (·.2) := by
    rintro p rfl
    exact h p
  cases hm : m.table[key]? with
  | some entry =>
    rw [← hm]
    exact hpath entry.1 (m.keyed key entry hm)
  | none =>
    cases hn : n.table[key]? with
    | some entry =>
      rw [← hm, ← hn]
      exact hpath entry.1 (n.keyed key entry hn)
    | none => rfl

/-- Maps that have the same values under all paths have the same values in order. -/
theorem values_congr {m n : PathMap α} (h : ∀ p, m.get? p = n.get? p) : m.values = n.values := by
  have hvalues : ∀ m : PathMap α,
      m.values = (m.table.map fun _ entry => entry.2).toList.map (·.2) := by
    intro m
    rw [Std.ExtTreeMap.toList_map, List.map_map, values, toList, List.map_map]
    rfl
  have htables : (m.table.map fun _ entry => entry.2) = n.table.map fun _ entry => entry.2 := by
    refine Std.ExtTreeMap.ext_getElem? fun key => ?_
    rw [Std.ExtTreeMap.getElem?_map, Std.ExtTreeMap.getElem?_map]
    exact map_snd_table_congr h key
  rw [hvalues, hvalues, htables]

/-- A map has as many values as entries. -/
theorem length_values (m : PathMap α) : m.values.length = m.size := by
  rw [values, List.length_map, length_toList]

end PathMap

/-! ### Sets -/

namespace PathSet

/-- Adding to a set adds one member. -/
theorem contains_add (s : PathSet) (p q : Path) :
    (s.add p).contains q = (decide (p.Same q) || s.contains q) :=
  s.contains_insert p q ()

/-- Adding what is there changes nothing. -/
theorem add_of_contains {s : PathSet} {p : Path} (h : s.contains p = true) : s.add p = s := by
  obtain ⟨entry, hentry⟩ := Option.isSome_iff_exists.1 h
  refine PathMap.ext_slot? fun q => ?_
  rw [add, PathMap.slot?_insert, hentry]
  split
  · next hsame => rw [← s.slot?_congr hsame, hentry]; rfl
  · rfl

/-- Adding paths one after the other adds those that are listed. -/
theorem contains_foldl_add (ps : List Path) (s : PathSet) (p : Path) :
    (ps.foldl PathSet.add s).contains p = true ↔ s.contains p = true ∨ p.Listed ps := by
  induction ps generalizing s with
  | nil => simp
  | cons q ps ih =>
    rw [List.foldl_cons, ih, contains_add, listed_cons]
    simp only [Bool.or_eq_true, decide_eq_true_eq]
    tauto

/-- The members of the set of a list are the paths of the list. -/
theorem contains_ofList (ps : List Path) (p : Path) :
    (PathSet.ofList ps).contains p = true ↔ p.Listed ps := by
  induction ps with
  | nil => simp [ofList]
  | cons q ps ih =>
    rw [listed_cons, ← ih, show ofList (q :: ps) = add (ofList ps) q from rfl, contains_add]
    simp

/-- The set of a list has the paths that are listed. -/
theorem listed_paths_ofList {ps : List Path} {p : Path} :
    p.Listed (PathSet.ofList ps).paths ↔ p.Listed ps := by
  rw [PathMap.listed_paths, contains_ofList]

end PathSet

end BlastRadius
