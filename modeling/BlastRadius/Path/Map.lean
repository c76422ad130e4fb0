import BlastRadius.Path.Basic
import Std.Data.ExtTreeMap

namespace BlastRadius

/-!
# Maps and sets of paths

Maps of paths are ordered by components. Putting a value under a path that is there already keeps
the spelling that is there.

* `PathMap` — a map from paths, equal to another one exactly when they have the same entries.
* `PathMap.get?_insert`, `PathMap.get?_erase` — what stands in a changed map.
* `PathSet` — a set of paths.
-/

/-- A map from paths, ordered by components. Every entry stands under the components of its path. -/
structure PathMap (α : Type) where
  table : Std.ExtTreeMap (List Component) (Path × α)
  keyed : ∀ (key : List Component) (entry : Path × α),
    table[key]? = some entry → entry.1.components = key

namespace PathMap

variable {α : Type}

/-- The map without entries. -/
def empty : PathMap α :=
  ⟨∅, by simp⟩

instance : Inhabited (PathMap α) := ⟨empty⟩

/-- The entry under a path: the path as it is spelled there, and the value. -/
def slot? (m : PathMap α) (p : Path) : Option (Path × α) :=
  m.table[p.components]?

/-- The value under a path. -/
def get? (m : PathMap α) (p : Path) : Option α :=
  (m.slot? p).map (·.2)

/-- Whether there is a value under a path. -/
def contains (m : PathMap α) (p : Path) : Bool :=
  (m.slot? p).isSome

/-- The map with a value under a path, spelled as it was if it was there. -/
def insert (m : PathMap α) (p : Path) (value : α) : PathMap α where
  table := m.table.insert p.components (((m.slot? p).map (·.1)).getD p, value)
  keyed := by
    intro key entry h
    rw [Std.ExtTreeMap.getElem?_insert] at h
    split at h
    · next heq =>
      have hkey : p.components = key := Std.LawfulEqOrd.eq_of_compare heq
      cases hentry : m.slot? p with
      | none =>
        rw [hentry] at h
        cases h
        exact hkey
      | some old =>
        rw [hentry] at h
        cases h
        exact (m.keyed _ _ hentry).trans hkey
    · exact m.keyed key entry h

/-- The map without the entry under a path. -/
def erase (m : PathMap α) (p : Path) : PathMap α where
  table := m.table.erase p.components
  keyed := by
    intro key entry h
    rw [Std.ExtTreeMap.getElem?_erase] at h
    split at h
    · cases h
    · exact m.keyed key entry h

/-- The entries in the order of their paths. -/
def toList (m : PathMap α) : List (Path × α) :=
  m.table.toList.map (·.2)

/-- The paths of a map in order. -/
def paths (m : PathMap α) : List Path :=
  m.toList.map (·.1)

/-- The values of a map in the order of their paths. -/
def values (m : PathMap α) : List α :=
  m.toList.map (·.2)

/-- The number of entries. -/
def size (m : PathMap α) : Nat :=
  m.table.size

/-- Maps with the same entries are equal. -/
theorem ext_slot? {m n : PathMap α} (h : ∀ p, m.slot? p = n.slot? p) : m = n := by
  -- Every key of a table is the components of the path that is stored under it.
  have key_eq : ∀ key : List Component, m.table[key]? = n.table[key]? := by
    intro key
    cases hm : m.table[key]? with
    | some entry =>
      have hkey := m.keyed key entry hm
      have := h entry.1
      rw [slot?, slot?, hkey, hm] at this
      exact this
    | none =>
      cases hn : n.table[key]? with
      | none => rfl
      | some entry =>
        have hkey := n.keyed key entry hn
        have := h entry.1
        rw [slot?, slot?, hkey, hm, hn] at this
        exact this
  cases m with
  | mk s hs =>
    cases n with
    | mk t ht =>
      have : s = t := Std.ExtTreeMap.ext_getElem? key_eq
      subst this
      rfl

/-! ### Reading a changed map -/

/-- The empty map has no entry. -/
@[simp] theorem slot?_empty (p : Path) : (empty : PathMap α).slot? p = none := by
  simp [slot?, empty]

/-- Inserting changes the entry of one path, and keeps the spelling that it had. -/
theorem slot?_insert (m : PathMap α) (p q : Path) (value : α) :
    (m.insert p value).slot? q
      = if p.Same q then some (((m.slot? p).map (·.1)).getD p, value) else m.slot? q := by
  have hiff : compare p.components q.components = .eq ↔ p.Same q :=
    Std.LawfulEqOrd.compare_eq_iff_eq
  rw [slot?, insert, Std.ExtTreeMap.getElem?_insert]
  simp only [hiff]
  rfl

/-- Erasing empties the entry of one path. -/
theorem slot?_erase (m : PathMap α) (p q : Path) :
    (m.erase p).slot? q = if p.Same q then none else m.slot? q := by
  have hiff : compare p.components q.components = .eq ↔ p.Same q :=
    Std.LawfulEqOrd.compare_eq_iff_eq
  rw [slot?, erase, Std.ExtTreeMap.getElem?_erase]
  simp only [hiff]
  rfl

/-- The empty map has no value. -/
@[simp] theorem get?_empty (p : Path) : (empty : PathMap α).get? p = none := by
  simp [get?]

/-- Inserting changes the value of one path, in whatever spelling it is looked up. -/
theorem get?_insert (m : PathMap α) (p q : Path) (value : α) :
    (m.insert p value).get? q = if p.Same q then some value else m.get? q := by
  rw [get?, slot?_insert]
  split
  · rfl
  · rfl

/-- Erasing takes away the value of one path. -/
theorem get?_erase (m : PathMap α) (p q : Path) :
    (m.erase p).get? q = if p.Same q then none else m.get? q := by
  rw [get?, slot?_erase]
  split
  · rfl
  · rfl

end PathMap

/-- A set of paths, ordered by components. -/
abbrev PathSet : Type :=
  PathMap Unit

namespace PathSet

/-- The set with one more path. -/
def add (s : PathSet) (p : Path) : PathSet :=
  s.insert p ()

/-- The set of the paths in a list. Of several spellings of one path the last stays. -/
def ofList (ps : List Path) : PathSet :=
  ps.foldr (fun p s => add s p) PathMap.empty

end PathSet

end BlastRadius
