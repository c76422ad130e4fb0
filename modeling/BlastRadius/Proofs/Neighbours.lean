import BlastRadius.Proofs.Adjacency

namespace BlastRadius.Graph

/-!
# The neighbours of a file after a change

`Adjacency` says which files are neighbours after a change. This file says how the sets of
neighbours themselves come out, the spelling of their members included.

* `get?_withdraw`, `get?_enter`, `get?_ensure` — one change of one set.
* `dependentsAfter`, `dependenciesAfter` — the neighbours of a file after an analysis of another
  one, given those before it. Putting a file in does this under every path
  (`get?_dependents_addNode`, `get?_dependencies_addNode`).
* `get?_dependents_removeNode`, `get?_dependencies_removeNode` — the same for taking a file out.
-/

open BlastRadius.Path

variable {sets : PathMap PathSet} {p a member : Path}

/-! ### One set -/

/-- Withdrawing changes one set. -/
theorem get?_withdraw :
    (withdraw sets p member).get? a
      = if p.Same a then (sets.get? a).map (·.erase member) else sets.get? a := by
  unfold withdraw
  by_cases hpa : p.Same a
  · rw [if_pos hpa, sets.get?_congr hpa]
    cases hget : sets.get? a with
    | none => exact hget
    | some set => rw [PathMap.get?_insert, if_pos hpa]; rfl
  · rw [if_neg hpa]
    cases sets.get? p with
    | none => rfl
    | some set => rw [PathMap.get?_insert, if_neg hpa]

/-- Entering changes one set, and makes it if there is none. -/
theorem get?_enter :
    (enter sets p member).get? a
      = if p.Same a then some (((sets.get? a).getD .empty).add member) else sets.get? a := by
  unfold enter
  rw [PathMap.get?_insert]
  by_cases hpa : p.Same a
  · rw [if_pos hpa, if_pos hpa, sets.get?_congr hpa]
  · rw [if_neg hpa, if_neg hpa]

/-- Ensuring makes an empty set if there is none. -/
theorem get?_ensure :
    (ensure sets p).get? a
      = if p.Same a then some ((sets.get? a).getD .empty) else sets.get? a := by
  unfold ensure
  by_cases hp : sets.contains p = true
  · obtain ⟨set, hset⟩ := PathMap.contains_iff_exists_get?.1 hp
    rw [if_pos hp]
    by_cases hpa : p.Same a
    · rw [if_pos hpa, ← sets.get?_congr hpa, hset]
      rfl
    · rw [if_neg hpa]
  · rw [if_neg hp, PathMap.get?_insert]
    by_cases hpa : p.Same a
    · have hnone : sets.get? a = none := by
        rw [← sets.get?_congr hpa]
        rwa [PathMap.contains_eq_isSome_get?, Option.not_isSome_iff_eq_none] at hp
      rw [if_pos hpa, if_pos hpa, hnone]
      rfl
    · rw [if_neg hpa, if_neg hpa]

/-! ### The same change under every path of a list -/

/-- A change that is made once under a path and changes nothing when it is made again can be made
    under every path of a list. -/
theorem get?_foldl {step : PathMap PathSet → Path → PathMap PathSet}
    {f : Option PathSet → Option PathSet}
    (hstep : ∀ sets p a, (step sets p).get? a = if p.Same a then f (sets.get? a) else sets.get? a)
    (hagain : ∀ o, f (f o) = f o) (ps : List Path) (sets : PathMap PathSet) (a : Path) :
    (ps.foldl step sets).get? a = if a.Listed ps then f (sets.get? a) else sets.get? a := by
  induction ps generalizing sets with
  | nil => simp
  | cons p ps ih =>
    rw [List.foldl_cons, ih, hstep]
    by_cases hpa : p.Same a
    · simp [listed_cons, hpa, hagain]
    · simp [listed_cons, hpa]

/-- Withdrawing from many sets. -/
theorem get?_foldl_withdraw (ps : List Path) :
    (ps.foldl (fun sets p => withdraw sets p member) sets).get? a
      = if a.Listed ps then (sets.get? a).map (·.erase member) else sets.get? a := by
  refine get?_foldl (f := Option.map (·.erase member)) (fun _ _ _ => get?_withdraw)
    (fun o => ?_) ps sets a
  cases o with
  | none => rfl
  | some set => exact congrArg some (set.erase_erase member)

/-- Entering many sets. -/
theorem get?_foldl_enter (ps : List Path) :
    (ps.foldl (fun sets p => enter sets p member) sets).get? a
      = if a.Listed ps then some (((sets.get? a).getD .empty).add member) else sets.get? a := by
  refine get?_foldl (f := fun o => some ((o.getD .empty).add member)) (fun _ _ _ => get?_enter)
    (fun o => ?_) ps sets a
  exact congrArg some (PathSet.add_of_contains (by simp [PathSet.contains_add, Same.refl]))

/-- Ensuring many sets. -/
theorem get?_foldl_ensure (ps : List Path) :
    (ps.foldl ensure sets).get? a
      = if a.Listed ps then some ((sets.get? a).getD .empty) else sets.get? a :=
  get?_foldl (f := fun o => some (o.getD .empty)) (fun _ _ _ => get?_ensure)
    (fun _ => rfl) ps sets a

/-! ### Putting a file in -/

variable {g : Graph} {node : FileNode}

/-- Who imports `a` after an analysis, given who did before it. -/
def dependentsAfter (node : FileNode) (a : Path) (before : Option PathSet) : Option PathSet :=
  let others := before.map (·.erase node.path)
  if a.Listed node.targets then some ((others.getD .empty).add node.path)
  else if node.path.Same a then some (others.getD .empty)
  else others

/-- What `a` imports after an analysis, given what it did before it. -/
def dependenciesAfter (node : FileNode) (a : Path) (before : Option PathSet) : Option PathSet :=
  if node.path.Same a then some (PathSet.ofList node.targets)
  else if a.Listed node.targets then some (before.getD .empty)
  else before

/-- Taking a file out of the dependents of a file that it does not import changes nothing. -/
theorem map_erase_dependents (h : g.Consistent) (hpa : ¬g.Imports p a) :
    (g.dependents.get? a).map (·.erase p) = g.dependents.get? a := by
  cases hget : g.dependents.get? a with
  | none => rfl
  | some set =>
    refine congrArg some (PathMap.erase_of_not_contains fun hmem => hpa ?_)
    exact (h.converse a p).1 ⟨set, hget, hmem⟩

/-- Taking a file out of the imports of a file that does not import it changes nothing. -/
theorem map_erase_dependencies (hap : ¬g.Imports a p) :
    (g.dependencies.get? a).map (·.erase p) = g.dependencies.get? a := by
  cases hget : g.dependencies.get? a with
  | none => rfl
  | some set =>
    exact congrArg some (PathMap.erase_of_not_contains fun hmem => hap ⟨set, hget, hmem⟩)

/-- Retracting a file takes it from all sets of dependents. -/
theorem get?_dependents_retract (h : g.Consistent) :
    (g.retract p).dependents.get? a = (g.dependents.get? a).map (·.erase p) := by
  rw [retract, get?_foldl_withdraw]
  by_cases hpa : g.Imports p a
  · rw [if_pos (listed_dependenciesOf.2 hpa)]
  · rw [if_neg fun hlisted => hpa (listed_dependenciesOf.1 hlisted), map_erase_dependents h hpa]

/-- So does clearing its imports. -/
theorem get?_dependents_cleared (h : g.Consistent) :
    (g.cleared p).dependents.get? a = (g.dependents.get? a).map (·.erase p) := by
  unfold cleared
  split
  · exact get?_dependents_retract h
  · next hp => exact (map_erase_dependents h fun hpa => hp (h.analysed p a hpa)).symm

/-- Clearing leaves the dependencies of other files alone. -/
theorem get?_dependencies_cleared (hpa : ¬p.Same a) :
    (g.cleared p).dependencies.get? a = g.dependencies.get? a := by
  unfold cleared
  split
  · rw [retract, PathMap.get?_erase, if_neg hpa]
  · rfl

/-- Adding a node keeps the root. -/
theorem root_addNode (g : Graph) (node : FileNode) : (g.addNode node).root = g.root := by
  rw [addNode_eq]
  unfold cleared
  split
  · rfl
  · rfl

/-- An analysis enters its file with what it imports, and nowhere else. -/
theorem get?_dependents_addNode (h : g.Consistent) (node : FileNode) (a : Path) :
    (g.addNode node).dependents.get? a = dependentsAfter node a (g.dependents.get? a) := by
  rw [addNode_eq, get?_ensure, get?_foldl_enter, get?_dependents_cleared h, dependentsAfter]
  simp only [PathSet.listed_paths_ofList]
  by_cases hlisted : a.Listed node.targets
  · -- There is a set under `a` already, so that ensuring one changes nothing.
    simp [hlisted]
  · simp [hlisted]

/-- An analysis replaces what its file imports, and leaves what other files do. -/
theorem get?_dependencies_addNode (g : Graph) (node : FileNode) (a : Path) :
    (g.addNode node).dependencies.get? a = dependenciesAfter node a (g.dependencies.get? a) := by
  rw [addNode_eq, PathMap.get?_insert, get?_foldl_ensure, dependenciesAfter]
  simp only [PathSet.listed_paths_ofList]
  by_cases hpa : node.path.Same a
  · rw [if_pos hpa, if_pos hpa]
  · rw [if_neg hpa, if_neg hpa, get?_dependencies_cleared hpa]

/-! ### Taking a file out -/

/-- Removing a file takes it and its set of dependents away. -/
theorem get?_dependents_removeNode (h : g.Consistent) (hp : g.contains p = true) (a : Path) :
    (g.removeNode p).dependents.get? a
      = if p.Same a then none else (g.dependents.get? a).map (·.erase p) := by
  rw [removeNode_eq hp, PathMap.get?_erase, get?_dependents_retract h]

/-- The same holds of dependencies. -/
theorem get?_dependencies_removeNode (h : g.Consistent) (hp : g.contains p = true) (a : Path) :
    (g.removeNode p).dependencies.get? a
      = if p.Same a then none else (g.dependencies.get? a).map (·.erase p) := by
  have hretract : (g.retract p).dependencies.get? a
      = if p.Same a then none else g.dependencies.get? a :=
    PathMap.get?_erase ..
  have hlisted : a.Listed ((g.retract p).dependentsOf p) ↔ ¬p.Same a ∧ g.Imports a p := by
    rw [listed_dependentsOf, converse_retract h, imports_retract]
  rw [removeNode_eq hp, get?_foldl_withdraw, hretract]
  by_cases hpa : p.Same a
  · rw [if_pos hpa, if_pos hpa, if_neg fun ha => (hlisted.1 ha).1 hpa]
  · rw [if_neg hpa, if_neg hpa]
    by_cases hap : g.Imports a p
    · rw [if_pos (hlisted.2 ⟨hpa, hap⟩)]
    · rw [if_neg fun ha => hap (hlisted.1 ha).2, map_erase_dependencies hap]

end BlastRadius.Graph
