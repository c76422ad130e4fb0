import BlastRadius.Graph.Snapshot
import BlastRadius.Graph.Summary
import BlastRadius.Proofs.Canonical
import BlastRadius.Proofs.Neighbours

namespace BlastRadius.Graph

/-!
# What can be seen of a graph

Two graphs with the same analysed files may have come about in different ways. This file says when
nothing that is reported about them tells them apart.

* `CanonicalNames` — analysed files and importers are spelled canonically; kept by every change.
* `Exact` — every analysed file has all the imports of its analysis.
* `Alike` — the same analysed files with the same neighbours. `Exact.alike`: exact graphs with the
  same analysed files are alike.
* `Snapshot.respelled` — a snapshot with the importing files of its edges in the plainest spelling.
* `SameView` — the same figures, impacts, cycles, chains and snapshots. `Alike.sameView`: graphs
  that are alike have the same view.
-/

open BlastRadius.Path

variable {g g' : Graph} {node : FileNode} {p q : Path}

/-! ### Canonical spellings -/

/-- All the members of all the sets are canonical. -/
def CanonicalMembers (sets : PathMap PathSet) : Prop :=
  ∀ (p : Path) (set : PathSet), sets.get? p = some set → set.Canonical

section Members

variable {sets : PathMap PathSet} {set : PathSet} {member : Path}

/-- A set that may be missing has canonical members. -/
theorem CanonicalMembers.getD (h : CanonicalMembers sets) (p : Path) :
    ((sets.get? p).getD .empty).Canonical := by
  cases hget : sets.get? p with
  | none => exact PathMap.canonical_empty
  | some set => exact h p set hget

/-- Inserting a canonical set keeps members canonical. -/
theorem CanonicalMembers.insert (h : CanonicalMembers sets) (p : Path) (hset : set.Canonical) :
    CanonicalMembers (sets.insert p set) := by
  intro q other hother
  rw [PathMap.get?_insert] at hother
  split at hother
  · cases hother
    exact hset
  · exact h q other hother

/-- So does erasing. -/
theorem CanonicalMembers.erase (h : CanonicalMembers sets) (p : Path) :
    CanonicalMembers (sets.erase p) := by
  intro q other hother
  rw [PathMap.get?_erase] at hother
  split at hother
  · cases hother
  · exact h q other hother

/-- So does withdrawing a member. -/
theorem CanonicalMembers.withdraw (h : CanonicalMembers sets) (p member : Path) :
    CanonicalMembers (withdraw sets p member) := by
  unfold Graph.withdraw
  split
  · next set hget => exact h.insert p ((h p set hget).erase member)
  · exact h

/-- So does entering a canonical one. -/
theorem CanonicalMembers.enter (h : CanonicalMembers sets) (p : Path) (hmember : member.Canonical) :
    CanonicalMembers (enter sets p member) :=
  h.insert p ((h.getD p).insert hmember ())

/-- So does ensuring a set. -/
theorem CanonicalMembers.ensure (h : CanonicalMembers sets) (p : Path) :
    CanonicalMembers (ensure sets p) := by
  unfold Graph.ensure
  split
  · exact h
  · exact h.insert p PathMap.canonical_empty

/-- So do many such steps. -/
theorem CanonicalMembers.foldl {step : PathMap PathSet → Path → PathMap PathSet}
    (hstep : ∀ {sets p}, CanonicalMembers sets → CanonicalMembers (step sets p))
    (h : CanonicalMembers sets) (ps : List Path) : CanonicalMembers (ps.foldl step sets) := by
  induction ps generalizing sets with
  | nil => exact h
  | cons p ps ih => exact ih (hstep h)

end Members

/-- The analysed files and all the files that import something are spelled canonically. -/
structure CanonicalNames (g : Graph) : Prop where
  nodes : g.nodes.Canonical
  dependents : CanonicalMembers g.dependents

/-- The empty graph has canonical names. -/
theorem canonicalNames_empty (root : Path) : (empty root).CanonicalNames where
  nodes := PathMap.canonical_empty
  dependents p set h := by
    rw [empty, PathMap.get?_empty] at h
    cases h

/-- Retracting a file keeps names canonical. -/
theorem CanonicalNames.retract (h : g.CanonicalNames) (p : Path) :
    (g.retract p).CanonicalNames where
  nodes := h.nodes
  dependents := h.dependents.foldl (fun hsets => hsets.withdraw _ p) _

/-- So does adding a canonical node. -/
theorem CanonicalNames.addNode (h : g.CanonicalNames) (hnode : node.path.Canonical) :
    (g.addNode node).CanonicalNames := by
  have hcleared : (g.cleared node.path).CanonicalNames := by
    unfold cleared
    split
    · exact h.retract node.path
    · exact h
  rw [addNode_eq]
  constructor
  case nodes => exact hcleared.nodes.insert hnode node
  case dependents =>
    exact (hcleared.dependents.foldl (fun hsets => hsets.enter _ hnode) _).ensure node.path

/-- So does removing one. -/
theorem CanonicalNames.removeNode (h : g.CanonicalNames) (p : Path) :
    (g.removeNode p).CanonicalNames := by
  by_cases hp : g.contains p = true
  · rw [removeNode_eq hp]
    exact ⟨h.nodes.erase p, (h.retract p).dependents.erase p⟩
  · rw [removeNode_eq_self hp]
    exact h

/-! ### Graphs with all their imports -/

/-- An analysed file has all the imports of its analysis, as they are spelled there. -/
def Full (g : Graph) (p : Path) : Prop :=
  ∀ node, g.nodes.get? p = some node → g.dependenciesOf? p = some (PathSet.ofList node.targets)

/-- A new analysis gives its file all its imports. -/
theorem full_addNode_self (g : Graph) (node : FileNode) (h : node.path.Same p) :
    (g.addNode node).Full p := by
  intro other hother
  rw [nodes_addNode, PathMap.get?_insert, if_pos h] at hother
  cases hother
  rw [dependenciesOf?, get?_dependencies_addNode, dependenciesAfter, if_pos h]

/-- A new analysis of another file takes nothing away. -/
theorem Full.addNode (h : g.Full p) (node : FileNode) : (g.addNode node).Full p := by
  by_cases hsame : node.path.Same p
  · exact full_addNode_self g node hsame
  · intro other hother
    rw [nodes_addNode, PathMap.get?_insert, if_neg hsame] at hother
    rw [dependenciesOf?, get?_dependencies_addNode, dependenciesAfter, if_neg hsame,
      show g.dependencies.get? p = _ from h other hother]
    split
    · rfl
    · rfl

/-- Every analysed file has all its imports, and nothing is known of other files. -/
structure Exact (g : Graph) : Prop where
  consistent : g.Consistent
  names : g.CanonicalNames
  full : ∀ p, g.Full p

/-- The empty graph is exact. -/
theorem exact_empty (root : Path) : (empty root).Exact where
  consistent := consistent_empty root
  names := canonicalNames_empty root
  full p node hnode := by
    rw [empty, PathMap.get?_empty] at hnode
    cases hnode

/-- Adding a canonical node keeps a graph exact. -/
theorem Exact.addNode (h : g.Exact) (hnode : node.path.Canonical) : (g.addNode node).Exact where
  consistent := consistent_addNode h.consistent node
  names := h.names.addNode hnode
  full p := (h.full p).addNode node

/-- Being full does not hang on the spelling. -/
theorem Full.congr (h : g.Full p) (hpq : p.Same q) : g.Full q := by
  intro node hnode
  rw [← g.nodes.get?_congr hpq] at hnode
  rw [dependenciesOf?, ← g.dependencies.get?_congr hpq]
  exact h node hnode

/-! ### The graph of some analyses -/

/-- A graph of canonical nodes is exact. -/
theorem exact_ofNodes (root : Path) {nodes : List FileNode}
    (h : ∀ node ∈ nodes, node.path.Canonical) : (ofNodes root nodes).Exact := by
  -- The graph starts empty; the induction needs it to start anywhere.
  have hfold : ∀ {g : Graph}, g.Exact → (nodes.foldl Graph.addNode g).Exact := by
    induction nodes with
    | nil => exact id
    | cons node nodes ih =>
      intro g hg
      exact ih (fun other hother => h other (List.mem_cons_of_mem node hother))
        (hg.addNode (h node List.mem_cons_self))
  exact hfold (exact_empty root)

/-- A graph of nodes has the root that it was given. -/
theorem root_ofNodes (root : Path) (nodes : List FileNode) : (ofNodes root nodes).root = root := by
  have hfold : ∀ g : Graph, (nodes.foldl Graph.addNode g).root = g.root := by
    induction nodes with
    | nil => exact fun _ => rfl
    | cons node nodes ih =>
      intro g
      rw [List.foldl_cons, ih, root_addNode]
  exact hfold (empty root)

/-- A file is in the graph of some analyses if one of them is of it, and only then. -/
theorem contains_ofNodes {root : Path} {nodes : List FileNode} :
    (ofNodes root nodes).contains p = true ↔ ∃ node ∈ nodes, node.path.Same p := by
  have hfold : ∀ {g : Graph}, (nodes.foldl Graph.addNode g).contains p = true ↔
      (∃ node ∈ nodes, node.path.Same p) ∨ g.contains p = true := by
    induction nodes with
    | nil => simp
    | cons node nodes ih =>
      intro g
      rw [List.foldl_cons, ih, contains_addNode, Bool.or_eq_true, decide_eq_true_eq,
        List.exists_mem_cons_iff, ← or_assoc]
      exact or_congr_left or_comm
  rw [ofNodes, hfold]
  simp [empty, Graph.contains]

/-- The only analysis of a file is the one in the graph. -/
theorem get?_ofNodes {root : Path} {nodes : List FileNode}
    (hexists : ∃ node ∈ nodes, node.path.Same p)
    (honly : ∀ other ∈ nodes, other.path.Same p → other = node) :
    (ofNodes root nodes).nodes.get? p = some node := by
  have hfold : ∀ {g : Graph}, (g.nodes.get? p = some node ∨ ∃ node ∈ nodes, node.path.Same p) →
      (nodes.foldl Graph.addNode g).nodes.get? p = some node := by
    clear hexists
    induction nodes with
    | nil => simp
    | cons first nodes ih =>
      intro g hg
      refine ih (fun other hother => honly other (List.mem_cons_of_mem first hother)) ?_
      rw [nodes_addNode, PathMap.get?_insert]
      by_cases hfirst : first.path.Same p
      · rw [if_pos hfirst, honly first List.mem_cons_self hfirst]
        exact Or.inl rfl
      · -- What was entered before stays, and what is still to come is not the first.
        rw [if_neg hfirst]
        refine hg.imp_right fun ⟨other, hother, hsame⟩ => ⟨other, ?_, hsame⟩
        rcases List.mem_cons.1 hother with rfl | hother
        · exact absurd hsame hfirst
        · exact hother
  exact hfold (Or.inr hexists)

/-! ### Graphs that look alike -/

/-- The same analysed files with the same neighbours. A file that was never named is like one
    without neighbours, and the analysed files may be spelled differently where they stand in the
    map. -/
structure Alike (g g' : Graph) : Prop where
  root : g.root = g'.root
  nodes : ∀ p, g.nodes.get? p = g'.nodes.get? p
  dependents : ∀ p, (g.dependentsOf? p).getD .empty = (g'.dependentsOf? p).getD .empty
  dependencies : ∀ p, (g.dependenciesOf? p).getD .empty = (g'.dependenciesOf? p).getD .empty

/-- A member of a set that may be missing. -/
theorem contains_getD {sets : PathMap PathSet} :
    ((sets.get? p).getD .empty).contains q = true ↔ Has sets p q := by
  unfold Has
  cases sets.get? p with
  | none => simp
  | some set => simp

/-- A set without members is empty. -/
theorem eq_empty_of_not_contains {set : PathSet} (h : ∀ q : Path, ¬set.contains q = true) :
    set = .empty := by
  refine PathMap.ext_slot? fun q => ?_
  rw [PathMap.slot?_empty]
  exact Option.not_isSome_iff_eq_none.1 (h q)

/-- In an exact graph the nodes determine the dependencies. -/
theorem Exact.getD_dependencies (h : g.Exact) (p : Path) :
    (g.dependenciesOf? p).getD .empty
      = ((g.nodes.get? p).map fun node => PathSet.ofList node.targets).getD .empty := by
  cases hnode : g.nodes.get? p with
  | some node => rw [h.full p node hnode]; rfl
  | none =>
    refine eq_empty_of_not_contains fun q hq => ?_
    -- Only analysed files import something.
    have hcontains := h.consistent.analysed p q (contains_getD.1 hq)
    rw [contains, PathMap.contains_eq_isSome_get?, hnode] at hcontains
    cases hcontains

/-- **Exact graphs.** The analysed files determine all that can be seen of an exact graph. -/
theorem Exact.alike (h : g.Exact) (h' : g'.Exact) (hroot : g.root = g'.root)
    (hnodes : g.nodes = g'.nodes) : g.Alike g' := by
  have hdependencies :
      ∀ p, (g.dependenciesOf? p).getD .empty = (g'.dependenciesOf? p).getD .empty := by
    intro p
    rw [h.getD_dependencies, h'.getD_dependencies, hnodes]
  have himports : ∀ a b, g.Imports a b ↔ g'.Imports a b := by
    intro a b
    have hab := hdependencies a
    unfold Imports
    rw [← contains_getD, ← contains_getD, show g.dependencies.get? a = g.dependenciesOf? a from rfl,
      hab]
    rfl
  refine ⟨hroot, fun p => by rw [hnodes], fun p => ?_, hdependencies⟩
  -- The members of both sets are canonical, so that equal members make equal sets.
  refine PathSet.ext_contains (h.names.dependents.getD p) (h'.names.dependents.getD p) fun q => ?_
  rw [Bool.eq_iff_iff]
  calc ((g.dependentsOf? p).getD .empty).contains q = true
      ↔ g.ImportedBy p q := contains_getD
    _ ↔ g.Imports q p := h.consistent.converse p q
    _ ↔ g'.Imports q p := himports q p
    _ ↔ g'.ImportedBy p q := (h'.consistent.converse p q).symm
    _ ↔ ((g'.dependentsOf? p).getD .empty).contains q = true := contains_getD.symm

/-! ### Lists over all the sets -/

section Sets

variable {m n : PathMap PathSet}

/-- A set of size zero is empty. -/
theorem eq_empty_of_size_eq_zero {set : PathSet} (h : set.size = 0) : set = .empty := by
  refine eq_empty_of_not_contains fun q hq => ?_
  rw [← PathMap.length_paths, List.length_eq_zero_iff] at h
  rw [← PathMap.listed_paths, h] at hq
  exact not_listed_nil q hq

/-- The set under a key, which is empty if there is none. -/
def setAt (m : PathMap PathSet) (key : List Component) : PathSet :=
  (m.table[key]?.map (·.2)).getD .empty

/-- Maps with equal sets have equal sets at every key. -/
theorem setAt_eq (h : ∀ p, (m.get? p).getD .empty = (n.get? p).getD .empty) (key : List Component) :
    setAt m key = setAt n key := by
  -- A key that is in one of the maps is that of the path that stands there.
  have hpath : ∀ p : Path, p.components = key → setAt m key = setAt n key := by
    rintro p rfl
    exact h p
  cases hm : m.table[key]? with
  | some entry => exact hpath entry.1 (m.keyed key entry hm)
  | none =>
    cases hn : n.table[key]? with
    | some entry => exact hpath entry.1 (n.keyed key entry hn)
    | none => rw [setAt, setAt, hm, hn]

/-- The sets of a map that are not empty. -/
def nonEmpty (m : PathMap PathSet) : Std.ExtTreeMap (List Component) PathSet :=
  m.table.filterMap fun _ entry => if entry.2.size = 0 then none else some entry.2

/-- They have equal sets that are not empty. -/
theorem nonEmpty_eq (h : ∀ p, (m.get? p).getD .empty = (n.get? p).getD .empty) :
    nonEmpty m = nonEmpty n := by
  have hget : ∀ (m : PathMap PathSet) (key : List Component),
      (nonEmpty m)[key]? = if (setAt m key).size = 0 then none else some (setAt m key) := by
    intro m key
    rw [nonEmpty, Std.ExtTreeMap.getElem?_filterMap', setAt]
    cases m.table[key]? with
    | none => rfl
    | some entry => rfl
  refine Std.ExtTreeMap.ext_getElem? fun {key} => ?_
  -- A set that is missing and one that is empty are both left out.
  rw [hget, hget, setAt_eq h]

/-- A list over all the sets in which the empty ones leave nothing is a list over the others. -/
theorem flatMap_table {β : Type} (f : List Component → PathSet → List β)
    (hf : ∀ key, f key .empty = []) (m : PathMap PathSet) :
    (m.table.toList.flatMap fun e => f e.1 e.2.2)
      = (nonEmpty m).toList.flatMap fun e => f e.1 e.2 := by
  rw [nonEmpty, Std.ExtTreeMap.toList_filterMap]
  induction m.table.toList with
  | nil => rfl
  | cons e es ih =>
    rw [List.flatMap_cons, List.filterMap_cons, ih]
    by_cases hsize : e.2.2.size = 0
    · rw [if_pos hsize, eq_empty_of_size_eq_zero hsize, hf]
      rfl
    · rw [if_neg hsize]
      rfl

/-- Members are counted over the sets that are not empty. -/
theorem memberCount_eq (m : PathMap PathSet) :
    memberCount m = ((nonEmpty m).toList.flatMap fun e => e.2.paths).length := by
  rw [← flatMap_table (fun _ set => set.paths) (fun _ => rfl), List.length_flatMap, memberCount,
    ← List.sum_eq_foldr, PathMap.values, PathMap.toList, List.map_map, List.map_map]
  refine congrArg List.sum (List.map_congr_left fun e _ => ?_)
  exact (PathMap.length_paths e.2.2).symm

end Sets

/-! ### Snapshots up to spelling -/

/-- An import with the importing file in its plainest spelling. -/
def SnapshotEdge.respelled (e : SnapshotEdge) : SnapshotEdge :=
  { e with source := ofComponents e.source.components }

/-- A snapshot with the importing files of its edges in their plainest spelling. -/
def Snapshot.respelled (s : Snapshot) : Snapshot :=
  { s with edges := s.edges.map (·.respelled) }

/-- The imports of the file under a key, if it is analysed. -/
def edgesFrom (g : Graph) (key : List Component) (targets : PathSet) : List SnapshotEdge :=
  if g.nodes.table[key]?.isSome then
    (targets.paths.filter g.contains).map fun target => ⟨ofComponents key, target⟩
  else []

/-- The edges from a path. -/
theorem edgesFrom_components (g : Graph) (path : Path) (targets : PathSet) :
    g.edgesFrom path.components targets =
      if g.contains path then
        (targets.paths.filter g.contains).map fun target => ⟨ofComponents path.components, target⟩
      else [] :=
  rfl

/-- The edges with respelled sources, source by source. -/
theorem map_respelled_edges (g : Graph) :
    g.edges.map (·.respelled)
      = g.dependencies.table.toList.flatMap fun e => g.edgesFrom e.1 e.2.2 := by
  have hkeyed : ∀ e ∈ g.dependencies.table.toList, e.2.1.components = e.1 := by
    rintro ⟨key, entry⟩ he
    exact g.dependencies.keyed key entry (Std.ExtTreeMap.mem_toList_iff_getElem?_eq_some.1 he)
  rw [edges, PathMap.toList]
  generalize g.dependencies.table.toList = entries at hkeyed ⊢
  induction entries with
  | nil => rfl
  | cons e es ih =>
    obtain ⟨key, path, targets⟩ := e
    -- The spelling that stands in the entry is the only thing lost by going over to its key.
    obtain rfl : path.components = key := hkeyed (key, path, targets) List.mem_cons_self
    have ih := ih fun e he => hkeyed e (List.mem_cons_of_mem _ he)
    rw [List.map_cons, List.flatMap_cons, ← ih, List.filter_cons]
    show _ = g.edgesFrom path.components targets ++ _
    rw [edgesFrom_components]
    by_cases hpath : g.contains path = true
    · rw [if_pos hpath, if_pos hpath, List.flatMap_cons, List.map_append, List.map_map]
      rfl
    · rw [if_neg hpath, if_neg hpath]
      rfl

/-! ### What graphs that are alike show -/

/-- The same analysed files, neighbours, figures, impacts, cycles, chains and snapshots. Only the
    spelling of the importing files in the edges of a snapshot may differ. -/
structure SameView (g g' : Graph) : Prop where
  nodes : g.nodes = g'.nodes
  dependentsOf : ∀ p, g.dependentsOf p = g'.dependentsOf p
  dependenciesOf : ∀ p, g.dependenciesOf p = g'.dependenciesOf p
  summary : g.summary = g'.summary
  impact : ∀ p, g.impact? p = g'.impact? p
  cycles : g.cycles = g'.cycles
  depth : g.maxDepth = g'.maxDepth
  snapshot : ∀ lastUpdated, (g.snapshot lastUpdated).respelled = (g'.snapshot lastUpdated).respelled

namespace Alike

/-- A missing set has no paths. -/
theorem paths_getD (o : Option PathSet) : (o.map (·.paths)).getD [] = (o.getD .empty).paths := by
  cases o with
  | none => rfl
  | some set => rfl

/-- A missing set has size zero. -/
theorem size_getD (o : Option PathSet) : (o.map (·.size)).getD 0 = (o.getD .empty).size := by
  cases o with
  | none => rfl
  | some set => rfl

/-- Graphs that are alike have the same dependents. -/
theorem dependentsOf (h : g.Alike g') : g.dependentsOf = g'.dependentsOf := by
  funext p
  rw [Graph.dependentsOf, Graph.dependentsOf, paths_getD, paths_getD, h.dependents]

/-- They have the same dependencies. -/
theorem dependenciesOf (h : g.Alike g') : g.dependenciesOf = g'.dependenciesOf := by
  funext p
  rw [Graph.dependenciesOf, Graph.dependenciesOf, paths_getD, paths_getD, h.dependencies]

/-- They have as many dependents. -/
theorem dependentCount (h : g.Alike g') : g.dependentCount = g'.dependentCount := by
  funext p
  rw [Graph.dependentCount, Graph.dependentCount, size_getD, size_getD, h.dependents]

/-- They have as many dependencies. -/
theorem dependencyCount (h : g.Alike g') : g.dependencyCount = g'.dependencyCount := by
  funext p
  rw [Graph.dependencyCount, Graph.dependencyCount, size_getD, size_getD, h.dependencies]

/-- They contain the same paths. -/
theorem contains (h : g.Alike g') : g.contains = g'.contains := by
  funext p
  rw [Graph.contains, Graph.contains, PathMap.contains_eq_isSome_get?,
    PathMap.contains_eq_isSome_get?, h.nodes]

/-- They have the same files. -/
theorem files (h : g.Alike g') : g.files = g'.files :=
  PathMap.values_congr h.nodes

/-- They have the same size. -/
theorem size (h : g.Alike g') : g.size = g'.size := by
  rw [Graph.size, Graph.size, ← PathMap.length_values, ← PathMap.length_values]
  exact congrArg List.length h.files

/-- They have the same known dependencies. -/
theorem knownDependencies (h : g.Alike g') : g.knownDependencies = g'.knownDependencies := by
  funext p
  rw [Graph.knownDependencies, Graph.knownDependencies, h.dependenciesOf, h.contains]

/-! #### Searches -/

/-- The search for cycles finds the same. -/
theorem searchCycles (h : g.Alike g') : g.searchCycles = g'.searchCycles := by
  funext fuel
  induction fuel with
  | zero => rfl
  | succ fuel ih =>
    funext file trail s
    rw [Graph.searchCycles, Graph.searchCycles, ih, h.knownDependencies]

/-- They have the same cycles. -/
theorem cycles (h : g.Alike g') : g.cycles = g'.cycles := by
  have hfrom : g.searchFrom = g'.searchFrom := by
    funext s p
    rw [searchFrom, searchFrom, h.searchCycles, h.size]
  rw [Graph.cycles, Graph.cycles, h.files, hfrom]

/-- The search for long chains finds the same. -/
theorem deepen (h : g.Alike g') : g.deepen = g'.deepen := by
  funext fuel
  induction fuel with
  | zero => rfl
  | succ fuel ih =>
    funext file trail best
    rw [Graph.deepen, Graph.deepen, ih, h.knownDependencies]

/-- They have the same longest chain. -/
theorem maxDepth (h : g.Alike g') : g.maxDepth = g'.maxDepth := by
  have hfrom : g.deepenFrom = g'.deepenFrom := by
    funext best p
    rw [deepenFrom, deepenFrom, h.deepen, h.size]
  rw [Graph.maxDepth, Graph.maxDepth, h.files, hfrom]

/-- The search for dependents finds the same. -/
theorem spread (h : g.Alike g') : g.spread = g'.spread := by
  funext fuel
  induction fuel with
  | zero => rfl
  | succ fuel ih =>
    funext queue seen
    cases queue with
    | nil => rfl
    | cons current queue => rw [Graph.spread, Graph.spread, ih, h.dependentsOf]

/-- They report the same impact. -/
theorem impact? (h : g.Alike g') : g.impact? = g'.impact? := by
  have hentries : g.dependentEntries = g'.dependentEntries := by
    rw [dependentEntries, dependentEntries, memberCount_eq, memberCount_eq,
      nonEmpty_eq h.dependents]
  have husers : g.userCount = g'.userCount := by
    funext files target symbol
    rw [userCount, userCount, funext h.nodes]
  funext p
  rw [Graph.impact?, Graph.impact?, h.nodes, h.dependentsOf, h.spread, hentries, husers]

/-! #### Figures and snapshots -/

/-- They have the same summary. -/
theorem summary (h : g.Alike g') : g.summary = g'.summary := by
  have hedges : memberCount g.dependencies = memberCount g'.dependencies := by
    rw [memberCount_eq, memberCount_eq, nonEmpty_eq h.dependencies]
  have hranks : g.dependentRanks = g'.dependentRanks := by
    rw [dependentRanks, dependentRanks, h.files, h.dependentCount]
  have himpacts : g.impactRanks = g'.impactRanks := by
    rw [impactRanks, impactRanks, h.files, h.impact?]
  rw [Graph.summary, Graph.summary, hedges, hranks, himpacts, h.size, h.maxDepth, h.cycles]

/-- They have the same snapshot, but for the spelling of sources. -/
theorem snapshot (h : g.Alike g') (lastUpdated : Nat) :
    (g.snapshot lastUpdated).respelled = (g'.snapshot lastUpdated).respelled := by
  have hfrom : g.edgesFrom = g'.edgesFrom := by
    funext key targets
    have hkey := congrArg Option.isSome (PathMap.map_snd_table_congr h.nodes key)
    rw [Option.isSome_map, Option.isSome_map] at hkey
    rw [edgesFrom, edgesFrom, hkey, h.contains]
  -- Empty sets have no edges, so only the others are compared.
  have hempty : ∀ key, g'.edgesFrom key .empty = [] := by
    intro key
    unfold edgesFrom
    split
    · rfl
    · rfl
  have hedges : g.edges.map (·.respelled) = g'.edges.map (·.respelled) := by
    rw [map_respelled_edges, map_respelled_edges, hfrom, flatMap_table _ hempty,
      flatMap_table _ hempty, nonEmpty_eq h.dependencies]
  rw [Snapshot.respelled, Snapshot.respelled, Graph.snapshot, Graph.snapshot, hedges, h.root,
    h.files, h.dependentCount, h.dependencyCount]

/-- **Views.** Graphs with the same analysed files and the same neighbours show the same. -/
theorem sameView (h : g.Alike g') (hnodes : g.nodes = g'.nodes) : g.SameView g' where
  nodes := hnodes
  dependentsOf := congrFun h.dependentsOf
  dependenciesOf := congrFun h.dependenciesOf
  summary := h.summary
  impact := congrFun h.impact?
  cycles := h.cycles
  depth := h.maxDepth
  snapshot := h.snapshot

end Alike

end BlastRadius.Graph
