import BlastRadius.Graph.Snapshot
import BlastRadius.Graph.Summary
import BlastRadius.Proofs.SimpleCycles
import Mathlib.Algebra.BigOperators.Group.List.Basic
import Mathlib.Algebra.GroupWithZero.Nat

namespace BlastRadius.Graph

/-!
# Counting imports

The figures about a graph come from different maps: the edges of a snapshot and the total of a
summary from what files import, the numbers of dependents from who imports them, and only some of
them leave out the files that are not analysed. After every history they agree.

* `Enumerates` — a list of edges has exactly the pairs of a relation, each once and in order.
* `importsTo` — the imports of a graph that lead to files of some kind; `danglingEdges` — those that
  lead to files that are not analysed.
* `countP_eq_length` — the edges at a file are as many as the files at their other ends.
* `sum_countP_target` — counting the edges into each file counts every edge once.
* `CountsAgree`, `counts_agree` — the figures of a graph agree after every history.
-/

open BlastRadius.Path

variable {g : Graph} {edges : List SnapshotEdge} {p : Path} {ps : List Path}

/-! ### Edges in order -/

/-- The order of edges: by importing file, then by imported file. -/
def SnapshotEdge.Before (e e' : SnapshotEdge) : Prop :=
  e.source.Before e'.source ∨ e.source.Same e'.source ∧ e.target.Before e'.target

/-- A list of edges has exactly the pairs of a relation, each once and in order. -/
structure Enumerates (edges : List SnapshotEdge) (R : Path → Path → Prop) : Prop where
  increasing : edges.Pairwise SnapshotEdge.Before
  exact : ∀ a b, (∃ e ∈ edges, e.source.Same a ∧ e.target.Same b) ↔ R a b

/-- No two edges lead from one file to another one. -/
theorem SnapshotEdge.Before.apart {e e' : SnapshotEdge} (h : e.Before e') :
    ¬(e.source.Same e'.source ∧ e.target.Same e'.target) := by
  rintro ⟨hsource, htarget⟩
  rcases h with h | ⟨-, h⟩
  · exact h.not_same hsource
  · exact h.not_same htarget

/-- The imports of a graph that lead to files of some kind, by importing file and then by imported
    file. -/
def importsTo (g : Graph) (kind : Path → Bool) : List SnapshotEdge :=
  g.dependencies.toList.flatMap fun entry => (entry.2.paths.filter kind).map fun target =>
    ⟨entry.1, target⟩

/-- The imports of a graph that lead to files that are not analysed. -/
def danglingEdges (g : Graph) : List SnapshotEdge :=
  g.importsTo (!g.contains ·)

/-- The imports are listed by source, and for each source by target. -/
theorem increasing_importsTo (g : Graph) (kind : Path → Bool) :
    (g.importsTo kind).Pairwise SnapshotEdge.Before := by
  rw [importsTo, List.pairwise_flatMap]
  constructor
  · -- Within one source the targets increase.
    intro entry _
    rw [List.pairwise_map]
    apply (entry.2.increasing_paths.filter kind).imp
    intro a b hab
    exact Or.inr ⟨Same.refl entry.1, hab⟩
  · -- Between two sources their own order decides.
    have hsources := g.dependencies.increasing_paths
    rw [PathMap.paths, List.pairwise_map] at hsources
    apply hsources.imp
    intro entry entry' hbefore e he e' he'
    obtain ⟨target, -, rfl⟩ := List.mem_map.1 he
    obtain ⟨target', -, rfl⟩ := List.mem_map.1 he'
    exact Or.inl hbefore

/-- An import is listed where its source has an entry with its target. -/
theorem mem_importsTo {kind : Path → Bool} {e : SnapshotEdge} :
    e ∈ g.importsTo kind ↔
      ∃ targets, (e.source, targets) ∈ g.dependencies.toList ∧ e.target ∈ targets.paths ∧
        kind e.target = true := by
  rw [importsTo, List.mem_flatMap]
  constructor
  · rintro ⟨⟨source, targets⟩, hentry, he⟩
    obtain ⟨target, htarget, rfl⟩ := List.mem_map.1 he
    rw [List.mem_filter] at htarget
    exact ⟨targets, hentry, htarget.1, htarget.2⟩
  · rintro ⟨targets, hentry, htarget, hkind⟩
    refine ⟨_, hentry, List.mem_map.2 ⟨e.target, ?_, rfl⟩⟩
    exact List.mem_filter.2 ⟨htarget, hkind⟩

/-- A kind of files that does not depend on how a path is spelled is enumerated. -/
theorem enumerates_importsTo (g : Graph) (kind : Path → Bool)
    (hkind : ∀ a b : Path, a.Same b → kind a = kind b) :
    Enumerates (g.importsTo kind) fun a b => g.Imports a b ∧ kind b = true where
  increasing := g.increasing_importsTo kind
  exact a b := by
    constructor
    · rintro ⟨e, he, hsource, htarget⟩
      obtain ⟨targets, hentry, hmem, hkept⟩ := mem_importsTo.1 he
      refine ⟨⟨targets, ?_, ?_⟩, ?_⟩
      · rw [← g.dependencies.get?_congr hsource, PathMap.get?, PathMap.mem_toList.1 hentry]
        rfl
      · exact PathMap.listed_paths.1 ⟨e.target, hmem, htarget⟩
      · rw [← hkind e.target b htarget]
        exact hkept
    · rintro ⟨⟨targets, hget, hcontains⟩, hkept⟩
      obtain ⟨entry, hslot, rfl⟩ := Option.map_eq_some_iff.1 hget
      obtain ⟨target, hmem, hsame⟩ := PathMap.listed_paths.2 hcontains
      refine ⟨⟨entry.1, target⟩, mem_importsTo.2 ⟨entry.2, ?_, hmem, ?_⟩,
        PathMap.same_of_slot? hslot, hsame⟩
      · exact PathMap.mem_toList_of_slot? hslot
      · rw [hkind target b hsame]
        exact hkept

/-- The edges of a snapshot are the imports that lead to analysed files: a file that is not analysed
    imports nothing. -/
theorem edges_eq_importsTo (h : g.Consistent) : g.edges = g.importsTo g.contains := by
  unfold edges importsTo
  -- In a consistent graph only analysed files have dependencies.
  have hnone : ∀ entry ∈ g.dependencies.toList, ¬g.contains entry.1 = true →
      entry.2.paths = [] := by
    intro entry hentry hunknown
    rw [List.eq_nil_iff_forall_not_mem]
    intro target htarget
    apply hunknown
    refine h.analysed entry.1 target ⟨entry.2, ?_, PathMap.listed_paths.1 (listed_of_mem htarget)⟩
    rw [PathMap.get?, PathMap.mem_toList.1 hentry]
    rfl
  generalize g.dependencies.toList = entries at hnone
  induction entries with
  | nil => rfl
  | cons entry entries ih =>
    obtain ⟨hfirst, hrest⟩ := List.forall_mem_cons.1 hnone
    by_cases hknown : g.contains entry.1 = true
    · rw [List.filter_cons, if_pos hknown, List.flatMap_cons, List.flatMap_cons, ih hrest]
    · rw [List.filter_cons, if_neg hknown, List.flatMap_cons, ih hrest, hfirst hknown]
      rfl

/-- What is of a kind and what is not are the whole list. -/
theorem length_eq_countP_add (kind : Path → Bool) (ps : List Path) :
    ps.length = ps.countP kind + ps.countP (!kind ·) := by
  simpa using List.length_eq_countP_add_countP kind (l := ps)

/-- Every import leads to a file of a kind or to one of the other. -/
theorem memberCount_dependencies (g : Graph) (kind : Path → Bool) :
    memberCount g.dependencies = (g.importsTo kind).length + (g.importsTo (!kind ·)).length := by
  rw [memberCount, ← List.sum_eq_foldr, importsTo, importsTo, PathMap.values, List.map_map]
  induction g.dependencies.toList with
  | nil => rfl
  | cons entry entries ih =>
    have hsize : entry.2.size
        = (entry.2.paths.filter kind).length + (entry.2.paths.filter (!kind ·)).length := by
      rw [← PathMap.length_paths, ← List.countP_eq_length_filter, ← List.countP_eq_length_filter]
      exact length_eq_countP_add kind _
    simp only [List.map_cons, List.sum_cons, List.flatMap_cons, List.length_append, List.length_map,
      ih]
    simp only [Function.comp_apply, hsize]
    omega

/-! ### Edges at a file -/

/-- If no two edges agree at both ends, those with one end at `p` are as many as the files at the
    other end. -/
theorem countP_eq_length (near far : SnapshotEdge → Path)
    (hapart : edges.Pairwise fun e e' => ¬((near e).Same (near e') ∧ (far e).Same (far e')))
    (hps : Distinct ps)
    (hfar : ∀ x, (∃ e ∈ edges, (near e).Same p ∧ (far e).Same x) ↔ x.Listed ps) :
    edges.countP (fun e => decide ((near e).Same p)) = ps.length := by
  -- Both lists are distinct and have the same members, so neither is longer.
  have hlisted : ∀ x : Path, x.Listed ((edges.filter fun e => decide ((near e).Same p)).map far) ↔
      x.Listed ps := by
    intro x
    rw [← hfar x]
    simp [Listed, and_assoc]
  have hdistinct : Distinct ((edges.filter fun e => decide ((near e).Same p)).map far) := by
    rw [Distinct, List.pairwise_map, List.pairwise_filter]
    apply hapart.imp
    intro e e' hne hnear hnear' hsame
    rw [decide_eq_true_eq] at hnear hnear'
    exact hne ⟨hnear.trans hnear'.symm, hsame⟩
  rw [List.countP_eq_length_filter, ← List.length_map far]
  apply Nat.le_antisymm
  · exact length_le_of_distinct hdistinct fun x hx => (hlisted x).1 hx
  · exact length_le_of_distinct hps fun x hx => (hlisted x).2 hx

/-- Counting the edges into each of some files, or for each edge the files that it leads to, is the
    same. -/
theorem sum_countP_comm (edges : List SnapshotEdge) (ps : List Path) :
    (ps.map fun p => edges.countP fun e => decide (e.target.Same p)).sum
      = (edges.map fun e => ps.countP fun p => decide (e.target.Same p)).sum := by
  have hone : ∀ e : SnapshotEdge, (ps.map fun p => if e.target.Same p then 1 else 0).sum
      = ps.countP fun p => decide (e.target.Same p) := by
    intro e
    induction ps with
    | nil => rfl
    | cons p ps ih => simp [List.countP_cons, ih, Nat.add_comm]
  induction edges with
  | nil => simp
  | cons e edges ih =>
    simp only [List.countP_cons, decide_eq_true_eq, List.map_cons, List.sum_cons, List.sum_map_add,
      ih, hone]
    omega

/-- A list without repetitions has a path once, if it has it. -/
theorem countP_same_of_distinct (hps : Distinct ps) (h : p.Listed ps) :
    ps.countP (fun q => decide (p.Same q)) = 1 := by
  have hcount := List.count_eq_one_of_mem (distinct_iff_nodup.1 hps) (listed_iff_mem_map.1 h)
  rw [List.count, List.countP_map] at hcount
  rw [← hcount]
  apply List.countP_congr
  intro q _
  rw [decide_eq_true_eq, Function.comp_apply, beq_iff_eq]
  exact eq_comm

/-- **Double counting.** The edges into the files of a list are all the edges, if each leads to one
    of them. -/
theorem sum_countP_target (hps : Distinct ps) (h : ∀ e ∈ edges, e.target.Listed ps) :
    (ps.map fun p => edges.countP fun e => decide (e.target.Same p)).sum = edges.length := by
  rw [sum_countP_comm]
  have hones : (edges.map fun e => ps.countP fun p => decide (e.target.Same p))
      = edges.map fun _ => 1 := by
    apply List.map_congr_left
    intro e he
    exact countP_same_of_distinct hps (h e he)
  rw [hones]
  simp

/-! ### The figures of a graph -/

/-- No file of the graph comes twice. -/
theorem distinct_files (g : Graph) : Distinct (g.files.map (·.path)) :=
  g.increasing_files.imp fun hbefore => hbefore.not_same

/-- The dependents are counted by their number. -/
theorem length_dependentsOf (g : Graph) (p : Path) :
    (g.dependentsOf p).length = g.dependentCount p := by
  unfold dependentsOf dependentCount
  cases g.dependentsOf? p with
  | none => rfl
  | some set => exact set.length_paths

/-- So are the dependencies. -/
theorem length_dependenciesOf (g : Graph) (p : Path) :
    (g.dependenciesOf p).length = g.dependencyCount p := by
  unfold dependenciesOf dependencyCount
  cases g.dependenciesOf? p with
  | none => rfl
  | some set => exact set.length_paths

/-- The edges of a snapshot are the links. -/
theorem enumerates_edges (h : g.Consistent) : Enumerates g.edges g.Link := by
  have himports := g.enumerates_importsTo g.contains fun a b hab => g.contains_congr hab
  rw [edges_eq_importsTo h]
  refine ⟨himports.increasing, fun a b => (himports.exact a b).trans ?_⟩
  constructor
  · rintro ⟨hab, hb⟩
    exact ⟨h.analysed a b hab, hb, hab⟩
  · rintro ⟨-, hb, hab⟩
    exact ⟨hab, hb⟩

/-- The dangling edges lead from analysed files to others. -/
theorem enumerates_danglingEdges (h : g.Consistent) :
    Enumerates g.danglingEdges fun a b => g.contains a = true ∧ g.Imports a b ∧
    ¬g.contains b = true := by
  have himports :=
    g.enumerates_importsTo (!g.contains ·) fun a b hab => by rw [g.contains_congr hab]
  refine ⟨himports.increasing, fun a b => (himports.exact a b).trans ?_⟩
  rw [Bool.not_eq_true', ← Bool.not_eq_true]
  constructor
  · rintro ⟨hab, hb⟩
    exact ⟨h.analysed a b hab, hab, hb⟩
  · exact And.right

/-- The dependents of an analysed file are the edges into it. -/
theorem countP_target_edges (h : g.Consistent) (hp : g.contains p = true) :
    g.edges.countP (fun e => decide (e.target.Same p)) = g.dependentCount p := by
  have hedges := enumerates_edges h
  rw [← length_dependentsOf]
  refine countP_eq_length (·.target) (·.source) ?_ (g.distinct_dependentsOf p) fun x => ?_
  · apply hedges.increasing.imp
    intro e e' hbefore hsame
    exact hbefore.apart hsame.symm
  · rw [listed_dependentsOf, h.converse]
    constructor
    · rintro ⟨e, he, htarget, hsource⟩
      exact ((hedges.exact x p).1 ⟨e, he, hsource, htarget⟩).2.2
    · intro hxp
      obtain ⟨e, he, hsource, htarget⟩ := (hedges.exact x p).2 ⟨h.analysed x p hxp, hp, hxp⟩
      exact ⟨e, he, htarget, hsource⟩

/-- What an analysed file imports are the edges out of it, and the files that are not analysed. -/
theorem dependencyCount_eq (h : g.Consistent) (hp : g.contains p = true) :
    g.dependencyCount p = g.edges.countP (fun e => decide (e.source.Same p))
      + (g.dependenciesOf p).countP (!g.contains ·) := by
  have hedges := enumerates_edges h
  have hout : g.edges.countP (fun e => decide (e.source.Same p))
      = (g.knownDependencies p).length := by
    refine countP_eq_length (·.source) (·.target) ?_ (g.distinct_knownDependencies p) fun x => ?_
    · exact hedges.increasing.imp fun hbefore => hbefore.apart
    · rw [listed_knownDependencies, hedges.exact]
      constructor
      · rintro ⟨-, hx, hpx⟩
        exact ⟨hpx, hx⟩
      · rintro ⟨hpx, hx⟩
        exact ⟨hp, hx, hpx⟩
  rw [hout, knownDependencies, ← List.countP_eq_length_filter, ← length_dependenciesOf]
  exact length_eq_countP_add g.contains _

/-- The dependents of all the analysed files together are the edges. -/
theorem sum_dependentCount (h : g.Consistent) :
    (g.files.map fun node => g.dependentCount node.path).sum = g.edges.length := by
  have hinto : (g.files.map fun node => g.dependentCount node.path)
      = (g.files.map (·.path)).map fun p => g.edges.countP fun e => decide (e.target.Same p) := by
    rw [List.map_map]
    apply List.map_congr_left
    intro node hnode
    exact (countP_target_edges h (listed_files.1 (listed_of_mem (List.mem_map_of_mem hnode)))).symm
  rw [hinto]
  apply sum_countP_target g.distinct_files
  intro e he
  have hlink := ((enumerates_edges h).exact e.source e.target).1 ⟨e, he, Same.refl _, Same.refl _⟩
  exact listed_files.2 hlink.2.1

/-- The figures that a snapshot and the summary of a graph give agree. -/
structure CountsAgree (g : Graph) (s : Snapshot) : Prop where
  /-- The edges are the imports between analysed files, in order and each once. -/
  edges : Enumerates s.edges fun a b => g.contains a = true ∧ g.contains b = true ∧ g.Imports a b
  /-- The dependents of a file are the edges into it. -/
  dependents : ∀ n ∈ s.nodes,
    n.dependentCount = s.edges.countP fun e => decide (e.target.Same n.node.path)
  /-- What a file imports are the edges out of it, and files that are not analysed. -/
  dependencies : ∀ n ∈ s.nodes, n.dependencyCount
    = s.edges.countP (fun e => decide (e.source.Same n.node.path))
      + (g.dependenciesOf n.node.path).countP (!g.contains ·)
  /-- The average is taken over the dependents of all the files. -/
  total : g.summary.avgDependents.total = (s.nodes.map (·.dependentCount)).sum
  /-- They are as many as the edges. -/
  average : g.summary.avgDependents = ⟨s.edges.length, s.nodes.length⟩
  /-- The imports that are no edges are those of files that are not analysed. -/
  dangling : Enumerates g.danglingEdges fun a b =>
    g.contains a = true ∧ g.Imports a b ∧ ¬g.contains b = true
  /-- The number of all the imports exceeds that of the edges by theirs. -/
  totalEdges : g.summary.totalEdges = s.edges.length + g.danglingEdges.length

/-- **The figures agree.** After every history all the figures about imports, whichever map they are
    taken from and whichever files they leave out, count the same imports. -/
theorem counts_agree (root : Path) (edits : List Edit) (lastUpdated : Nat) :
    (replay root edits).CountsAgree ((replay root edits).snapshot lastUpdated) := by
  have hcons := consistent_replay root edits
  generalize replay root edits = g at hcons ⊢
  have hfile : ∀ node ∈ g.files, g.contains node.path = true := fun node hnode =>
    listed_files.1 (listed_of_mem (List.mem_map_of_mem hnode))
  -- The average is kept as a sum and a number, and is not divided.
  have htotal : g.summary.avgDependents
      = ⟨(g.files.map fun node => g.dependentCount node.path).sum, g.size⟩ := by
    rw [List.sum_eq_foldr]
    simp only [summary, dependentRanks, List.map_map]
    rfl
  refine ⟨enumerates_edges hcons, ?_, ?_, ?_, ?_, enumerates_danglingEdges hcons, ?_⟩
  · intro n hn
    obtain ⟨node, hnode, rfl⟩ := List.mem_map.1 hn
    exact (countP_target_edges hcons (hfile node hnode)).symm
  · intro n hn
    obtain ⟨node, hnode, rfl⟩ := List.mem_map.1 hn
    exact dependencyCount_eq hcons (hfile node hnode)
  · rw [htotal, snapshot, List.map_map]
    rfl
  · rw [htotal, sum_dependentCount hcons, snapshot, List.length_map, files, PathMap.length_values]
    rfl
  · rw [snapshot, edges_eq_importsTo hcons]
    exact g.memberCount_dependencies g.contains

end BlastRadius.Graph
