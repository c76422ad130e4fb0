import BlastRadius.Proofs.Neighbours

namespace BlastRadius.Graph

/-!
# Files can be put in in any order

* `Agrees` — the same analysed files, the same keys in both adjacency maps and the same sets under
  them.
* `dependentsAfter_comm`, `dependenciesAfter_comm` — two analyses of different files change the
  neighbours of a file in either order alike; `dependentsAfter_self`, `dependenciesAfter_self` — an
  analysis changes them only once.
* `agrees_addNode_comm`, `agrees_addNode_self` — the same for whole graphs.
* `Agrees.foldl_perm` — files with different paths can be put in in any order, which with the above
  is `addNode_order_independent`.
-/

open BlastRadius.Path

variable {g g' : Graph} {node other : FileNode} {a : Path}

/-- The same analysed files with the same neighbours. Only the spelling of the keys in the adjacency
    maps may differ. -/
structure Agrees (g g' : Graph) : Prop where
  root : g.root = g'.root
  nodes : g.nodes = g'.nodes
  dependents : ∀ p, g.dependentsOf? p = g'.dependentsOf? p
  dependencies : ∀ p, g.dependenciesOf? p = g'.dependenciesOf? p

namespace Agrees

/-- A graph agrees with itself. -/
theorem refl (g : Graph) : g.Agrees g :=
  ⟨rfl, rfl, fun _ => rfl, fun _ => rfl⟩

/-- Agreeing can be chained. -/
theorem trans {g'' : Graph} (h : g.Agrees g') (h' : g'.Agrees g'') : g.Agrees g'' where
  root := h.root.trans h'.root
  nodes := h.nodes.trans h'.nodes
  dependents p := (h.dependents p).trans (h'.dependents p)
  dependencies p := (h.dependencies p).trans (h'.dependencies p)

end Agrees

/-! ### The neighbours of one file -/

/-- Without the file of an analysis, there is at most the empty set where there was none. -/
theorem getD_map_erase (o : Option PathSet) (p : Path) :
    (o.map (·.erase p)).getD .empty = (o.getD .empty).erase p := by
  cases o with
  | none => exact (PathMap.erase_of_not_contains (by simp)).symm
  | some set => rfl

/-- **Swap.** It does not matter which of two files is analysed first for who imports a third. -/
theorem dependentsAfter_comm (hne : ¬node.path.Same other.path) (a : Path) (o : Option PathSet) :
    dependentsAfter other a (dependentsAfter node a o)
      = dependentsAfter node a (dependentsAfter other a o) := by
  have hne' : ¬other.path.Same node.path := fun h => hne h.symm
  -- Both files leave the set before they are entered, and they do not meet in it.
  have hout : ∀ set : PathSet,
      (set.erase node.path).erase other.path = (set.erase other.path).erase node.path :=
    fun set => set.erase_comm node.path other.path
  have hin : ∀ set : PathSet,
      (set.add node.path).add other.path = (set.add other.path).add node.path :=
    fun set => set.insert_comm hne () ()
  have hmix : ∀ set : PathSet,
      (set.add node.path).erase other.path = PathSet.add (set.erase other.path) node.path :=
    fun set => set.erase_insert_of_ne hne ()
  have hmix' : ∀ set : PathSet,
      (set.add other.path).erase node.path = PathSet.add (set.erase node.path) other.path :=
    fun set => set.erase_insert_of_ne hne' ()
  unfold dependentsAfter
  by_cases hnode : a.Listed node.targets
  · by_cases hother : a.Listed other.targets
    · simp only [hnode, hother, if_true, getD_map_erase, Option.getD_some, hmix, hmix', hout, hin]
    · by_cases hqa : other.path.Same a
      · simp only [hnode, hother, hqa, if_true, if_false, getD_map_erase, Option.getD_some, hmix,
          hout]
      · simp only [hnode, hother, hqa, if_true, if_false, getD_map_erase, Option.map_some, hmix,
          hout]
  · by_cases hother : a.Listed other.targets
    · by_cases hpa : node.path.Same a
      · simp only [hnode, hother, hpa, if_true, if_false, getD_map_erase, Option.getD_some, hmix',
          hout]
      · simp only [hnode, hother, hpa, if_true, if_false, getD_map_erase, Option.map_some, hmix',
          hout]
    · by_cases hpa : node.path.Same a
      · have hqa : ¬other.path.Same a := fun hqa => hne (hpa.trans hqa.symm)
        simp only [hnode, hother, hpa, hqa, if_true, if_false, getD_map_erase, Option.map_some,
          hout]
      · by_cases hqa : other.path.Same a
        · simp only [hnode, hother, hpa, hqa, if_true, if_false, getD_map_erase, Option.map_some,
            hout]
        · simp only [hnode, hother, hpa, hqa, if_false, Option.map_map]
          exact congrArg (Option.map · o) (funext hout)

/-- It does not matter which of two files is analysed first for what a third imports. -/
theorem dependenciesAfter_comm (hne : ¬node.path.Same other.path) (a : Path) (o : Option PathSet) :
    dependenciesAfter other a (dependenciesAfter node a o)
      = dependenciesAfter node a (dependenciesAfter other a o) := by
  unfold dependenciesAfter
  by_cases hpa : node.path.Same a
  · have hqa : ¬other.path.Same a := fun hqa => hne (hpa.trans hqa.symm)
    simp only [if_pos hpa, if_neg hqa]
    -- The set of an analysed file is there, so that naming the file adds nothing.
    split
    · rfl
    · rfl
  · by_cases hqa : other.path.Same a
    · simp only [if_neg hpa, if_pos hqa]
      split
      · rfl
      · rfl
    · simp only [if_neg hpa, if_neg hqa]
      split
      · split
        · rfl
        · rfl
      · rfl

/-- Who imports a file does not change when another one is analysed again. -/
theorem dependentsAfter_self (node : FileNode) (a : Path) (o : Option PathSet) :
    dependentsAfter node a (dependentsAfter node a o) = dependentsAfter node a o := by
  have hout : ∀ set : PathSet, (set.erase node.path).erase node.path = set.erase node.path :=
    fun set => set.erase_erase node.path
  have hmix : ∀ set : PathSet, (set.add node.path).erase node.path = set.erase node.path :=
    fun set => set.erase_insert_self node.path ()
  unfold dependentsAfter
  simp only [getD_map_erase]
  by_cases hnode : a.Listed node.targets
  · simp only [if_pos hnode, Option.getD_some, hmix, hout]
  · simp only [if_neg hnode]
    by_cases hpa : node.path.Same a
    · simp only [if_pos hpa, Option.getD_some, hout]
    · simp only [if_neg hpa, Option.map_map]
      exact congrArg (Option.map · o) (funext fun set => hout set)

/-- Adding a node twice is as good as once, for the dependencies. -/
theorem dependenciesAfter_self (node : FileNode) (a : Path) (o : Option PathSet) :
    dependenciesAfter node a (dependenciesAfter node a o) = dependenciesAfter node a o := by
  unfold dependenciesAfter
  by_cases hpa : node.path.Same a
  · simp only [if_pos hpa]
  · simp only [if_neg hpa]
    split
    · rfl
    · rfl

/-! ### Whole graphs -/

/-- What an analysis leaves depends on what was there up to the spelling of keys. -/
theorem Agrees.addNode (h : g.Agrees g') (hg : g.Consistent) (hg' : g'.Consistent)
    (node : FileNode) : (g.addNode node).Agrees (g'.addNode node) where
  root := by rw [root_addNode, root_addNode, h.root]
  nodes := by rw [nodes_addNode, nodes_addNode, h.nodes]
  dependents p := by
    rw [dependentsOf?, dependentsOf?, get?_dependents_addNode hg, get?_dependents_addNode hg']
    exact congrArg (dependentsAfter node p) (h.dependents p)
  dependencies p := by
    rw [dependenciesOf?, dependenciesOf?, get?_dependencies_addNode, get?_dependencies_addNode]
    exact congrArg (dependenciesAfter node p) (h.dependencies p)

/-- Two different files can be put in in either order. -/
theorem agrees_addNode_comm (hg : g.Consistent) (hne : ¬node.path.Same other.path) :
    ((g.addNode node).addNode other).Agrees ((g.addNode other).addNode node) where
  root := by simp only [root_addNode]
  nodes := by
    simp only [nodes_addNode]
    exact g.nodes.insert_comm hne node other
  dependents p := by
    simp only [dependentsOf?, get?_dependents_addNode (consistent_addNode hg _),
      get?_dependents_addNode hg]
    exact dependentsAfter_comm hne p _
  dependencies p := by
    simp only [dependenciesOf?, get?_dependencies_addNode]
    exact dependenciesAfter_comm hne p _

/-- Putting a file in again changes nothing. -/
theorem agrees_addNode_self (hg : g.Consistent) (node : FileNode) :
    ((g.addNode node).addNode node).Agrees (g.addNode node) where
  root := root_addNode _ node
  nodes := by
    simp only [nodes_addNode]
    exact g.nodes.insert_insert node.path node node
  dependents p := by
    simp only [dependentsOf?, get?_dependents_addNode (consistent_addNode hg _),
      get?_dependents_addNode hg]
    exact dependentsAfter_self node p _
  dependencies p := by
    simp only [dependenciesOf?, get?_dependencies_addNode]
    exact dependenciesAfter_self node p _

/-- Graphs that agree still do after more nodes. -/
theorem Agrees.foldl (h : g.Agrees g') (hg : g.Consistent) (hg' : g'.Consistent)
    (nodes : List FileNode) :
    (nodes.foldl Graph.addNode g).Agrees (nodes.foldl Graph.addNode g') := by
  induction nodes generalizing g g' with
  | nil => exact h
  | cons node nodes ih =>
    exact ih (h.addNode hg hg' node) (consistent_addNode hg node) (consistent_addNode hg' node)

/-- Files with different paths can be put in in any order. -/
theorem Agrees.foldl_perm {nodes nodes' : List FileNode} (hperm : nodes.Perm nodes')
    (hdistinct : Distinct (nodes.map (·.path))) (hg : g.Consistent) :
    (nodes.foldl Graph.addNode g).Agrees (nodes'.foldl Graph.addNode g) := by
  induction hperm generalizing g with
  | nil => exact Agrees.refl g
  | cons node _ ih => exact ih (List.pairwise_cons.1 hdistinct).2 (consistent_addNode hg node)
  | swap node other rest =>
    have hne : ¬other.path.Same node.path :=
      (List.pairwise_cons.1 hdistinct).1 node.path List.mem_cons_self
    exact (agrees_addNode_comm hg hne).foldl (consistent_addNode (consistent_addNode hg other) node)
      (consistent_addNode (consistent_addNode hg node) other) rest
  | trans hfirst _ ih ih' =>
    exact (ih hdistinct hg).trans (ih' (hdistinct.perm (hfirst.map (·.path))) hg)

/-- **Order independence.** After every history, files with different paths can be put in in any two
    orders, and putting a file in twice in a row is putting it in once: the analysed files, the keys
    of both adjacency maps and the sets under them are the same. -/
theorem addNode_order_independent (root : Path) (edits : List Edit) :
    (∀ nodes nodes' : List FileNode, Distinct (nodes.map (·.path)) → nodes.Perm nodes' →
      (nodes.foldl addNode (replay root edits)).Agrees (nodes'.foldl addNode (replay root edits))) ∧
    ∀ node, (((replay root edits).addNode node).addNode node).Agrees
      ((replay root edits).addNode node) := by
  have hcons := consistent_replay root edits
  constructor
  · intro nodes nodes' hdistinct hperm
    exact Agrees.foldl_perm hperm hdistinct hcons
  · intro node
    exact agrees_addNode_self hcons node

namespace Sample

/-- A file that imports some others. -/
def fileAt (path : String) (targets : List String) : FileNode where
  path := .ofString path
  relativePath := .ofString path
  imports := targets.map fun target =>
    ⟨.ofString path, some (.ofString target), target, [], false, false, 1⟩
  exports := []
  lastModified := 1000
  hash := ""
  size := 0
  lineCount := 1

/-- A file is analysed before. -/
def earlier : List Edit :=
  [.add (fileAt "/p/a.ts" ["/p/c.ts"])]

/-- Then it is analysed anew, with imports of itself and of a file that imports it under another
    spelling. -/
def entwined : List FileNode :=
  [fileAt "/p/a.ts" ["/p/b.ts", "/p/./a.ts"], fileAt "/p/b.ts" ["/p/./a.ts", "/p/d.ts"]]

/-- Two files that import each other can be added in either order. -/
theorem addNode_order_independent_entwined :
    Distinct (entwined.map (·.path)) ∧ entwined.Perm entwined.reverse ∧
    (entwined.foldl addNode (replay (.ofString "/p") earlier)).Agrees
      (entwined.reverse.foldl addNode (replay (.ofString "/p") earlier)) := by
  have hdistinct : Distinct (entwined.map (·.path)) := by
    unfold Distinct
    decide
  have hperm : entwined.Perm entwined.reverse := entwined.reverse_perm.symm
  exact ⟨hdistinct, hperm,
    (addNode_order_independent (.ofString "/p") earlier).1 entwined entwined.reverse
      hdistinct hperm⟩

end Sample

end BlastRadius.Graph
