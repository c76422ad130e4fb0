import BlastRadius.Graph.Node
import BlastRadius.Path.Map

namespace BlastRadius

/-!
# Dependency graphs

A dependency graph holds the analysed files and, for every file that was named, who imports it and
what it imports. A file may be named without being analysed.

* `Graph` — the graph.
* `Graph.addNode`, `Graph.removeNode` — putting an analysed file in and taking it out.
* `Graph.dependentsOf?`, `Graph.dependenciesOf?` — the neighbours of a file.
-/

open BlastRadius.Graph

/-- Every analysed file stands under its own path. -/
def PathMap.Keyed (nodes : PathMap FileNode) : Prop :=
  ∀ (p : Path) (node : FileNode), nodes.get? p = some node → node.path.Same p

/-- A node that is put under its own path keeps every node under its path. -/
theorem PathMap.Keyed.insert {nodes : PathMap FileNode} (h : nodes.Keyed) (node : FileNode) :
    (nodes.insert node.path node).Keyed := by
  intro p other hother
  rw [PathMap.get?_insert] at hother
  split at hother
  · next hsame =>
    cases hother
    exact hsame
  · exact h p other hother

/-- Taking a path out keeps every other node under its path. -/
theorem PathMap.Keyed.erase {nodes : PathMap FileNode} (h : nodes.Keyed) (path : Path) :
    (nodes.erase path).Keyed := by
  intro p other hother
  rw [PathMap.get?_erase] at hother
  split at hother
  · cases hother
  · exact h p other hother

/-- A dependency graph. -/
structure Graph where
  root : Path
  nodes : PathMap FileNode
  /-- Who imports a file. -/
  dependents : PathMap PathSet
  /-- What a file imports. -/
  dependencies : PathMap PathSet
  keyed : nodes.Keyed

namespace Graph

/-- The graph without files. -/
def empty (root : Path) : Graph :=
  ⟨root, .empty, .empty, .empty, by simp [PathMap.Keyed]⟩

/-- Whether a file is analysed. -/
def contains (g : Graph) (p : Path) : Bool :=
  g.nodes.contains p

/-- The analysed files in the order of their paths. -/
def files (g : Graph) : List FileNode :=
  g.nodes.values

/-- The number of analysed files. -/
def size (g : Graph) : Nat :=
  g.nodes.size

/-- Who imports a file, if it was ever named. -/
def dependentsOf? (g : Graph) (p : Path) : Option PathSet :=
  g.dependents.get? p

/-- What a file imports, if it was ever named. -/
def dependenciesOf? (g : Graph) (p : Path) : Option PathSet :=
  g.dependencies.get? p

/-- Who imports a file, in order. -/
def dependentsOf (g : Graph) (p : Path) : List Path :=
  ((g.dependentsOf? p).map (·.paths)).getD []

/-- What a file imports, in order. -/
def dependenciesOf (g : Graph) (p : Path) : List Path :=
  ((g.dependenciesOf? p).map (·.paths)).getD []

/-- How many files import a file. -/
def dependentCount (g : Graph) (p : Path) : Nat :=
  ((g.dependentsOf? p).map (·.size)).getD 0

/-- How many files a file imports. -/
def dependencyCount (g : Graph) (p : Path) : Nat :=
  ((g.dependenciesOf? p).map (·.size)).getD 0

/-! ### Adjacency -/

/-- The sets with `member` taken out of the one under `p`, if there is one. -/
def withdraw (sets : PathMap PathSet) (p member : Path) : PathMap PathSet :=
  match sets.get? p with
  | some set => sets.insert p (set.erase member)
  | none => sets

/-- The sets with `member` in the one under `p`, which is made if there is none. -/
def enter (sets : PathMap PathSet) (p member : Path) : PathMap PathSet :=
  sets.insert p (((sets.get? p).getD .empty).add member)

/-- The sets with one under `p`, which is empty if there was none. -/
def ensure (sets : PathMap PathSet) (p : Path) : PathMap PathSet :=
  if sets.contains p then sets else sets.insert p .empty

/-- The graph without the imports of a file. -/
def retract (g : Graph) (p : Path) : Graph :=
  { g with
    dependencies := g.dependencies.erase p
    dependents :=
      (g.dependenciesOf p).foldl (fun sets target => withdraw sets target p) g.dependents }

/-! ### Changing a graph -/

/-- The graph with an analysed file, in the place of an earlier analysis of it. -/
def addNode (g : Graph) (node : FileNode) : Graph :=
  let id := node.path
  let g := if g.contains id then g.retract id else g
  let targets := PathSet.ofList node.targets
  let dependents := targets.paths.foldl (fun sets target => enter sets target id) g.dependents
  let dependencies := targets.paths.foldl ensure g.dependencies
  { g with
    dependents := ensure dependents id
    dependencies := dependencies.insert id targets
    nodes := g.nodes.insert id node
    keyed := g.keyed.insert node }

/-- The graph without an analysed file. The imports that other files say they have of it stay with
    them. -/
def removeNode (g : Graph) (p : Path) : Graph :=
  if g.contains p then
    let g := { g with nodes := g.nodes.erase p, keyed := g.keyed.erase p }.retract p
    { g with
      dependents := g.dependents.erase p
      dependencies :=
        (g.dependentsOf p).foldl (fun sets dependent => withdraw sets dependent p) g.dependencies }
  else g

/-- The graph of some analysed files. -/
def ofNodes (root : Path) (nodes : List FileNode) : Graph :=
  nodes.foldl addNode (empty root)

/-- What a file imports and is analysed itself, in order. -/
def knownDependencies (g : Graph) (p : Path) : List Path :=
  (g.dependenciesOf p).filter g.contains

end Graph

end BlastRadius
