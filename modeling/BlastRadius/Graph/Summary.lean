import BlastRadius.Graph.Cycle
import BlastRadius.Graph.Depth
import BlastRadius.Graph.Impact

namespace BlastRadius.Graph

/-!
# Summary of a graph

* `Mean` — a total over a count.
* `Ranked` — a file with a count, and the order of such files.
* `Summary`, `summary` — figures about a whole graph.
* `Match`, `find` — files by a part of their path.
-/

/-- A total over a count. -/
structure Mean where
  total : Nat
  count : Nat
deriving DecidableEq, Repr

/-- The nearest double. The mean of nothing is zero. -/
def Mean.toFloat (m : Mean) : Float :=
  if m.count = 0 then 0 else m.total.toFloat / m.count.toFloat

/-- A file with a count. -/
structure Ranked where
  path : Path
  count : Nat
deriving DecidableEq

/-- The order of ranked files: by falling count, then by path. -/
def Ranked.before (a b : Ranked) : Bool :=
  b.count < a.count || (a.count == b.count && a.path.precedes b.path)

/-- A file with this many dependents is a god module. -/
def godModuleThreshold : Nat := 20

/-- A file whose change affects this many files has a high impact. -/
def highImpactThreshold : Nat := 10

/-- Figures about a whole graph. -/
structure Summary where
  totalFiles : Nat
  totalEdges : Nat
  avgDependents : Mean
  maxDependents : Nat
  maxDependentsFile : Option Path
  avgDepth : Mean
  maxDepth : Nat
  maxDepthPath : List Path
  orphanFiles : List Path
  godModules : List Ranked
  highImpactFiles : List Ranked
  cycles : List Cycle

/-- The first of the files with the highest count. -/
def highest : List Ranked → Option Ranked
  | [] => none
  | file :: files => some (files.foldl
    (fun best f => if best.count < f.count then f else best) file)

/-- The analysed files with the number of their dependents. -/
def dependentRanks (g : Graph) : List Ranked :=
  g.files.map fun node => ⟨node.path, g.dependentCount node.path⟩

/-- The analysed files with the number of files that a change of them affects. -/
def impactRanks (g : Graph) : List Ranked :=
  g.files.filterMap fun node => (g.impact? node.path).map fun impact => ⟨node.path, impact.total⟩

/-- The files with a count of at least `threshold`, in the order of ranked files. -/
def ranking (threshold : Nat) (files : List Ranked) : List Ranked :=
  (files.filter (threshold ≤ ·.count)).mergeSort Ranked.before

/-- Figures about a whole graph. -/
def summary (g : Graph) : Summary :=
  let ranks := g.dependentRanks
  let top := highest ranks
  let deepest := g.maxDepth
  {
    totalFiles := g.size
    totalEdges := memberCount g.dependencies
    avgDependents := ⟨(ranks.map (·.count)).foldr (· + ·) 0, g.size⟩
    maxDependents := (top.map (·.count)).getD 0
    maxDependentsFile := top.map (·.path)
    avgDepth := ⟨deepest.depth, 2⟩
    maxDepth := deepest.depth
    maxDepthPath := deepest.path
    orphanFiles := (ranks.filter (·.count == 0)).map (·.path)
    godModules := ranking godModuleThreshold ranks
    highImpactFiles := ranking highImpactThreshold g.impactRanks
    cycles := g.cycles }

/-! ### Finding files -/

/-- A file found by a part of its path. -/
structure Match where
  path : Path
  relativePath : Path
  dependentCount : Nat
  exports : List String

/-- The analysed files whose path or relative path has `query` in it. -/
def find (g : Graph) (query : String) : List Match :=
  let isHit := fun (p : Path) => Text.containsText query.toList p.chars
  (g.files.filter fun node => isHit node.path || isHit node.relativePath).map fun node => {
    path := node.path
    relativePath := node.relativePath
    dependentCount := g.dependentCount node.path
    exports := node.exportNames }

end BlastRadius.Graph
