import BlastRadius.Graph.Basic

namespace BlastRadius.Graph

/-!
# Impact of a change

When a file changes, the files that import it are affected, and so on through whoever imports those.

* `Impact` — what is affected when a file changes.
* `spread` — the files that are reached through dependents, breadth first.
* `impact?` — the impact of an analysed file.
-/

/-- What is affected when a file changes. -/
structure Impact where
  file : Path
  /-- The other files that import it. -/
  direct : List Path
  /-- What is reached from those, in the order of reaching it. -/
  transitive : List Path
  /-- The exports that many direct dependents use. -/
  criticalExports : List String

/-- The number of files affected. -/
def Impact.total (i : Impact) : Nat :=
  i.direct.length + i.transitive.length

/-- An export is critical when more than this many direct dependents use it. -/
def criticalThreshold : Nat := 3

/-- The files that are reached from a queue through dependents, breadth first, except those already
    seen. At most `fuel` files leave the queue. -/
def spread (g : Graph) : (fuel : Nat) → (queue : List Path) → (seen : PathSet) → List Path
  | 0, _, _ => []
  | _ + 1, [], _ => []
  | fuel + 1, current :: queue, seen =>
    let fresh := (g.dependentsOf current).filter (!seen.contains ·)
    fresh ++ g.spread fuel (queue ++ fresh) (fresh.foldl PathSet.add seen)

/-- The number of members of all the sets. -/
def memberCount (sets : PathMap PathSet) : Nat :=
  (sets.values.map (·.size)).foldr (· + ·) 0

/-- The number of entries in all the sets of dependents. No more files can ever be queued, since
    each is queued once. -/
def dependentEntries (g : Graph) : Nat :=
  memberCount g.dependents

/-- Whether a file imports a name from `target`. -/
def uses (node : FileNode) (target : Path) (symbol : String) : Bool :=
  node.imports.any fun edge =>
    edge.target.any (fun t => decide (t.Same target)) && edge.symbols.contains symbol

/-- How many of some files use an export of `target`. -/
def userCount (g : Graph) (files : List Path) (target : Path) (symbol : String) : Nat :=
  ((files.filterMap g.nodes.get?).filter (uses · target symbol)).length

/-- What is affected when an analysed file changes. -/
def impact? (g : Graph) (p : Path) : Option Impact := do
  let node ← g.nodes.get? p
  let direct := (g.dependentsOf p).filter fun dependent => ¬dependent.Same p
  let seen := (p :: direct).foldl PathSet.add .empty
  return {
    file := p
    direct
    transitive := g.spread g.dependentEntries direct seen
    criticalExports :=
      node.exportNames.filter fun name => criticalThreshold < g.userCount direct p name }

end BlastRadius.Graph
