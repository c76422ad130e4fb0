import BlastRadius.Graph.Basic

namespace BlastRadius.Graph

/-!
# The longest import chain

* `Depth` — a chain with its number of steps.
* `deepen` — the best chain among the ways to go on from a trail.
* `maxDepth` — the longest chain without repeated files.
-/

/-- A chain of imports: the number of steps, and the files from the importing to the imported
    end. -/
structure Depth where
  depth : Nat
  path : List Path
deriving DecidableEq

/-- The longer of the best chain so far and a trail, which is given backwards. Of chains of the same
    length the earlier one stays. -/
def Depth.better (best : Depth) (trail : List Path) : Depth :=
  if best.depth < trail.length - 1 then ⟨trail.length - 1, trail.reverse⟩ else best

/-- The best chain among those so far and all the ways to go on from `file` at the end of a trail.
    The trail is given backwards and has at most `fuel` files more to come. -/
def deepen (g : Graph) : (fuel : Nat) → (file : Path) → (trail : List Path) → Depth → Depth
  | 0, _, _, best => best
  | fuel + 1, file, trail, best =>
    let trail := file :: trail
    (g.knownDependencies file).foldl
      (fun best dep =>
        if trail.any fun q => decide (q.Same dep) then best
        else g.deepen fuel dep trail (best.better (dep :: trail)))
      best

/-- The best chain so far or from a file on. The first file by itself is a chain. -/
def deepenFrom (g : Graph) (best : Depth) (p : Path) : Depth :=
  let best := if best.path.isEmpty then { best with path := [p] } else best
  g.deepen g.size p [] best

/-- The longest chain of imports among analysed files in which no file is repeated. -/
def maxDepth (g : Graph) : Depth :=
  (g.files.map (·.path)).foldl g.deepenFrom ⟨0, []⟩

end BlastRadius.Graph
