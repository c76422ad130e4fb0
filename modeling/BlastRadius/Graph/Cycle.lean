import BlastRadius.Graph.Basic

namespace BlastRadius.Graph

/-!
# Import cycles

A depth-first search over the analysed files meets a file that is still being visited exactly when
it walks around a cycle.

* `Cycle` — a cycle as it is walked, with its first file again at the end.
* `Cycle.key` — which cycles count as one.
* `cycles` — the cycles that the search meets, each once.
-/

/-- A cycle as it is walked, with its first file again at the end. -/
structure Cycle where
  files : List Path
deriving DecidableEq

/-- The number of different files in a cycle. -/
def Cycle.length (c : Cycle) : Nat :=
  c.files.length - 1

/-- Whether there is no file in it. -/
def Cycle.isEmpty (c : Cycle) : Bool :=
  c.files.isEmpty

/-- The spellings of the files of a cycle, each once and in order, with bars between them. Cycles
    with the same key count as one. -/
def Cycle.key (c : Cycle) : String :=
  let spellings := c.files.map (·.spelling)
  "|".intercalate ((spellings.mergeSort fun a b => decide (a ≤ b)).eraseDups)

/-- Where the search for cycles stands. -/
structure CycleSearch where
  /-- The files that were reached. -/
  visited : PathSet
  /-- The keys of the cycles found. -/
  keys : List String
  /-- The cycles found, the last one first. -/
  found : List Cycle

/-- Nothing visited and nothing found. -/
def CycleSearch.start : CycleSearch :=
  ⟨.empty, [], []⟩

/-- The search with a file marked as visited. -/
def CycleSearch.visit (s : CycleSearch) (p : Path) : CycleSearch :=
  { s with visited := s.visited.add p }

/-- The search with a cycle recorded, unless one with its key was. -/
def CycleSearch.record (s : CycleSearch) (c : Cycle) : CycleSearch :=
  if s.keys.contains c.key then s
  else { s with keys := c.key :: s.keys, found := c :: s.found }

/-- The part of a trail, which is given backwards, from `p` on. -/
def loopFrom (trail : List Path) (p : Path) : List Path :=
  let inner := trail.takeWhile fun q => ¬q.Same p
  (inner ++ (trail.drop inner.length).take 1).reverse

/-- The search after all the imports of the last file of a trail. The trail is given backwards and
    has at most `fuel` files more to come. -/
def searchCycles (g : Graph) :
    (fuel : Nat) → (file : Path) → (trail : List Path) → CycleSearch → CycleSearch
  | 0, _, _, s => s
  | fuel + 1, file, trail, s =>
    let trail := file :: trail
    (g.knownDependencies file).foldl
      (fun s dep =>
        if !s.visited.contains dep then g.searchCycles fuel dep trail (s.visit dep)
        else if trail.any fun q => decide (q.Same dep) then s.record ⟨loopFrom trail dep ++ [dep]⟩
        else s)
      s

/-- The search from a file that was not visited before. -/
def searchFrom (g : Graph) (s : CycleSearch) (p : Path) : CycleSearch :=
  if s.visited.contains p then s else g.searchCycles g.size p [] (s.visit p)

/-- The import cycles that a depth-first search meets, in the order of meeting them. -/
def cycles (g : Graph) : List Cycle :=
  ((g.files.map (·.path)).foldl g.searchFrom .start).found.reverse

end BlastRadius.Graph
