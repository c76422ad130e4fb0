import BlastRadius.Disk.Basic
import BlastRadius.Graph.Node
import BlastRadius.Path.Imprint
import BlastRadius.Path.Map

namespace BlastRadius.Project

/-!
# Cache of analyses

An analysis is kept with the stamp of its file and with what it was resolved against, and holds as
long as both stay. It is kept in memory and, if there is one, in a store on disk that outlives the
cache.

* `CacheEntry` — an analysis with what it was made from.
* `CacheStore` — the analyses on disk, each under the imprint of its path.
* `Cache` — the analyses in memory and on disk.
* `Cache.needsUpdate`, `Cache.get`, `Cache.store`, `Cache.invalidate` — asking and telling it.
-/

open BlastRadius.Graph

/-- An analysis with what it was made from: the stamp of the file, and what its imports were
    resolved against. -/
structure CacheEntry (ρ : Type) where
  node : FileNode
  stamp : Disk.Stamp
  resolution : ρ

/-- The analyses kept on disk, each under the imprint of its path. Paths with the same imprint share
    one. -/
structure CacheStore (ρ : Type) where
  table : Std.ExtTreeMap (List UInt8) (CacheEntry ρ)

namespace CacheStore

variable {ρ : Type}

/-- The store without analyses. -/
def empty : CacheStore ρ :=
  ⟨∅⟩

/-- The analysis under the imprint of a path. -/
def get? (s : CacheStore ρ) (p : Path) : Option (CacheEntry ρ) :=
  s.table[p.imprint]?

/-- The store with an analysis under the imprint of a path. -/
def insert (s : CacheStore ρ) (p : Path) (entry : CacheEntry ρ) : CacheStore ρ :=
  ⟨s.table.insert p.imprint entry⟩

/-- The store without an analysis under the imprint of a path. -/
def erase (s : CacheStore ρ) (p : Path) : CacheStore ρ :=
  ⟨s.table.erase p.imprint⟩

end CacheStore

/-- The analyses in memory, and those on disk if analyses can be kept there. -/
structure Cache (ρ : Type) where
  memory : PathMap (CacheEntry ρ)
  disk : Option (CacheStore ρ)

/-- The most analyses that are kept in memory. -/
def memoryLimit : Nat := 10000

namespace Cache

variable {ρ : Type}

/-- The cache that starts with what is on disk. -/
def ofStore (disk : Option (CacheStore ρ)) : Cache ρ :=
  ⟨.empty, disk⟩

/-- The number of analyses in memory. -/
def size (c : Cache ρ) : Nat :=
  c.memory.size

/-- The analysis of a file: the one in memory, or else the one on disk. -/
def lookup? (c : Cache ρ) (p : Path) : Option (CacheEntry ρ) :=
  match c.memory.get? p with
  | some entry => some entry
  | none => c.disk.bind (·.get? p)

/-- Whether there is no analysis of a file that holds. -/
def needsUpdate [DecidableEq ρ] (c : Cache ρ) (d : Disk) (p : Path) (resolution : ρ) :
    Except DiskError Bool := do
  let stamp ← d.stamp p
  match c.lookup? p with
  | some entry => return entry.stamp ≠ stamp ∨ entry.resolution ≠ resolution
  | none => return true

/-- The analysis of a file, which is taken into memory if there is room for it. -/
def get (c : Cache ρ) (p : Path) : Option FileNode × Cache ρ :=
  match c.lookup? p with
  | none => (none, c)
  | some entry =>
    if c.memory.contains p then (some entry.node, c)
    else if c.size < memoryLimit
      then (some entry.node, { c with memory := c.memory.insert p entry })
    else (some entry.node, c)

/-- The cache with one analysis less in memory, if it is full. Nothing promises which one goes,
    since the entries of a hash map have no order; here it is the one with the first path. -/
def makeRoom (c : Cache ρ) : Cache ρ :=
  if memoryLimit ≤ c.size then
    match c.memory.paths with
    | [] => c
    | p :: _ => { c with memory := c.memory.erase p }
  else c

/-- The cache with an analysis in memory and on disk. -/
def keep (c : Cache ρ) (p : Path) (entry : CacheEntry ρ) : Cache ρ :=
  let c := c.makeRoom
  { memory := c.memory.insert p entry, disk := c.disk.map (·.insert p entry) }

/-- The cache with an analysis of a file as it is on disk now. -/
def store (c : Cache ρ) (d : Disk) (p : Path) (node : FileNode) (resolution : ρ) :
    Except DiskError (Cache ρ) := do
  let stamp ← d.stamp p
  return c.keep p ⟨node, stamp, resolution⟩

/-- The cache with an analysis of a file, or as it was if there is no such file. -/
def storeIfPresent (c : Cache ρ) (d : Disk) (p : Path) (node : FileNode) (resolution : ρ) :
    Cache ρ :=
  match c.store d p node resolution with
  | .ok c => c
  | .error _ => c

/-- The cache without an analysis of a file. -/
def invalidate (c : Cache ρ) (p : Path) : Cache ρ :=
  { memory := c.memory.erase p, disk := c.disk.map (·.erase p) }

end Cache

end BlastRadius.Project
