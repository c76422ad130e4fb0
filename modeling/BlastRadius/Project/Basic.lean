import BlastRadius.Change.Basic
import BlastRadius.Disk.Scan
import BlastRadius.Graph.Basic
import BlastRadius.Project.Aliases
import BlastRadius.Project.Analysis
import BlastRadius.Project.Cache
import BlastRadius.Project.Config
import BlastRadius.Resolve.Fingerprint

namespace BlastRadius

/-!
# Projects

A project holds the graph of its script files and keeps it current: by analysing all the files, or
by applying single changes.

* `Project` — the state of an analysis.
* `Project.identity` — the path under which a file stands in the graph.
* `Project.analyze` — analysing all the files on disk.
* `Project.applyChange`, `Project.applyChanges` — following changes on disk.
-/

open BlastRadius.Graph Project Resolve

/-- The state of the analysis of a project. -/
structure Project where
  root : Path
  config : Config
  cache : Option (Cache Fingerprint)
  aliases : AliasTable
  /-- The script files that specifiers are resolved against. -/
  known : PathSet
  /-- The fingerprint of the known files and the aliases. -/
  resolution : Fingerprint
  graph : Graph

namespace Project

/-- Why a project cannot be opened. -/
structure OpenError where
  root : Path
  cause : DiskError

/-- The message for a project that cannot be opened. -/
def OpenError.message (e : OpenError) : String :=
  "Cannot open project root " ++ e.root.spelling ++ ": " ++ e.cause.message

/-- The project at a root before any analysis. Which fingerprint stands here makes no difference,
    zero would do as well: it is read for known files alone, none is known yet, and it is refreshed
    as soon as one is, so this value is never read. -/
def atRoot (root : Path) (config : Config) (cache : Option (Cache Fingerprint)) : Project where
  root
  config
  cache
  aliases := .bare root
  known := .empty
  resolution := fingerprint [] (.bare root)
  graph := .empty root

/-- The project at a root on disk, with the analyses that are kept in `store`. -/
def openAt (d : Disk) (root : Path) (config : Config) (store : Option (CacheStore Fingerprint)) :
    Except OpenError Project :=
  match d.canonical root with
  | .error cause => .error ⟨root, cause⟩
  | .ok root => .ok (atRoot root config
    (if config.useCache then some (Cache.ofStore store) else none))

/-- The path under which a file stands in the graph: absolute and normal. Relative paths start from
    the root. -/
def identity (p : Project) (path : Path) : Path :=
  if path.isAbsolute then path.normalize else (p.root.join path).normalize

/-- What specifiers are resolved against. -/
def context (p : Project) : Context :=
  ⟨p.aliases, p.known⟩

/-- The project with the fingerprint of its known files and aliases. -/
def refreshResolution (p : Project) : Project :=
  { p with resolution := p.context.fingerprint }

/-! ### Analysing all the files -/

/-- The kept analysis of a file, if it still holds, and the cache after looking for it. -/
def reuse? (cache : Cache Fingerprint) (d : Disk) (path : Path) (resolution : Fingerprint) :
    Option FileNode × Cache Fingerprint :=
  match cache.needsUpdate d path resolution with
  | .ok false => cache.get path
  | _ => (none, cache)

/-- The analysis of a file, kept or new, and the cache with it. -/
def analyzeCached (d : Disk) (root : Path) (context : Context) (resolution : Fingerprint)
    (cache : Cache Fingerprint) (path : Path) : Option FileNode × Cache Fingerprint :=
  match reuse? cache d path resolution with
  | (some node, cache) => (some node, cache)
  | (none, cache) =>
    match analyzeFile? d root context path with
    | none => (none, cache)
    | some node => (some node, cache.storeIfPresent d path node resolution)

/-- The analyses of some files, kept or new, and the cache with them. -/
def analyzeAllCached (d : Disk) (root : Path) (context : Context) (resolution : Fingerprint)
    (cache : Cache Fingerprint) : List Path → List FileNode × Cache Fingerprint
  | [] => ([], cache)
  | path :: paths =>
    let (node, cache) := analyzeCached d root context resolution cache path
    let (nodes, cache) := analyzeAllCached d root context resolution cache paths
    (node.toList ++ nodes, cache)

/-- The analyses of some files, and the cache with them if there is one. -/
def analyzeAll (d : Disk) (root : Path) (context : Context) (resolution : Fingerprint)
    (cache : Option (Cache Fingerprint)) (paths : List Path) :
    List FileNode × Option (Cache Fingerprint) :=
  match cache with
  | none => (paths.filterMap (analyzeFile? d root context), none)
  | some cache =>
    let (nodes, cache) := analyzeAllCached d root context resolution cache paths
    (nodes, some cache)

/-- The project after an analysis of all its files on disk. -/
def analyze (p : Project) (d : Disk) : Project :=
  let files := d.scan p.root
  let p :=
    { p with aliases := loadAliases d p.root, known := PathSet.ofList files }.refreshResolution
  let (nodes, cache) := analyzeAll d p.root p.context p.resolution p.cache files
  { p with cache, graph := Graph.ofNodes p.root nodes }

/-! ### Following changes -/

/-- Whether changes of a file matter: it is a script file of the project that is not left out. -/
def admits (p : Project) (path : Path) : Bool :=
  path.isUnder p.root && isScript path && !isExcluded p.root path

/-- The project without a file, and whether the graph changed. -/
def forget (p : Project) (path : Path) : Project × Bool :=
  let p :=
    if p.known.contains path then { p with known := p.known.erase path }.refreshResolution else p
  let p := { p with cache := p.cache.map (Cache.invalidate · path) }
  if p.graph.contains path then ({ p with graph := p.graph.removeNode path }, true) else (p, false)

/-- The project with a file analysed anew, and whether the graph changed. A file that cannot be read
    changes nothing. -/
def revisit (p : Project) (d : Disk) (path : Path) : Project × Bool :=
  let isNew := !p.known.contains path
  let known := p.known.add path
  match analyzeFile? d p.root ⟨p.aliases, known⟩ path with
  | none => (p, false)
  | some node =>
    let p := if isNew then { p with known }.refreshResolution else p
    ({ p with
        cache := p.cache.map (Cache.storeIfPresent · d path node p.resolution)
        graph := p.graph.addNode node },
      true)

/-- The project after a change on disk, and whether the graph changed. -/
def applyChange (p : Project) (d : Disk) (change : Change) : Project × Bool :=
  let path := p.identity change.path
  if p.admits path then
    match change.kind with
    | .deleted => p.forget path
    | .created => p.revisit d path
    | .modified => p.revisit d path
  else (p, false)

/-- The project after some changes on disk, and for each whether the graph changed. -/
def applyEach (p : Project) (d : Disk) : List Change → Project × List Bool
  | [] => (p, [])
  | change :: changes =>
    let (p, applied) := p.applyChange d change
    let (p, rest) := p.applyEach d changes
    (p, applied :: rest)

/-- The project after some changes on disk, and how many of them changed the graph. -/
def applyChanges (p : Project) (d : Disk) (changes : List Change) : Project × Nat :=
  let (p, applied) := p.applyEach d changes
  (p, applied.count true)

end Project

end BlastRadius
