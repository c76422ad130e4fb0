import BlastRadius.Proofs.Cache

namespace BlastRadius.Project

/-!
# Analysing all the files

What an analysis of all the files of a project leaves.

* `Opened` — the root of the project was found on a disk.
* `outcome`, `analyze_eq` — the analyses of all the files, and the project with them.
* `OwnAnalyses` — all the analyses are of files that the scan lists. They are if there is no cache,
  and if the cache holds only analyses of these files (`ownAnalyses_of_within`).
* `tidy_analyze`, `exact_analyze` — the project is tidy then, and its graph has all the imports.
-/

open BlastRadius.Graph Component Disk BlastRadius.Path Resolve

variable {p : Project} {d : Disk} {f : Path}

/-! ### The files of a project -/

/-- The root was found on some disk. -/
def Opened (p : Project) : Prop :=
  ∃ d root, Disk.Proper d ∧ d.canonical root = .ok p.root

/-- The place that a path leads to is made of proper names. -/
theorem properName_of_walk (hd : d.Proper) {path : Path} {place : List String}
    (h : d.walk path = .ok place) : ∀ name ∈ place, ProperName name := by
  rw [walk_eq_ok] at h
  obtain ⟨first, rest, hcons⟩ := exists_segments_eq_cons path.chars
  obtain ⟨front, segment, hsegs⟩ :=
    (List.eq_nil_or_concat' (segments path.chars)).resolve_left (by simp [hcons])
  -- Only the last segment can leave the place below a directory, and it has no separator.
  have hseparator : '/' ∉ segment := separator_not_mem_segments (by rw [hsegs]; simp)
  rw [hsegs, follow_concat] at h
  obtain ⟨above, -, hstep⟩ := h
  obtain ⟨children, hchildren, hkind⟩ := step_eq_ok hstep
  have habove : ∀ name ∈ above, ProperName name := by simpa using (hd.at? hchildren).1
  suffices hplace : ∀ name ∈ place.reverse, ProperName name by simpa using hplace
  rcases hkind with ⟨-, heq⟩ | ⟨-, heq⟩ | ⟨hidle, hup, -, heq⟩
  · rw [heq]
    exact habove
  · rw [heq]
    exact fun name hname => habove name (List.mem_of_mem_tail hname)
  · rw [heq]
    refine List.forall_mem_cons.2 ⟨⟨?_, ?_, ?_⟩, habove⟩
    · rw [String.toList_ofList]
      exact hidle
    · rw [String.toList_ofList]
      exact hup
    · rw [String.toList_ofList]
      exact hseparator

/-- The root of an opened project is canonical. -/
theorem Opened.canonical (h : p.Opened) : p.root.Canonical := by
  obtain ⟨d, root, hd, hroot⟩ := h
  unfold Disk.canonical at hroot
  obtain ⟨⟨⟩, -, hroot⟩ := bind_eq_ok.1 hroot
  obtain ⟨place, hplace, hroot⟩ := bind_eq_ok.1 hroot
  exact ⟨place, properName_of_walk hd hplace, (Except.ok.inj hroot).symm⟩

/-- A scan from a canonical root finds canonical paths. -/
theorem canonical_of_mem_scan (hd : d.Proper) {root : Path} (hroot : root.Canonical)
    (hf : f ∈ d.scan root) : f.Canonical := by
  obtain ⟨place, hplace, rfl⟩ := hroot
  exact (hd.mem_scan hplace hf).1

/-- Changes of a file that a scan lists matter. -/
theorem admits_of_mem_scan (hd : d.Proper) (hroot : p.root.Canonical) (hf : f ∈ d.scan p.root) :
    p.admits f = true := by
  obtain ⟨place, hplace, heq⟩ := hroot
  rw [heq] at hf
  obtain ⟨-, hunder, hscript, hexcluded⟩ := hd.mem_scan hplace hf
  rw [admits, heq, hunder, hscript, hexcluded]
  rfl

/-- A canonical path is its own identity. -/
theorem identity_of_canonical (p : Project) (hf : f.Canonical) : p.identity f = f := by
  rw [identity, if_pos hf.isAbsolute, hf.normalize_eq]

/-! ### Analysing all the files -/

/-- The project with the files and the aliases that are on disk. -/
def prepared (p : Project) (d : Disk) : Project :=
  { p with aliases := loadAliases d p.root, known :=
    PathSet.ofList (d.scan p.root) }.refreshResolution

/-- The analyses of all the files, kept or new, and the cache with them. -/
def outcome (p : Project) (d : Disk) : List FileNode × Option (Cache Fingerprint) :=
  analyzeAll d p.root (p.prepared d).context (p.prepared d).resolution p.cache (d.scan p.root)

/-- An analysis reads the aliases and known files first, and then builds the graph from its
    outcome. -/
theorem analyze_eq (p : Project) (d : Disk) :
    p.analyze d =
      { p.prepared d with
        cache := (p.outcome d).2, graph := Graph.ofNodes p.root (p.outcome d).1 } := by
  unfold analyze outcome prepared refreshResolution
  dsimp only

/-- All the analyses are of files that the scan lists. -/
def OwnAnalyses (p : Project) (d : Disk) : Prop :=
  ∀ node ∈ (p.outcome d).1, node.path ∈ d.scan p.root

/-- An analysis keeps the root. -/
theorem root_analyze (p : Project) (d : Disk) : (p.analyze d).root = p.root := by
  rw [analyze_eq]
  rfl

/-- An analysis keeps the identities of files. -/
theorem identity_analyze (p : Project) (d : Disk) (x : Path) :
    (p.analyze d).identity x = p.identity x := by
  rw [identity, root_analyze]
  rfl

/-- Its aliases are those that the disk configures. -/
theorem aliases_analyze (p : Project) (d : Disk) :
    (p.analyze d).aliases = loadAliases d p.root := by
  rw [analyze_eq]
  rfl

/-- Its known files are those of the scan. -/
theorem known_analyze (p : Project) (d : Disk) :
    (p.analyze d).known = PathSet.ofList (d.scan p.root) := by
  rw [analyze_eq]
  rfl

/-- Its graph is built from its outcome. -/
theorem graph_analyze (p : Project) (d : Disk) :
    (p.analyze d).graph = Graph.ofNodes p.root (p.outcome d).1 := by
  rw [analyze_eq]

/-- Its context is the one that the files were analysed in. -/
theorem context_analyze (p : Project) (d : Disk) :
    (p.analyze d).context = (p.prepared d).context := by
  unfold context
  rw [aliases_analyze, known_analyze]
  rfl

/-- Without a cache, every scanned file is analysed from the disk. -/
theorem outcome_of_uncached (h : p.cache = none) :
    (p.outcome d).1 = (d.scan p.root).filterMap (analyzeFile? d p.root (p.analyze d).context) := by
  rw [outcome, h, context_analyze]
  rfl

/-- Without a cache, only scanned files are analysed. -/
theorem ownAnalyses_of_uncached (h : p.cache = none) : p.OwnAnalyses d := by
  intro node hnode
  rw [outcome_of_uncached h] at hnode
  obtain ⟨f, hf, hanalysis⟩ := List.mem_filterMap.1 hnode
  rw [path_of_analyzeFile? hanalysis]
  exact hf

/-- The same holds where the cache keeps to the scanned files. -/
theorem ownAnalyses_of_within (h : ∀ c, p.cache = some c → c.Within (d.scan p.root)) :
    p.OwnAnalyses d := by
  cases hcache : p.cache with
  | none => exact ownAnalyses_of_uncached hcache
  | some c =>
    unfold OwnAnalyses outcome
    rw [hcache]
    exact analyzeAllCached_within (h c hcache)

/-- The graph of an analysis is exact. -/
theorem exact_analyze (hroot : p.root.Canonical) (hd : d.Proper) (hown : p.OwnAnalyses d) :
    (p.analyze d).graph.Exact := by
  rw [graph_analyze]
  exact exact_ofNodes p.root fun node hnode => canonical_of_mem_scan hd hroot (hown node hnode)

/-- An analysis leaves a tidy project. -/
theorem tidy_analyze (hroot : p.root.Canonical) (hd : d.Proper) (hown : p.OwnAnalyses d) :
    (p.analyze d).Tidy where
  root := by
    rw [root_analyze]
    exact hroot
  known := by
    rw [known_analyze]
    exact PathSet.canonical_ofList fun f hf => canonical_of_mem_scan hd hroot hf
  consistent := (exact_analyze hroot hd hown).consistent
  names := (exact_analyze hroot hd hown).names
  analysed_known x hx := by
    rw [graph_analyze] at hx
    obtain ⟨node, hnode, hsame⟩ := contains_ofNodes.1 hx
    rw [known_analyze, PathSet.contains_ofList]
    exact ⟨node.path, hown node hnode, hsame⟩
  graph_root := by
    rw [graph_analyze, root_ofNodes, root_analyze]

/-- A scanned file that can be read stands in the graph as it was read, if nothing is kept. -/
theorem get?_analyze_of_uncached (hroot : p.root.Canonical) (hd : d.Proper)
    (hcache : p.cache = none) (hf : f ∈ d.scan p.root) {node : FileNode}
    (hnode : analyzeFile? d p.root (p.analyze d).context f = some node) :
    (p.analyze d).graph.nodes.get? f = some node := by
  rw [graph_analyze, outcome_of_uncached hcache]
  refine get?_ofNodes ⟨node, List.mem_filterMap.2 ⟨f, hf, hnode⟩, ?_⟩ fun other hother hsame => ?_
  · rw [path_of_analyzeFile? hnode]
    exact Same.refl f
  · obtain ⟨f', hf', hother⟩ := List.mem_filterMap.1 hother
    rw [path_of_analyzeFile? hother] at hsame
    -- The file is listed in one spelling only.
    obtain rfl :=
      (canonical_of_mem_scan hd hroot hf').eq_of_same (canonical_of_mem_scan hd hroot hf) hsame
    exact Option.some.inj (hother.symm.trans hnode)

/-- A file stands in the graph only as it was read, if nothing is kept. -/
theorem analysis_of_get?_analyze (hroot : p.root.Canonical) (hd : d.Proper)
    (hcache : p.cache = none) (hf : f.Canonical) {node : FileNode}
    (hnode : (p.analyze d).graph.nodes.get? f = some node) :
    analyzeFile? d p.root (p.analyze d).context f = some node := by
  have hcontains : (p.analyze d).graph.contains f = true :=
    PathMap.contains_iff_exists_get?.2 ⟨node, hnode⟩
  rw [graph_analyze, outcome_of_uncached hcache] at hcontains
  obtain ⟨found, hfound, hsame⟩ := contains_ofNodes.1 hcontains
  obtain ⟨f', hf', hanalysis⟩ := List.mem_filterMap.1 hfound
  rw [path_of_analyzeFile? hanalysis] at hsame
  obtain rfl := (canonical_of_mem_scan hd hroot hf').eq_of_same hf hsame
  rw [get?_analyze_of_uncached hroot hd hcache hf' hanalysis, Option.some.injEq] at hnode
  rw [hanalysis, hnode]

/-- The graph of an uncached analysis, from the scanned files alone. -/
theorem graph_analyze_of_scan {root : Path} {files : List Path} (hroot : p.root = root)
    (hcache : p.cache = none) (hscan : d.scan root = files) :
    (p.analyze d).graph = Graph.ofNodes root
      (files.filterMap (analyzeFile? d root ⟨loadAliases d root, PathSet.ofList files⟩)) := by
  subst hroot
  rw [graph_analyze, outcome_of_uncached hcache, context_analyze, ← hscan]
  rfl

end BlastRadius.Project
