import BlastRadius.Proofs.InStep

namespace BlastRadius

/-!
# Where imports lead

After an analysis of all the files the analysed files are the known ones, and an import leads to one
of them or to nothing. Only a specifier that starts with `.` or `/` can lead elsewhere, and then to
the very path that it says.

* `Resolve.Context.resolve?_bare`, `Resolve.Context.resolve?_anchored` — the two kinds of
  specifiers.
* `Project.Aimed` — where an import leads.
* `Project.Dependable` — what is asked of a cache.
* `Project.imports_aimed` — the theorem; `Project.Sample.known_not_analyzed` — a cache that leaves a
  file out.
-/

open BlastRadius.Graph Component Disk BlastRadius.Path Resolve

/-! ### Resolution -/

namespace Resolve.Context

variable {c : Context} {base hit directory : Path} {specifier : String}

/-- Probing finds known files only. -/
theorem contains_of_probe? (h : c.probe? base = some hit) : c.known.contains hit = true :=
  List.find?_some h

/-- Where probing finds nothing, no candidate is known. -/
theorem not_contains_of_probe? (h : c.probe? base = none) :
    ∀ candidate ∈ candidates base, c.known.contains candidate = false := by
  intro candidate hcandidate
  simpa using List.find?_eq_none.1 h candidate hcandidate

/-- Following an alias finds known files only. -/
theorem contains_of_followAlias? {text : List Char} {entry : Alias}
    (h : c.followAlias? text entry = some hit) : c.known.contains hit = true := by
  obtain ⟨rest, -, h⟩ := Option.bind_eq_some_iff.1 h
  obtain ⟨target, -, h⟩ := List.exists_of_findSome?_eq_some h
  exact contains_of_probe? h

/-- A bare specifier leads to a known file or to nothing, from every directory alike. -/
theorem resolve?_bare (h : isAnchored specifier.toList = false) :
    (∀ directory directory', c.resolve? specifier directory = c.resolve? specifier directory') ∧
      ∀ directory hit, c.resolve? specifier directory = some hit → c.known.contains hit = true := by
  unfold resolve?
  simp only [h, Bool.false_eq_true, if_false]
  refine ⟨fun _ _ => trivial, fun _ hit hhit => ?_⟩
  split at hhit
  · cases hhit
  · split at hhit
    · next hprobe => exact contains_of_probe? (hprobe.trans hhit)
    · obtain ⟨entry, -, hfollow⟩ := List.exists_of_findSome?_eq_some hhit
      exact contains_of_followAlias? hfollow

/-- An anchored specifier always has a target, if need be an unknown one. -/
theorem resolve?_anchored (h : isAnchored specifier.toList = true) (directory : Path) :
    c.resolve? specifier directory = some
      ((c.probe? (directory.child specifier).normalize).getD
        (directory.child specifier).normalize) := by
  have hne : ¬specifier.toList.isEmpty = true := by
    intro hempty
    rw [List.isEmpty_iff.1 hempty] at h
    cases h
  unfold resolve?
  dsimp only
  rw [if_neg hne, if_pos h]

end Resolve.Context

namespace Project

variable {p : Project} {d : Disk} {f : Path} {context : Context} {node : FileNode}

/-! ### Where an import leads -/

/-- Where an import of a file in some directory leads. -/
structure Aimed (context : Context) (g : Graph) (directory : Path) (edge : ImportEdge) : Prop where
  /-- A bare specifier leads to an analysed file or to nothing, and would do so from every
      directory. -/
  bare : isAnchored edge.specifier.toList = false →
    (∀ target, edge.target = some target → g.contains target = true) ∧
      ∀ other, context.resolve? edge.specifier other = edge.target
  /-- Any other one leads somewhere. -/
  anchored : isAnchored edge.specifier.toList = true → ∃ target, edge.target = some target
  /-- What is not analysed is the path that the specifier says, and no file is known that the path
      may stand for. -/
  outside : ∀ target, edge.target = some target → g.contains target = false →
    isAnchored edge.specifier.toList = true ∧ target = (directory.child edge.specifier).normalize ∧
      ∀ candidate ∈ candidates target, context.known.contains candidate = false

/-- An import that is resolved is aimed. -/
theorem aimed_of_resolved {g : Graph} {directory : Path} {edge : ImportEdge}
    (hg : ∀ path, g.contains path = context.known.contains path)
    (h : edge.target = context.resolve? edge.specifier directory) :
    Aimed context g directory edge where
  bare hbare := by
    rw [h]
    obtain ⟨halike, hknown⟩ := Context.resolve?_bare hbare
    refine ⟨fun target htarget => ?_, fun other => halike other directory⟩
    rw [hg]
    exact hknown directory target htarget
  anchored hanchored := ⟨_, h.trans (Context.resolve?_anchored hanchored directory)⟩
  outside target htarget houtside := by
    rw [hg] at houtside
    rw [h] at htarget
    -- Only an anchored specifier leads to files that are not known.
    cases hanchored : isAnchored edge.specifier.toList with
    | false =>
      rw [(Context.resolve?_bare hanchored).2 directory target htarget] at houtside
      cases houtside
    | true =>
      rw [Context.resolve?_anchored hanchored, Option.some.injEq] at htarget
      subst htarget
      cases hprobe : context.probe? (directory.child edge.specifier).normalize with
      | none => exact ⟨rfl, rfl, Context.not_contains_of_probe? hprobe⟩
      | some hit =>
        rw [hprobe, Option.getD_some, Context.contains_of_probe? hprobe] at houtside
        cases houtside

/-- An analysis of a file against a context, whatever the file said. -/
def AnalysisOf (root : Path) (context : Context) (f : Path) (node : FileNode) : Prop :=
  ∃ content lastModified size, node = analyzeText root context f content lastModified size

/-- What a file is analysed to is an analysis of it. -/
theorem analysisOf_of_analyzeFile? {root : Path} (h : analyzeFile? d root context f = some node) :
    AnalysisOf root context f node := by
  obtain ⟨data, -, hnode⟩ := Option.bind_eq_some_iff.1 h
  exact ⟨_, _, _, (Option.some.inj hnode).symm⟩

/-- An analysis has the path of its file. -/
theorem AnalysisOf.path {root : Path} (h : AnalysisOf root context f node) : node.path = f := by
  obtain ⟨_, _, _, rfl⟩ := h
  rfl

/-- Its imports are resolved from the directory of the file. -/
theorem AnalysisOf.target {root : Path} (h : AnalysisOf root context f node) {edge : ImportEdge}
    (hedge : edge ∈ node.imports) :
    edge.target = context.resolve? edge.specifier (f.parent?.getD f) := by
  obtain ⟨_, _, _, rfl⟩ := h
  obtain ⟨i, -, rfl⟩ := List.mem_map.1 hedge
  rfl

/-! ### What the cache gives -/

/-- A cache that takes no listed file for another: the analyses that it has for the listed files and
    that still hold were made of these files, against what there is now, and listed files with the
    same imprint differ in their stamps. -/
structure Dependable (p : Project) (d : Disk) (c : Cache Fingerprint) : Prop where
  offered : ∀ f ∈ d.scan p.root, ∀ entry, c.Offers f entry →
    Holds d (p.prepared d).resolution f entry →
    AnalysisOf p.root (p.prepared d).context f entry.node
  apart : ∀ f ∈ d.scan p.root, ∀ g ∈ d.scan p.root, f.imprint = g.imprint →
    d.stamp f = d.stamp g → f = g

/-- What the cache can have for a file while all the files are analysed: what it had before, and new
    analyses of listed files with the same imprint. -/
def Supplied (p : Project) (d : Disk) (c : Cache Fingerprint) (f : Path)
    (entry : CacheEntry Fingerprint) : Prop :=
  c.Offers f entry ∨ ∃ g ∈ d.scan p.root, g.imprint = f.imprint ∧
    analyzeFile? d p.root (p.prepared d).context g = some entry.node ∧ d.stamp g = .ok entry.stamp

/-- All entries of the cache are supplied by it. -/
theorem every_supplied (p : Project) (d : Disk) (c : Cache Fingerprint) :
    c.Every (p.Supplied d c) where
  memory _ _ hentry := .inl (.inl hentry)
  disk store hstore _ _ hentry := .inl (.inr ⟨store, hstore, hentry⟩)

/-- A scanned file may add what it is analysed to. -/
theorem welcome_supplied (c : Cache Fingerprint) (hf : f ∈ d.scan p.root) :
    Welcome (p.Supplied d c) d p.root (p.prepared d).context (p.prepared d).resolution f where
  spelled entry hentry q hsame := by
    refine hentry.imp (·.congr hsame) ?_
    rintro ⟨g, hg, himprint, hmade⟩
    exact ⟨g, hg, himprint.trans (imprint_eq_of_same hsame).symm, hmade⟩
  analysed node stamp hnode hstamp q himprint := .inr ⟨f, hf, himprint.symm, hnode, hstamp⟩

/-- What such a cache has for a listed file and still holds is an analysis of it. -/
theorem Dependable.analysisOf {c : Cache Fingerprint} (h : p.Dependable d c)
    (hf : f ∈ d.scan p.root) {entry : CacheEntry Fingerprint} (hentry : p.Supplied d c f entry)
    (hholds : Holds d (p.prepared d).resolution f entry) :
    AnalysisOf p.root (p.prepared d).context f entry.node := by
  rcases hentry with hoffers | ⟨g, hg, himprint, hanalysis, hstamp⟩
  · exact h.offered f hf entry hoffers hholds
  · -- It was made on the way from a file with the same imprint and stamp, which is this one.
    obtain rfl := h.apart g hg f hf himprint (hstamp.trans hholds.1.symm)
    exact analysisOf_of_analyzeFile? hanalysis

/-- Every file that can be read is analysed, anew or from the cache. -/
theorem exists_mem_analyzeAllCached {P : Path → CacheEntry Fingerprint → Prop}
    {c : Cache Fingerprint} {root : Path} {resolution : Fingerprint} {paths : List Path}
    (h : c.Every P) (hpaths : ∀ f ∈ paths, Welcome P d root context resolution f) (hf : f ∈ paths)
    (hnode : analyzeFile? d root context f = some node) :
    ∃ found ∈ (analyzeAllCached d root context resolution c paths).1,
      found = node ∨ ∃ entry, P f entry ∧ Holds d resolution f entry ∧ entry.node = found := by
  induction paths generalizing c with
  | nil => exact absurd hf List.not_mem_nil
  | cons first paths ih =>
    obtain ⟨hfirst, hcache⟩ := analyzeCached_every h (hpaths first List.mem_cons_self)
    rw [analyzeAllCached]
    rcases List.mem_cons.1 hf with rfl | hf
    · rcases hfirst with hnew | ⟨entry, hentry, hholds, hkept⟩
      · exact ⟨node, List.mem_append_left _ (Option.mem_toList.2 (hnew.trans hnode)), .inl rfl⟩
      · exact ⟨entry.node, List.mem_append_left _ (Option.mem_toList.2 hkept),
          .inr ⟨entry, hentry, hholds, rfl⟩⟩
    · obtain ⟨found, hfound, hwhy⟩ :=
        ih hcache (fun f' hf' => hpaths f' (List.mem_cons_of_mem first hf')) hf
      exact ⟨found, List.mem_append_right _ hfound, hwhy⟩

/-- The analyses of all the files are of listed files, and those that can be read are among them. -/
theorem analysisOf_outcome (hcache : ∀ c, p.cache = some c → p.Dependable d c) :
    (∀ node ∈ (p.outcome d).1, ∃ f ∈ d.scan p.root,
      AnalysisOf p.root (p.prepared d).context f node) ∧ ∀ f ∈ d.scan p.root,
        (∃ data, d.read f = .ok data) → ∃ node ∈ (p.outcome d).1, node.path = f := by
  have hanalyzed : ∀ f, (∃ data, d.read f = .ok data) →
      ∃ node, analyzeFile? d p.root (p.prepared d).context f = some node :=
    fun f ⟨data, hdata⟩ => analyzeFile?_of_read hdata p.root _
  -- A node is new or kept, and what the cache keeps is dependable.
  cases hc : p.cache with
  | none =>
    rw [outcome_of_uncached hc, context_analyze]
    refine ⟨fun node hnode => ?_, fun f hf hread => ?_⟩
    · obtain ⟨f, hf, hanalysis⟩ := List.mem_filterMap.1 hnode
      exact ⟨f, hf, analysisOf_of_analyzeFile? hanalysis⟩
    · obtain ⟨node, hanalysis⟩ := hanalyzed f hread
      exact ⟨node, List.mem_filterMap.2 ⟨f, hf, hanalysis⟩, path_of_analyzeFile? hanalysis⟩
  | some c =>
    have hdependable := hcache c hc
    have hevery := every_supplied p d c
    have hwelcome : ∀ f ∈ d.scan p.root, _ := fun f hf => welcome_supplied c hf
    rw [outcome, hc]
    refine ⟨fun node hnode => ?_, fun f hf hread => ?_⟩
    · obtain ⟨f, hf, hanalysis | ⟨entry, hentry, hholds, rfl⟩⟩ :=
        (analyzeAllCached_every hevery hwelcome).1 node hnode
      · exact ⟨f, hf, analysisOf_of_analyzeFile? hanalysis⟩
      · exact ⟨f, hf, hdependable.analysisOf hf hentry hholds⟩
    · obtain ⟨node, hanalysis⟩ := hanalyzed f hread
      obtain ⟨found, hfound, rfl | ⟨entry, hentry, hholds, rfl⟩⟩ :=
        exists_mem_analyzeAllCached hevery hwelcome hf hanalysis
      · exact ⟨found, hfound, path_of_analyzeFile? hanalysis⟩
      · exact ⟨entry.node, hfound, (hdependable.analysisOf hf hentry hholds).path⟩

/-! ### The theorem -/

/-- A listed file is in a directory. -/
theorem exists_parent (hd : d.Proper) (hroot : p.root.Canonical) (hf : f ∈ d.scan p.root) :
    ∃ directory, f.parent? = some directory := by
  obtain ⟨place, hplace, hroot⟩ := hroot
  rw [hroot] at hf
  obtain ⟨⟨names, hnames, rfl⟩, -, hscript, -⟩ := hd.mem_scan hplace hf
  rcases List.eq_nil_or_concat' names with rfl | ⟨front, name, rfl⟩
  · cases hscript
  · obtain ⟨hfront, hname⟩ := List.forall_mem_append.1 hnames
    exact ⟨pathOf front, parent?_pathOf hfront (hname name List.mem_cons_self)⟩

/-- With a dependable cache, exactly the known files are analysed. -/
theorem contains_analyze (hcache : ∀ c, p.cache = some c → p.Dependable d c)
    (hread : ∀ f ∈ d.scan p.root, ∃ data, d.read f = .ok data) (path : Path) :
    (p.analyze d).graph.contains path = (p.analyze d).known.contains path := by
  obtain ⟨hlisted, hanalyzed⟩ := analysisOf_outcome hcache
  rw [Bool.eq_iff_iff, graph_analyze, contains_ofNodes, known_analyze, PathSet.contains_ofList]
  constructor
  · rintro ⟨node, hnode, hsame⟩
    obtain ⟨f, hf, hanalysis⟩ := hlisted node hnode
    exact ⟨f, hf, hanalysis.path ▸ hsame⟩
  · rintro ⟨f, hf, hsame⟩
    obtain ⟨node, hnode, hpath⟩ := hanalyzed f hf (hread f hf)
    exact ⟨node, hnode, hpath.symm ▸ hsame⟩

/-- **Where imports lead.** If all the listed files can be read, and the cache, if there is one,
    takes none of them for another, then after an analysis of all the files the analysed files are
    the known ones. An import with a bare specifier leads to an analysed file, the same from every
    directory, or to nothing; any other import leads somewhere, and if that is no analysed file, it
    is the path that the specifier says from the directory of the importing file, and none of the
    files that the path may stand for is known. -/
theorem imports_aimed (p : Project) (d : Disk) (hp : p.Opened) (hd : d.Proper)
    (hread : ∀ f ∈ d.scan p.root, ∃ data, d.read f = .ok data)
    (hcache : ∀ c, p.cache = some c → p.Dependable d c) :
    (∀ path, (p.analyze d).graph.contains path = (p.analyze d).known.contains path) ∧
    ∀ node ∈ (p.analyze d).graph.files, ∃ directory, node.path.parent? = some directory ∧
      ∀ edge ∈ node.imports, Aimed (p.analyze d).context (p.analyze d).graph directory edge := by
  have hcontains := contains_analyze hcache hread
  refine ⟨hcontains, fun node hnode => ?_⟩
  rw [graph_analyze] at hnode
  obtain ⟨f, hf, hanalysis⟩ := (analysisOf_outcome hcache).1 node (mem_of_mem_files_ofNodes hnode)
  obtain ⟨directory, hdirectory⟩ := exists_parent hd hp.canonical hf
  refine ⟨directory, hanalysis.path.symm ▸ hdirectory,
    fun edge hedge => aimed_of_resolved hcontains ?_⟩
  rw [context_analyze, hanalysis.target hedge, hdirectory]
  rfl

namespace Sample

/-- A cache that starts empty takes no file of the workspace for another. -/
theorem dependable_cached : ∀ c, cached.cache = some c → cached.Dependable workspace c := by
  intro c hc
  obtain rfl := Option.some.inj hc
  refine ⟨fun f _ entry hoffers => absurd hoffers (Cache.not_offers_empty f entry), ?_⟩
  rw [show workspace.scan cached.root = scripts from scan_workspace]
  decide +kernel

/-- The imports of the workspace are aimed. -/
theorem imports_aimed_workspace :
    cached.Opened ∧ workspace.Proper ∧
    (∀ f ∈ workspace.scan cached.root, ∃ data, workspace.read f = .ok data) ∧
      (∀ c, cached.cache = some c → cached.Dependable workspace c) ∧
      ((cached.analyze workspace).graph.contains index = true ∧
        ∀ node ∈ (cached.analyze workspace).graph.files, ∃ directory,
          node.path.parent? = some directory ∧ ∀ edge ∈ node.imports,
            Aimed (cached.analyze workspace).context (cached.analyze workspace).graph
              directory edge) := by
  have hread : ∀ f ∈ workspace.scan cached.root, ∃ data, workspace.read f = .ok data := by
    rw [show workspace.scan cached.root = scripts from scan_workspace]
    exact fun f hf => read_scripts hf
  obtain ⟨hcontains, haimed⟩ :=
    imports_aimed cached workspace (opened_new _) proper_workspace hread dependable_cached
  refine ⟨opened_new _, proper_workspace, hread, dependable_cached, ?_, haimed⟩
  rw [hcontains, known_analyze, show workspace.scan cached.root = scripts from scan_workspace]
  decide +kernel

/-- A tree with two files, which are empty and whose paths have the same imprint. -/
def crowded : Disk where
  top := .directory [
    ("p", .directory [("qrstuv", .directory [("x.ts", plain "")])]),
    ("pqrst", .directory [("u", .directory [("vx.ts", plain "")])])]
  workdir := []

/-- The crowded disk is a proper one. -/
theorem proper_crowded : crowded.Proper := by
  have hformer : (lone "pqrst" "u" "vx.ts").Proper :=
    proper_lone (by decide) (by decide) (by decide)
  -- Its two branches are those of the trees with one file.
  cases proper_later.1 with
  | directory names entries =>
    cases hformer.1 with
    | directory names' entries' =>
      exact ⟨.directory (List.forall_mem_append.2 ⟨names, names'⟩)
        (List.forall_mem_append.2 ⟨entries, entries'⟩), rfl⟩

/-- A scan finds both scripts. -/
theorem scan_crowded : crowded.scan slash = [latter, former] :=
  scan_of_scripts rfl (by decide +kernel) (by decide +kernel)

/-- The file that comes second is taken for the first. -/
theorem paths_crowded (context : Context) (resolution : Fingerprint) :
    (analyzeAllCached crowded slash context resolution (.ofStore (some .empty))
      [latter, former]).1.map (·.path)
      = [latter, latter] := by
  obtain ⟨node, hnode⟩ :=
    analyzeFile?_of_read (show crowded.read latter = .ok _ from rfl) slash context
  have hpath := path_of_analyzeFile? hnode
  have hfirst : analyzeCached crowded slash context resolution (.ofStore (some .empty)) latter
      = (some node,
        (Cache.ofStore (some .empty)).storeIfPresent crowded latter node resolution) := by
    rw [analyzeCached,
      show reuse? _ crowded latter resolution = (none, .ofStore (some .empty)) from rfl]
    dsimp only
    rw [hnode]
  -- The second file is found under the imprint of the first, with its stamp.
  have hlookup : ((Cache.ofStore (some .empty)).storeIfPresent crowded latter node
      resolution).lookup? former
      = some ⟨node, ⟨0, 0⟩, resolution⟩ := rfl
  have hsecond : (analyzeCached crowded slash context resolution _ former).1 = some node :=
    analyzeCached_of_holds hlookup ⟨rfl, rfl⟩
  rw [analyzeAllCached, hfirst]
  dsimp only
  rw [analyzeAllCached]
  dsimp only
  rw [hsecond]
  simp [analyzeAllCached, hpath]

/-- **A known file that is not analysed.** The cache takes the one file for the other as soon as it
    has analysed that one. -/
theorem known_not_analyzed :
    cached.Opened ∧ crowded.Proper ∧
    (∀ f ∈ crowded.scan cached.root, ∃ data, crowded.read f = .ok data) ∧
      (cached.analyze crowded).known.contains former = true ∧
      (cached.analyze crowded).graph.contains former = false := by
  refine ⟨opened_new _, proper_crowded, ?_, ?_, ?_⟩
  · rw [show crowded.scan cached.root = _ from scan_crowded]
    simp only [List.forall_mem_cons]
    exact ⟨⟨_, rfl⟩, ⟨_, rfl⟩, nofun⟩
  · rw [known_analyze, show crowded.scan cached.root = _ from scan_crowded]
    decide +kernel
  · rw [graph_analyze, Bool.eq_false_iff, ne_eq, contains_ofNodes]
    rintro ⟨node, hnode, hsame⟩
    rw [outcome, show crowded.scan cached.root = _ from scan_crowded] at hnode
    -- Both scripts have the same imprint, so the second gets the node of the first.
    have hpaths :=
      paths_crowded (cached.prepared crowded).context (cached.prepared crowded).resolution
    have hlatter : node.path = latter := by
      have hmem : node.path ∈ [latter, latter] := hpaths ▸ List.mem_map_of_mem hnode
      simpa using hmem
    rw [hlatter] at hsame
    exact absurd hsame (by decide +kernel)

end Sample

end Project

end BlastRadius
