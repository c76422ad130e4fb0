import BlastRadius.Proofs.Batch
import BlastRadius.Proofs.Reload

namespace BlastRadius

/-!
# What a project keeps in step

A project has its known files, their fingerprint, its cache and its graph, and a change touches them
one after the other. Whatever happens to the disk, they stay in step.

* `Path.Placed` — a script file at or below a root, by way of no directory that is left out.
* `Project.Stray` — what an analysis of all the files takes from the cache for a file that the scan
  lists, although it is of one that the scan does not list.
* `Project.InStep` — only known files are analysed, up to strays, and the fingerprint is the current
  one. A change keeps it (`InStep.applyChange`), and so does a history (`InStep.follow`).
* `Project.AnswersFor` — the answer to a change tells what it did.
* `Project.stays_in_step` — the theorem; `Sample.known_without_former` — a stray.
-/

open BlastRadius.Graph Component Disk BlastRadius.Path Resolve

/-! ### Where files are -/

/-- A script file at or below `root`, spelled from the top without detours, by way of no directory
    that is left out. -/
structure Path.Placed (path root : Path) : Prop where
  absolute : path.isAbsolute = true
  normal : path.normalize = path
  script : ∃ extension ∈ scriptExtensions, path.extension? = some extension
  below : ∃ names : List String, path.components = root.components ++ names.map .name ∧
    ∀ directory ∈ names.dropLast, directory ∉ excludedNames ∧ directory.toList.head? ≠ some '.'

/-- A canonical path that begins with the components of another goes on with names. -/
theorem Path.Canonical.exists_of_isUnder {root path : Path} (hroot : root.Canonical)
    (hpath : path.Canonical) (h : path.isUnder root = true) :
    ∃ place rest, (∀ name ∈ place ++ rest, ProperName name) ∧ root = pathOf place ∧
      path = pathOf (place ++ rest) := by
  obtain ⟨place, hplace, rfl⟩ := hroot
  obtain ⟨whole, hwhole, rfl⟩ := hpath
  rw [isUnder, components_pathOf hplace, components_pathOf hwhole, List.isPrefixOf_iff_prefix,
    List.cons_prefix_cons] at h
  have hnames : place <+: whole :=
    (List.prefix_map_iff_of_injective fun x y hxy => Component.name.inj hxy).1 h.2
  obtain ⟨rest, rfl⟩ := hnames
  exact ⟨place, rest, hwhole, rfl, rfl⟩

/-- A name that is not excluded is not listed as such, and is not hidden. -/
theorem not_hidden_of_not_isExcludedName {name : String} (hname : ProperName name)
    (h : isExcludedName name = false) : name ∉ excludedNames ∧ name.toList.head? ≠ some '.' := by
  rw [isExcludedName, Bool.or_eq_false_iff] at h
  obtain ⟨hlisted, hhidden⟩ := h
  refine ⟨fun hmem => ?_, fun hdot => ?_⟩
  · rw [List.contains_iff_mem.2 hmem] at hlisted
    cases hlisted
  · -- The two names that begin with a dot and are not hidden are no proper names.
    have hdots : name ≠ "." ∧ name ≠ ".." := by
      refine ⟨?_, ?_⟩
      · rintro rfl
        exact absurd hname (by decide)
      · rintro rfl
        exact absurd hname (by decide)
    simp [hdot, hdots] at hhidden

/-- Changes matter only of files that are placed so. -/
theorem Project.placed_of_admits {p : Project} {path : Path} (hroot : p.root.Canonical)
    (hpath : path.Canonical) (h : p.admits path = true) : path.Placed p.root := by
  rw [admits, Bool.and_eq_true, Bool.and_eq_true, Bool.not_eq_true'] at h
  obtain ⟨⟨hunder, hscript⟩, hexcluded⟩ := h
  obtain ⟨place, rest, hnames, hplace, rfl⟩ := hroot.exists_of_isUnder hpath hunder
  refine ⟨hpath.isAbsolute, hpath.normalize_eq, ?_, rest, ?_, fun directory hdirectory => ?_⟩
  · obtain ⟨extension, hextension, hmem⟩ := (Option.any_eq_true _ _).1 hscript
    exact ⟨extension, List.contains_iff_mem.1 hmem, hextension⟩
  · rw [hplace, components_pathOf hnames,
      components_pathOf fun name hname => hnames name (List.mem_append_left rest hname),
      List.map_append]
    rfl
  · rw [hplace, isExcluded_pathOf hnames, List.any_eq_false] at hexcluded
    exact not_hidden_of_not_isExcludedName
      (hnames directory (List.mem_append_right place (List.dropLast_subset rest hdirectory)))
      (Bool.eq_false_iff.2 (hexcluded directory hdirectory))

/-! ### The files of a graph -/

namespace Graph

variable {g : Graph} {node other : FileNode} {path : Path}

/-- Adding a node replaces the one of the same path. -/
theorem mem_files_addNode (h : other ∈ (g.addNode node).files) :
    other = node ∨ other ∈ g.files ∧ ¬node.path.Same other.path := by
  have hget := get?_of_mem_files h (Same.refl other.path)
  rw [nodes_addNode, PathMap.get?_insert] at hget
  split at hget
  · exact Or.inl (Option.some.inj hget).symm
  · next hsame => exact Or.inr ⟨mem_files_of_get? hget, hsame⟩

/-- Removing takes away the node of one path. -/
theorem mem_files_removeNode (h : node ∈ (g.removeNode path).files) :
    node ∈ g.files ∧ ¬path.Same node.path := by
  have hget := get?_of_mem_files h (Same.refl node.path)
  have hsame : ¬path.Same node.path := by
    intro hsame
    have hcontains : (g.removeNode path).contains node.path = true :=
      PathMap.contains_iff_exists_get?.2 ⟨node, hget⟩
    rw [contains_removeNode] at hcontains
    simp [hsame] at hcontains
  rw [get?_removeNode_of_ne hsame] at hget
  exact ⟨mem_files_of_get? hget, hsame⟩

/-- The files of a graph are among the nodes that it is built from. -/
theorem mem_of_mem_files_ofNodes {root : Path} {nodes : List FileNode}
    (h : node ∈ (ofNodes root nodes).files) : node ∈ nodes := by
  -- For any graph to start from: its own files stay, or new nodes replace them.
  have hfold : ∀ {g : Graph}, node ∈ (nodes.foldl Graph.addNode g).files →
      node ∈ g.files ∨ node ∈ nodes := by
    clear h
    induction nodes with
    | nil => exact fun hg => Or.inl hg
    | cons first nodes ih =>
      intro g hg
      rcases ih hg with hadded | hrest
      · rcases mem_files_addNode hadded with rfl | ⟨hold, -⟩
        · exact Or.inr List.mem_cons_self
        · exact Or.inl hold
      · exact Or.inr (List.mem_cons_of_mem first hrest)
  refine (hfold h).resolve_left fun hempty => ?_
  obtain ⟨q, hq⟩ := PathMap.mem_values.1 hempty
  rw [empty, PathMap.get?_empty] at hq
  cases hq

end Graph

namespace Project

variable {p p' : Project} {d : Disk} {path : Path} {stray : FileNode → Prop}

/-! ### What is in step -/

/-- Only known files that are placed in the project are analysed, up to some strays, and the
    fingerprint is that of the known files and the aliases. -/
structure InStep (stray : FileNode → Prop) (p : Project) : Prop where
  root : p.root.Canonical
  resolution : p.resolution = p.context.fingerprint
  files : ∀ node ∈ p.graph.files, p.known.contains node.path = true ∧
    node.path.Placed p.root ∨ stray node

/-- Analysing a file again keeps a project in step. -/
theorem InStep.revisited (h : p.InStep stray) {node : FileNode} (hpath : path.Placed p.root)
    (hp' : p.Revisited d path node p') : p'.InStep stray where
  root := by
    rw [hp'.root]
    exact h.root
  resolution := hp'.resolution h.resolution
  files other hother := by
    rw [hp'.graph] at hother
    rw [hp'.known, hp'.root, PathSet.contains_add, Bool.or_eq_true, decide_eq_true_eq]
    rcases mem_files_addNode hother with rfl | ⟨hold, -⟩
    · rw [path_of_analyzeFile? hp'.analysis]
      exact Or.inl ⟨Or.inl (Same.refl path), hpath⟩
    · exact (h.files other hold).imp_left fun hfile => ⟨Or.inr hfile.1, hfile.2⟩

/-- So does forgetting one. -/
theorem InStep.forgotten (h : p.InStep stray) (hp' : p.Forgotten path p') : p'.InStep stray where
  root := by
    rw [hp'.root]
    exact h.root
  resolution := hp'.resolution h.resolution
  files node hnode := by
    rw [hp'.graph] at hnode
    obtain ⟨hold, hother⟩ := mem_files_removeNode hnode
    rw [hp'.known, hp'.root, PathMap.contains_erase]
    -- Known files are not lost, because the file that leaves them leaves the graph too.
    refine (h.files node hold).imp_left fun hfile => ⟨?_, hfile.2⟩
    simp [hother, hfile.1]

/-- A change that does something is of a file of the project. -/
theorem admits_of_applyChange {c : Change} (h : p.applyChange d c ≠ (p, false)) :
    p.admits (p.identity c.path) = true := by
  by_contra hadmits
  exact h (if_neg hadmits)

/-- **One change.** It keeps a project in step, whatever the disk is like. -/
theorem InStep.applyChange (h : p.InStep stray) (d : Disk) (c : Change) :
    (p.applyChange d c).1.InStep stray := by
  rcases applyChange_cases p d c with hnothing | ⟨-, happlied, node, hrevisited⟩ | ⟨-, hforgotten⟩
  · rw [hnothing]
    exact h
  · have hadmits : p.admits (p.identity c.path) = true :=
      admits_of_applyChange fun hnothing : p.applyChange d c = _ => by simp [hnothing] at happlied
    exact h.revisited (placed_of_admits h.root (canonical_identity h.root c.path) hadmits)
      hrevisited
  · exact h.forgotten hforgotten

/-- The project after some changes, each with the disk as it is then. -/
def follow (p : Project) (history : List (Disk × Change)) : Project :=
  history.foldl (fun p (d, c) => (p.applyChange d c).1) p

/-- **A history.** So does a history, with a disk of its own for each change. -/
theorem InStep.follow (h : p.InStep stray) (history : List (Disk × Change)) :
    (p.follow history).InStep stray := by
  induction history generalizing p with
  | nil => exact h
  | cons event history ih => exact ih (h.applyChange event.1 event.2)

/-- A history of changes keeps the root. -/
theorem root_follow (p : Project) (history : List (Disk × Change)) :
    (p.follow history).root = p.root := by
  induction history generalizing p with
  | nil => rfl
  | cons event history ih =>
    rw [follow, List.foldl_cons]
    exact (ih _).trans (root_applyChange p event.1 event.2)

/-! ### What an analysis of all the files leaves -/

/-- The cache has an analysis under a path, in memory or on disk. -/
def Cache.Offers {ρ : Type} (c : Cache ρ) (f : Path) (entry : CacheEntry ρ) : Prop :=
  c.memory.get? f = some entry ∨ ∃ store, c.disk = some store ∧ store.get? f = some entry

/-- An entry is offered under every spelling of its path. -/
theorem Cache.Offers.congr {ρ : Type} {c : Cache ρ} {f g : Path} {entry : CacheEntry ρ}
    (h : c.Offers f entry) (hsame : g.Same f) : c.Offers g entry := by
  rcases h with hmemory | ⟨store, hstore, hentry⟩
  · exact Or.inl (by rwa [c.memory.get?_congr hsame])
  · refine Or.inr ⟨store, hstore, ?_⟩
    rwa [CacheStore.get?, imprint_eq_of_same hsame]

/-- A cache that starts empty has nothing to offer. -/
theorem Cache.not_offers_empty {ρ : Type} (f : Path) (entry : CacheEntry ρ) :
    ¬(Cache.ofStore (some .empty)).Offers f entry := by
  rintro (hmemory | ⟨store, hstore, hdisk⟩)
  · rw [Cache.ofStore, PathMap.get?_empty] at hmemory
    cases hmemory
  · obtain rfl := Option.some.inj hstore
    rw [CacheStore.get?_empty] at hdisk
    cases hdisk

/-- An analysis of a file that the scan does not list, which the cache has under one that it lists
    and for which it still holds. -/
def Stray (p : Project) (d : Disk) (node : FileNode) : Prop :=
  node.path ∉ d.scan p.root ∧ ∃ c, p.cache = some c ∧ ∃ f ∈ d.scan p.root, ∃ entry,
    c.Offers f entry ∧ Holds d (p.prepared d).resolution f entry ∧ entry.node = node

/-- An analysis of all the files gives those of the files that the scan lists, up to strays. -/
theorem listed_or_stray {node : FileNode} (h : node ∈ (p.outcome d).1) :
    node.path ∈ d.scan p.root ∨ p.Stray d node := by
  cases hcache : p.cache with
  | none => exact Or.inl (ownAnalyses_of_uncached hcache node h)
  | some c =>
    rw [outcome, hcache] at h
    -- What is put into the cache on the way is of files that the scan lists.
    have hevery : c.Every fun f entry => c.Offers f entry ∨ entry.node.path ∈ d.scan p.root :=
      ⟨fun f entry hentry => Or.inl (Or.inl hentry),
        fun store hstore f entry hentry => Or.inl (Or.inr ⟨store, hstore, hentry⟩)⟩
    obtain ⟨f, hf, hanalysis | ⟨entry, hentry, hholds, rfl⟩⟩ :=
      (analyzeAllCached_every hevery fun f hf =>
        ⟨fun entry hentry q hsame => hentry.imp_left (·.congr hsame),
          fun node stamp hanalysis _ q _ =>
            Or.inr (by rwa [path_of_analyzeFile? hanalysis])⟩).1 node h
    · exact Or.inl (by rwa [path_of_analyzeFile? hanalysis])
    · by_cases hlisted : entry.node.path ∈ d.scan p.root
      · exact Or.inl hlisted
      · exact Or.inr ⟨hlisted, c, hcache, f, hf, entry, hentry.resolve_right hlisted, hholds, rfl⟩

/-- An analysis leaves the project in step, but for what the cache brings from elsewhere. -/
theorem inStep_analyze (hroot : p.root.Canonical) (hd : d.Proper) :
    (p.analyze d).InStep (p.Stray d) where
  root := by
    rw [root_analyze]
    exact hroot
  resolution := by
    rw [context_analyze, analyze_eq]
    rfl
  files node hnode := by
    rw [graph_analyze] at hnode
    rw [known_analyze, root_analyze, PathSet.contains_ofList]
    refine (listed_or_stray (mem_of_mem_files_ofNodes hnode)).imp_left fun hlisted => ?_
    exact ⟨⟨node.path, hlisted, Same.refl _⟩,
      placed_of_admits hroot (canonical_of_mem_scan hd hroot hlisted)
        (admits_of_mem_scan hd hroot hlisted)⟩

/-! ### What an answer tells -/

/-- The answer to a change tells what it did: one file was analysed anew or taken out, or the graph
    is as it was. A file that is not analysed leaves everything as it was. -/
structure AnswersFor (p : Project) (d : Disk) (c : Change) : Prop where
  kept : (p.applyChange d c).2 = false → (p.applyChange d c).1.graph = p.graph
  refused : c.kind ≠ .deleted → (p.applyChange d c).2 = false → (p.applyChange d c).1 = p
  analysed : c.kind ≠ .deleted → (p.applyChange d c).2 = true →
    ∃ node, node.path = p.identity c.path ∧
      analyzeFile? d p.root (p.applyChange d c).1.context (p.identity c.path) = some node ∧
    (p.applyChange d c).1.graph = p.graph.addNode node
  removed : c.kind = .deleted → (p.applyChange d c).2 = true →
    p.graph.contains (p.identity c.path) = true ∧
    (p.applyChange d c).1.graph = p.graph.removeNode (p.identity c.path)

/-- Forgetting reports whether the file was analysed. -/
theorem forget_snd (p : Project) (path : Path) : (p.forget path).2 = p.graph.contains path := by
  have hgraph : (if p.known.contains path
      then { p with known := p.known.erase path }.refreshResolution else p).graph = p.graph := by
    split
    · rfl
    · rfl
  unfold forget
  dsimp only
  rw [hgraph]
  split
  · next hcontains => exact hcontains.symm
  · next hcontains => exact (Bool.eq_false_iff.2 hcontains).symm

/-- A change that does nothing answers for itself. -/
theorem answersFor_of_unchanged {c : Change} (h : p.applyChange d c = (p, false)) :
    p.AnswersFor d c where
  kept _ := by rw [h]
  refused _ _ := by rw [h]
  analysed _ happlied := by simp [h] at happlied
  removed _ happlied := by simp [h] at happlied

/-- Every change answers for what it does. -/
theorem answersFor (p : Project) (d : Disk) (c : Change) : p.AnswersFor d c := by
  by_cases hnothing : p.applyChange d c = (p, false)
  · exact answersFor_of_unchanged hnothing
  rcases applyChange_cases p d c with h | ⟨hkind, happlied, node, hrevisited⟩ | ⟨hkind, hforgotten⟩
  · exact absurd h hnothing
  · have hanalysis := hrevisited.analysis
    rw [hrevisited.root] at hanalysis
    exact {
      kept := fun hanswer => by simp [happlied] at hanswer
      refused := fun _ hanswer => by simp [happlied] at hanswer
      analysed := fun _ _ => ⟨node, path_of_analyzeFile? hanalysis, hanalysis, hrevisited.graph⟩
      removed := fun hdeleted => absurd hdeleted hkind }
  · -- A deletion is reported exactly where the file was analysed.
    have hanswer : (p.applyChange d c).2 = p.graph.contains (p.identity c.path) := by
      rw [applyChange_eq_forget hkind (admits_of_applyChange hnothing), forget_snd]
    exact {
      kept := fun hfalse => by
        rw [hforgotten.graph]
        exact removeNode_eq_self (by simp [← hanswer, hfalse])
      refused := fun hdeleted => absurd hkind hdeleted
      analysed := fun hdeleted => absurd hkind hdeleted
      removed := fun _ happlied => ⟨hanswer.symm.trans happlied, hforgotten.graph⟩ }

/-! ### The theorem -/

/-- **A project stays in step.** After an analysis of all the files and any changes, whatever the
    disk is like at each of them, the fingerprint is that of the known files and the aliases, and
    every file in the graph is known and placed in the project, unless the cache passed it off for
    another one; and the answer to the next change tells what that change did. -/
theorem stays_in_step (p : Project) (d : Disk) (hp : p.Opened) (hd : d.Proper)
    (history : List (Disk × Change)) :
    ((p.analyze d).follow history).resolution = ((p.analyze d).follow history).context.fingerprint ∧
    (∀ node ∈ ((p.analyze d).follow history).graph.files,
      ((p.analyze d).follow history).known.contains node.path = true ∧ node.path.Placed p.root ∨
      p.Stray d node) ∧
    ∀ d' c, ((p.analyze d).follow history).AnswersFor d' c := by
  have hstep := (inStep_analyze hp.canonical hd).follow history
  have hroot : ((p.analyze d).follow history).root = p.root :=
    (root_follow _ history).trans (root_analyze p d)
  refine ⟨hstep.resolution, fun node hnode => ?_, answersFor _⟩
  rw [← hroot]
  exact hstep.files node hnode

namespace Sample

/-- The workspace takes the place of another tree, and the project is told one file after the other:
    one that cannot be read, the same as deleted, two that are new, and one among the
    dependencies. -/
def moved : List (Disk × Change) := [
  (later, ⟨.modified, latter⟩),
  (workspace, ⟨.modified, latter⟩),
  (workspace, ⟨.deleted, ofString "p/../p/qrstuv/x.ts"⟩),
  (workspace, ⟨.created, index⟩),
  (workspace, ⟨.created, ofString "a.ts"⟩),
  (workspace, ⟨.created, ofString "/node_modules/x.ts"⟩)]

/-- A cache that starts empty has no strays. -/
theorem not_stray_cached (d : Disk) (node : FileNode) : ¬cached.Stray d node := by
  rintro ⟨-, c, hc, f, -, entry, hentry, -⟩
  obtain rfl := Option.some.inj hc
  exact Cache.not_offers_empty f entry hentry

/-- After the changes the scripts of the sample are analysed again. -/
theorem paths_moved : ((cached.analyze later).follow moved).graph.files.map (·.path) = scripts := by
  decide +kernel

/-- The sample stays in step through changes of every kind. -/
theorem stays_in_step_moved :
    cached.Opened ∧ later.Proper ∧
      ((cached.analyze later).follow moved).graph.files.map (·.path) = scripts ∧
      ∀ node ∈ ((cached.analyze later).follow moved).graph.files,
        ((cached.analyze later).follow moved).known.contains node.path = true ∧
        node.path.Placed slash :=
  ⟨opened_new _, proper_later, paths_moved, fun node hnode =>
    ((stays_in_step cached later (opened_new _) proper_later moved).2.1 node hnode).resolve_right
      (not_stray_cached later node)⟩

/-- **A stray.** The cache has the analysis of a file that is gone, and takes it for that of the
    file that is there: the project analyses a file that it does not know. -/
theorem known_without_former :
    haunted.Opened ∧ later.Proper ∧ (haunted.analyze later).graph.contains former = true ∧
      (haunted.analyze later).known.contains former = false := by
  refine ⟨opened_haunted, proper_later, contains_former, ?_⟩
  rw [known_analyze, show haunted.root = slash from root_analyze _ _,
    show later.scan slash = [latter]
        from scan_of_scripts rfl (by decide +kernel) (List.pairwise_singleton _ _)]
  decide +kernel

end Sample

end Project

end BlastRadius
