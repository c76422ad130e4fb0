import BlastRadius.Proofs.Analyze
import BlastRadius.Proofs.Overwrite

namespace BlastRadius.Project

/-!
# Following changes equals analysing anew

A project that follows the changes of its files shows the same as one that analyses all of them
anew, once every known file was analysed since it was last written to and since the known files last
changed.

* `Session.InSync` — the known files and the aliases are those that are on disk.
* `Session.Followed` — besides, no known file was disturbed since it was last analysed.
* `Session.likeNew_of_upToDate` — a project all of whose files are up to date shows what a new
  analysis shows.
* `incremental_eq_full` — the theorem, with the two histories that it is most used for.
* `Sample.incremental_ne_full` — what the theorem does not promise: the spelling in the edges of a
  snapshot, and anything of a cache that takes one file for another.
-/

open BlastRadius.Graph Component Disk BlastRadius.Path Resolve

variable {p : Project} {d : Disk} {f : Path}

namespace Session

variable {s : Session}

/-! ### Analysing anew -/

/-- A project after the analysis of all its files on a disk. -/
def start (p : Project) (d : Disk) : Session :=
  ⟨p.analyze d, d⟩

/-- The known files are those that a scan lists, and the aliases are those that would be loaded. -/
structure InSync (s : Session) : Prop where
  known : ∀ x : Path, s.project.known.contains x = true ↔ x.Listed (s.disk.scan s.project.root)
  aliases : s.project.aliases = loadAliases s.disk s.project.root

/-- A new project at the same root, without a cache. -/
def anew (s : Session) : Project :=
  atRoot s.project.root s.project.config none

/-- A new project at the same root, after the analysis of all its files. -/
def reanalysed (s : Session) : Project :=
  s.anew.analyze s.disk

/-- The graph shows the same as that of a new project after the analysis of all its files. -/
def LikeNew (s : Session) : Prop :=
  s.project.graph.SameView s.reanalysed.graph

/-- A session that starts with an analysis is sound. -/
theorem Sound.start (hroot : p.root.Canonical) (hd : d.Proper) (hown : p.OwnAnalyses d) :
    (start p d).Sound :=
  ⟨tidy_analyze hroot hd hown, hd⟩

/-- In sync, every known file is found by a scan. -/
theorem InSync.mem_scan (h : s.InSync) (hs : s.Sound) (hf : f ∈ s.project.known.paths) :
    f ∈ s.disk.scan s.project.root := by
  obtain ⟨f', hf', hsame⟩ := (h.known f).1 (PathMap.listed_paths.1 (listed_of_mem hf))
  have hcanonical := canonical_of_mem_scan hs.proper hs.tidy.root hf'
  rwa [← hcanonical.eq_of_same (hs.tidy.known.of_mem_paths hf) hsame]

/-- In sync, a new analysis resolves in the same context. -/
theorem InSync.context_eq (h : s.InSync) (hs : s.Sound) :
    s.reanalysed.context = s.project.context := by
  unfold context reanalysed
  rw [aliases_analyze, known_analyze, h.aliases]
  refine congrArg (Context.mk _) (PathSet.ext_contains ?_ hs.tidy.known fun x => ?_)
  · exact PathSet.canonical_ofList fun f hf => canonical_of_mem_scan hs.proper hs.tidy.root hf
  · rw [Bool.eq_iff_iff, PathSet.contains_ofList]
    exact (h.known x).symm

/-- **Everything is up to date.** Then a new analysis shows nothing new. -/
theorem likeNew_of_upToDate (hs : s.Sound) (hsync : s.InSync)
    (hfiles : ∀ f ∈ s.project.known.paths, s.UpToDate f) : s.LikeNew := by
  have hroot : s.anew.root.Canonical := hs.tidy.root
  have hown : s.anew.OwnAnalyses s.disk := ownAnalyses_of_uncached rfl
  have hfresh : s.reanalysed.Tidy := tidy_analyze hroot hs.proper hown
  have hknown : ∀ x, s.project.graph.contains x = true → ∃ f ∈ s.project.known.paths, f.Same x :=
    fun x hx => PathMap.listed_paths.2 (hs.tidy.analysed_known x hx)
  have hexact : s.project.graph.Exact := by
    -- Every analysed file is known, hence up to date, hence has all its imports.
    refine ⟨hs.tidy.consistent, hs.tidy.names, fun x node hnode => ?_⟩
    obtain ⟨f, hf, hsame⟩ := hknown x (PathMap.contains_iff_exists_get?.2 ⟨node, hnode⟩)
    obtain ⟨-, -, -, hfull⟩ := hfiles f hf
    exact hfull.congr hsame node hnode
  have hnodes : s.project.graph.nodes = s.reanalysed.graph.nodes := by
    -- The analyses agree on the known files, and there are no others.
    refine hs.tidy.names.nodes.ext hfresh.names.nodes fun x => ?_
    by_cases hx : s.project.known.contains x = true
    · obtain ⟨f, hf, hsame⟩ := PathMap.listed_paths.2 hx
      obtain ⟨node, hanalysis, hget, -⟩ := hfiles f hf
      rw [← s.project.graph.nodes.get?_congr hsame, hget,
        ← s.reanalysed.graph.nodes.get?_congr hsame]
      refine (get?_analyze_of_uncached hroot hs.proper rfl (hsync.mem_scan hs hf) ?_).symm
      rw [show (s.anew.analyze s.disk).context = _ from hsync.context_eq hs]
      exact hanalysis
    · -- Neither graph has a file that is not known.
      have hnone : ∀ p : Project, p.Tidy → p.known = s.project.known →
          p.graph.nodes.get? x = none := by
        intro p hp hset
        refine Option.not_isSome_iff_eq_none.1 fun hsome => hx ?_
        rw [← hset]
        exact hp.analysed_known x (by rw [Graph.contains, PathMap.contains_eq_isSome_get?, hsome])
      rw [hnone s.project hs.tidy rfl]
      exact (hnone s.reanalysed hfresh (congrArg Context.known (hsync.context_eq hs))).symm
  have hroots : s.project.graph.root = s.reanalysed.graph.root := by
    rw [hs.tidy.graph_root, hfresh.graph_root]
    exact (root_analyze s.anew s.disk).symm
  exact (hexact.alike (exact_analyze hroot hs.proper hown) hroots hnodes).sameView hnodes

/-! ### Files that were analysed last -/

/-- A file is analysed at the end of a history: by the analysis of all the files, which may keep an
    earlier analysis that says the same, or by a change that is applied. -/
inductive Analysed (s : Session) (f : Path) : List Event → Prop where
  | first {node : FileNode} (analysis : s.analysis? f = some node)
      (kept : s.project.graph.nodes.get? f = some node) : Analysed s f []
  | again {before : List Event} {c : Change} (kind : c.kind ≠ .deleted)
      (same : ((s.run before).project.identity c.path).Same f)
      (applied : ((s.run before).project.applyChange (s.run before).disk c).2 = true) :
      Analysed s f (before ++ [.change c])

/-- A file was not written to since it was last analysed, and the known files did not change
    since. -/
def Current (s : Session) (f : Path) (events : List Event) : Prop :=
  ∃ before after, events = before ++ after ∧ s.Analysed f before ∧
    (s.run before).Undisturbed f after

/-- After a history the known files and the aliases are those on disk, and no known file was
    disturbed since it was last analysed. -/
structure Followed (s : Session) (events : List Event) : Prop where
  inSync : (s.run events).InSync
  current : ∀ f ∈ (s.run events).project.known.paths, s.Current f events

/-- A file is up to date right after it was analysed. -/
theorem Analysed.upToDate (hs : s.Sound) (hexact : s.project.graph.Exact) (hf : f.Canonical)
    {events : List Event} (h : s.Analysed f events) : (s.run events).UpToDate f := by
  cases h with
  | @first node analysis kept => exact ⟨node, analysis, kept, hexact.full f⟩
  | @again before c kind same applied =>
    have hbefore := hs.run before
    rw [run_append]
    -- Only the last event matters, so that what came before it may be any sound session.
    generalize s.run before = t at hbefore same applied ⊢
    obtain rfl := (canonical_identity hbefore.tidy.root c.path).eq_of_same hf same
    show UpToDate ⟨(t.project.applyChange t.disk c).1, t.disk⟩ _
    rcases applyChange_cases t.project t.disk c with
      hnothing | ⟨-, -, node, hrevisited⟩ | ⟨hdeleted, -⟩
    · rw [hnothing] at applied
      cases applied
    · exact upToDate_of_revisited hrevisited
    · exact absurd hdeleted kind

/-- A file that was analysed and not disturbed since is up to date. -/
theorem Current.upToDate (hs : s.Sound) (hexact : s.project.graph.Exact) (hf : f.Canonical)
    {events : List Event} (h : s.Current f events) : (s.run events).UpToDate f := by
  obtain ⟨before, after, rfl, hanalysed, hafter⟩ := h
  rw [run_append]
  exact (hanalysed.upToDate hs hexact hf).run (hs.run before) hf hafter

/-! ### Changes of files that are known already -/

/-- The same files are known at the same root. -/
structure SameFiles (s s' : Session) : Prop where
  root : s'.project.root = s.project.root
  known : s'.project.known = s.project.known

/-- Keeping the files can be chained. -/
theorem SameFiles.trans {s' s'' : Session} (h : SameFiles s s') (h' : SameFiles s' s'') :
    SameFiles s s'' :=
  ⟨h'.root.trans h.root, h'.known.trans h.known⟩

/-- Sessions with the same files identify paths alike. -/
theorem SameFiles.identity {s' : Session} (h : SameFiles s s') :
    s'.project.identity = s.project.identity := by
  funext path
  unfold Project.identity
  rw [h.root]

/-- A project that is told that a file was modified analyses the file again, if it can be read. -/
theorem revisited_of_modified {c : Change} (hkind : c.kind = .modified)
    (heq : s.project.identity c.path = f) (hadmits : s.project.admits f = true) {data : FileData}
    (hread : s.disk.read f = .ok data) : (s.project.applyChange s.disk c).2 = true ∧
      ∃ node, s.project.Revisited s.disk f node (s.step (.change c)).project := by
  obtain ⟨node, hnode⟩ := analyzeFile?_of_read hread s.project.root
    ⟨s.project.aliases, s.project.known.add f⟩
  obtain ⟨happlied, hrevisited⟩ := revisit_some hnode
  have happly : s.project.applyChange s.disk c = s.project.revisit s.disk f := by
    rw [applyChange_eq_revisit (by simp [hkind]) (by rwa [heq]), heq]
  refine ⟨?_, node, ?_⟩
  · rw [happly]
    exact happlied
  · show s.project.Revisited s.disk f node (s.project.applyChange s.disk c).1
    rw [happly]
    exact hrevisited

/-- Analysing a known file again keeps the files. -/
theorem sameFiles_of_revisited {p' : Project} {node : FileNode}
    (h : s.project.Revisited d f node p') (hknown : s.project.known.contains f = true) :
    SameFiles s ⟨p', d⟩ where
  root := h.root
  known := by
    show p'.known = s.project.known
    rw [h.known, PathSet.add_of_contains hknown]

/-- A new analysis of a known file leaves the known files and the aliases. -/
theorem InSync.revisited (h : s.InSync) {p' : Project} {node : FileNode}
    (hp' : s.project.Revisited s.disk f node p') (hknown : s.project.known.contains f = true) :
    InSync ⟨p', s.disk⟩ where
  known x := by
    show p'.known.contains x = true ↔ x.Listed (s.disk.scan p'.root)
    rw [hp'.known, PathSet.add_of_contains hknown, hp'.root]
    exact h.known x
  aliases := by
    show p'.aliases = loadAliases s.disk p'.root
    rw [hp'.aliases, hp'.root]
    exact h.aliases

/-- Telling a project that a known file was modified brings this file up to date, and leaves the
    others. -/
theorem InSync.modified (h : s.InSync) (hs : s.Sound) {c : Change} (hkind : c.kind = .modified)
    (hf : f ∈ s.project.known.paths) (hsame : (s.project.identity c.path).Same f) {data : FileData}
    (hread : s.disk.read f = .ok data) :
    (s.step (.change c)).InSync ∧ SameFiles s (s.step (.change c)) ∧
    (s.step (.change c)).UpToDate f ∧
      ∀ x : Path, x.Canonical → s.UpToDate x → (s.step (.change c)).UpToDate x := by
  have hknown : s.project.known.contains f = true := PathMap.listed_paths.1 (listed_of_mem hf)
  have heq : s.project.identity c.path = f :=
    (canonical_identity hs.tidy.root c.path).eq_of_same (hs.tidy.known.of_mem_paths hf) hsame
  have hadmits : s.project.admits f = true :=
    admits_of_mem_scan hs.proper hs.tidy.root (h.mem_scan hs hf)
  obtain ⟨-, node, hrevisited⟩ := revisited_of_modified hkind heq hadmits hread
  have hfiles := sameFiles_of_revisited hrevisited hknown
  refine ⟨h.revisited hrevisited hknown, hfiles, upToDate_of_revisited hrevisited,
    fun x hx hup => ?_⟩
  refine hup.applyChange hs hx fun y => ?_
  rw [show (s.step (.change c)).project.known = s.project.known from hfiles.known]

/-- A pass of changes over known files that can be read brings all of them up to date. -/
theorem InSync.pass (h : s.InSync) (hs : s.Sound)
    (hread : ∀ f ∈ s.project.known.paths, ∃ data, s.disk.read f = .ok data) {changes : List Change}
    (hchanges : ∀ c ∈ changes, c.kind = .modified ∧
      s.project.known.contains (s.project.identity c.path) = true) :
    (s.run (changes.map .change)).InSync ∧ SameFiles s (s.run (changes.map .change)) ∧
      ∀ f ∈ s.project.known.paths,
        (s.UpToDate f ∨ ∃ c ∈ changes, (s.project.identity c.path).Same f) →
          (s.run (changes.map .change)).UpToDate f := by
  induction changes generalizing s with
  | nil =>
    refine ⟨h, ⟨rfl, rfl⟩, fun f _ hup => ?_⟩
    rcases hup with hup | ⟨c, hc, -⟩
    · exact hup
    · exact absurd hc List.not_mem_nil
  | cons c changes ih =>
    obtain ⟨hkind, hknown⟩ := hchanges c List.mem_cons_self
    obtain ⟨f, hf, hsame⟩ := PathMap.listed_paths.2 hknown
    obtain ⟨data, hdata⟩ := hread f hf
    obtain ⟨hsync, hfiles, hup, hkeep⟩ := h.modified hs hkind hf hsame.symm hdata
    have hread' : ∀ f ∈ (s.step (.change c)).project.known.paths, ∃ data,
        s.disk.read f = .ok data := by
      rw [hfiles.known]
      exact hread
    have hchanges' : ∀ c' ∈ changes, c'.kind = .modified ∧
        (s.step (.change c)).project.known.contains ((s.step (.change c)).project.identity c'.path)
        = true := by
      rw [hfiles.known, hfiles.identity]
      exact fun c' hc' => hchanges c' (List.mem_cons_of_mem c hc')
    obtain ⟨hsync', hfiles', hpass⟩ := ih hsync (hs.step _) hread' hchanges'
    refine ⟨hsync', hfiles.trans hfiles', fun x hx hwhy => ?_⟩
    rw [hfiles.known, hfiles.identity] at hpass
    refine hpass x hx ?_
    have hcanonical := hs.tidy.known.of_mem_paths hx
    rcases hwhy with hxup | ⟨c', hc', hc'x⟩
    · exact Or.inl (hkeep x hcanonical hxup)
    · rcases List.mem_cons.1 hc' with rfl | hc'
      · -- This is the file of the first change.
        obtain rfl := (hs.tidy.known.of_mem_paths hf).eq_of_same hcanonical (hsame.trans hc'x)
        exact Or.inl hup
      · exact Or.inr ⟨c', hc', hc'x⟩

/-- Writing to a known file leaves all others as they were. -/
theorem InSync.written (h : s.InSync) (hs : s.Sound) (hf : f ∈ s.project.known.paths)
    {old : FileData} (hread : s.disk.read f = .ok old) (data : FileData) :
    (s.step (.write f data)).InSync ∧ (s.step (.write f data)).disk.read f = .ok data ∧
      ∀ x : Path, x.Canonical → ¬x.Same f → s.UpToDate x → (s.step (.write f data)).UpToDate x := by
  obtain ⟨rootPlace, hrootPlace, hroot⟩ := hs.tidy.root
  obtain ⟨own, hown, rfl⟩ := hs.tidy.known.of_mem_paths hf
  have hscan := h.mem_scan hs hf
  rw [hroot] at hscan
  obtain ⟨-, -, hscript, -⟩ := hs.proper.mem_scan hrootPlace hscan
  obtain ⟨place, hlocate, hfile, hwrite⟩ := hs.proper.writeFile_of_read hread data
  -- The write lands at the place that the path spells out.
  obtain rfl : place = own := walk_pathOf hown (locate_eq_ok.1 hlocate).2
  have hstep : s.step (.write (pathOf place) data)
      = ⟨s.project, s.disk.put place (.file data)⟩ := by
    rw [step, hwrite]
    rfl
  rw [hstep]
  refine ⟨⟨fun x => ?_, ?_⟩, ?_, fun x hx hne hup => ?_⟩
  · show _ ↔ x.Listed ((s.disk.put place (.file data)).scan s.project.root)
    rw [scan_put hfile]
    exact h.known x
  · show _ = loadAliases (s.disk.put place (.file data)) s.project.root
    rw [loadAliases_put hfile (getLast?_ne_of_isScript hown hscript)]
    exact h.aliases
  · have hdata := read_put hfile data (pathOf place)
    rw [if_pos hlocate] at hdata
    show (s.disk.put place (.file data)).read (pathOf place) = .ok data
    cases hresult : (s.disk.put place (.file data)).read (pathOf place) with
    | error e =>
      rw [hresult] at hdata
      cases hdata
    | ok found =>
      rw [hresult] at hdata
      exact congrArg Except.ok (Option.some.inj hdata)
  · refine hup.disk ?_
    rw [read_put hfile, if_neg]
    -- A canonical path that leads to the file is the path of the file.
    intro hsame
    obtain ⟨other, hother, rfl⟩ := hx
    obtain rfl : place = other := walk_pathOf hother (locate_eq_ok.1 hsame).2
    exact hne (Same.refl _)

/-- Files are written to, and after each the project is told so. -/
def edits (changes : List (Path × FileData)) : List Event :=
  changes.flatMap fun edit => [.write edit.1 edit.2, .change ⟨.modified, edit.1⟩]

/-- A file that is up to date can be read. -/
theorem UpToDate.read (h : s.UpToDate f) : ∃ data, s.disk.read f = .ok data := by
  obtain ⟨node, hnode, -⟩ := h
  exact read_of_analyzeFile? hnode

/-- A project stays up to date when it is told of every write to a known file. -/
theorem InSync.edits (h : s.InSync) (hs : s.Sound)
    (hfiles : ∀ f ∈ s.project.known.paths, s.UpToDate f) {changes : List (Path × FileData)}
    (hchanges : ∀ edit ∈ changes, edit.1 ∈ s.project.known.paths) : (s.run (edits changes)).InSync ∧
      ∀ f ∈ (s.run (edits changes)).project.known.paths, (s.run (edits changes)).UpToDate f := by
  induction changes generalizing s with
  | nil => exact ⟨h, hfiles⟩
  | cons edit changes ih =>
    obtain ⟨f, data⟩ := edit
    have hf : f ∈ s.project.known.paths := hchanges (f, data) List.mem_cons_self
    have hcanonical := hs.tidy.known.of_mem_paths hf
    obtain ⟨old, hread⟩ := (hfiles f hf).read
    obtain ⟨hsync, hdata, hothers⟩ := h.written hs hf hread data
    -- The project does not change when the file is written.
    have hproject : (s.step (.write f data)).project = s.project := rfl
    have hsound := hs.step (.write f data)
    have hidentity : ((s.step (.write f data)).project.identity f).Same f := by
      rw [identity_of_canonical _ hcanonical]
      exact Same.refl f
    obtain ⟨hsync', hsame, hup, hkeep⟩ :=
      hsync.modified hsound (show (Change.mk .modified f).kind = .modified from rfl)
      (by rwa [hproject]) hidentity hdata
    refine ih hsync' (hsound.step _) (fun x hx => ?_) fun edit hedit => ?_
    · rw [hsame.known, hproject] at hx
      have hxcanonical := hs.tidy.known.of_mem_paths hx
      by_cases hxf : x.Same f
      · rw [hxcanonical.eq_of_same hcanonical hxf]
        exact hup
      · exact hkeep x hxcanonical (hothers x hxcanonical hxf (hfiles x hx))
    · rw [hsame.known, hproject]
      exact hchanges edit (List.mem_cons_of_mem _ hedit)

/-- After an analysis a session is in sync. -/
theorem InSync.start (p : Project) (d : Disk) : (start p d).InSync where
  known x := by
    show (p.analyze d).known.contains x = true ↔ x.Listed (d.scan (p.analyze d).root)
    rw [known_analyze, root_analyze, PathSet.contains_ofList]
  aliases := by
    show (p.analyze d).aliases = loadAliases d (p.analyze d).root
    rw [aliases_analyze, root_analyze]

/-- In sync, every file that a scan finds is known. -/
theorem InSync.mem_paths (h : s.InSync) (hs : s.Sound) (hf : f ∈ s.disk.scan s.project.root) :
    f ∈ s.project.known.paths := by
  obtain ⟨f', hf', hsame⟩ := PathMap.listed_paths.2 ((h.known f).2 (listed_of_mem hf))
  rwa [← (hs.tidy.known.of_mem_paths hf').eq_of_same
    (canonical_of_mem_scan hs.proper hs.tidy.root hf) hsame]

/-- Without a cache the analysis of all the files analyses every file that can be read. -/
theorem analysed_of_uncached (hroot : p.root.Canonical) (hd : d.Proper) (hcache : p.cache = none)
    (hf : f ∈ d.scan p.root) {data : FileData} (hread : d.read f = .ok data) :
    (start p d).Analysed f [] := by
  obtain ⟨node, hnode⟩ := analyzeFile?_of_read hread p.root (p.analyze d).context
  refine .first ?_ (get?_analyze_of_uncached hroot hd hcache hf hnode)
  show analyzeFile? d (p.analyze d).root (p.analyze d).context f = some node
  rw [root_analyze]
  exact hnode

end Session

open Session

/-- **Following changes equals analysing anew.** A project that was opened and analysed, and whose
    cache gave no analyses of other files, goes through a history. If then the known files and the
    aliases are those on disk, and no known file was disturbed since it was last analysed, its graph
    shows the same as that of a new project after an analysis of all the files. In particular it
    does so after a history of modifications, each followed by its change, and after any history
    that ends with a pass of changes over all the known files. -/
theorem incremental_eq_full (p : Project) (d : Disk) (hopened : p.Opened) (hd : d.Proper)
    (hown : p.OwnAnalyses d) :
    (∀ events : List Event, (start p d).Followed events → ((start p d).run events).LikeNew) ∧
    (∀ changes : List (Path × FileData), (∀ f ∈ d.scan p.root, (start p d).Analysed f []) →
      (∀ edit ∈ changes, edit.1 ∈ d.scan p.root) → ((start p d).run (edits changes)).LikeNew) ∧
    (∀ (events : List Event) (changes : List Change), ((start p d).run events).InSync →
      (∀ f ∈ ((start p d).run events).project.known.paths,
        (∃ data, ((start p d).run events).disk.read f = .ok data) ∧
        ∃ c ∈ changes, (((start p d).run events).project.identity c.path).Same f) →
      (∀ c ∈ changes, c.kind = .modified ∧ ((start p d).run events).project.known.contains
        (((start p d).run events).project.identity c.path) = true) →
      ((start p d).run (events ++ changes.map .change)).LikeNew) := by
  have hroot := hopened.canonical
  have hsound : (start p d).Sound := Sound.start hroot hd hown
  have hexact : (start p d).project.graph.Exact := exact_analyze hroot hd hown
  refine ⟨fun events hfollowed => ?_, fun changes hfirst hchanges => ?_,
    fun events changes hsync hfiles hchanges => ?_⟩
  · refine likeNew_of_upToDate (hsound.run events) hfollowed.inSync fun f hf => ?_
    exact (hfollowed.current f hf).upToDate hsound hexact
      ((hsound.run events).tidy.known.of_mem_paths hf)
  · have hscan : ∀ f, f ∈ (start p d).project.known.paths ↔ f ∈ d.scan p.root := by
      intro f
      have hstart : (start p d).disk.scan (start p d).project.root = d.scan p.root :=
        congrArg d.scan (root_analyze p d)
      rw [← hstart]
      exact ⟨(InSync.start p d).mem_scan hsound, (InSync.start p d).mem_paths hsound⟩
    obtain ⟨hsync, hup⟩ := (InSync.start p d).edits hsound
      (fun f hf => (hfirst f ((hscan f).1 hf)).upToDate hsound hexact
        (hsound.tidy.known.of_mem_paths hf))
      fun edit hedit => (hscan edit.1).2 (hchanges edit hedit)
    exact likeNew_of_upToDate (hsound.run _) hsync hup
  · -- Before the pass nothing need be up to date; each change brings its file up to date for good.
    obtain ⟨hsync', hsame, hup⟩ :=
      hsync.pass (hsound.run events) (fun f hf => (hfiles f hf).1) hchanges
    rw [run_append]
    refine likeNew_of_upToDate ((hsound.run events).run _) hsync' fun f hf => ?_
    rw [hsame.known] at hf
    exact hup f hf (Or.inr (hfiles f hf).2)

/-! ### Where they differ -/

namespace Session

variable {s : Session}

/-- A project that was told once that a scanned file was modified knows the same files, and has the
    graph of the first analysis with this file analysed again. -/
theorem run_told (p : Project) (d : Disk) {c : Change} (hkind : c.kind = .modified)
    (hidentity : p.identity c.path = f) (hadmits : p.admits f = true) (hscan : f ∈ d.scan p.root)
    {data : FileData} (hread : d.read f = .ok data) :
    ((start p d).run [.change c]).InSync ∧ SameFiles (start p d) ((start p d).run [.change c]) ∧
      (start p d).Analysed f [.change c] ∧
      ∃ node, analyzeFile? d p.root (p.prepared d).context f = some node ∧
        ((start p d).run [.change c]).project.graph = (p.analyze d).graph.addNode node := by
  have hidentity' : (start p d).project.identity c.path = f := by
    rw [← hidentity]
    exact identity_analyze p d c.path
  have hadmits' : (start p d).project.admits f = true := by
    rw [← hadmits, Project.admits, show (start p d).project.root = p.root from root_analyze p d]
    rfl
  -- The change is about a known file, so it is analysed again in the same context.
  have hknown : (start p d).project.known.contains f = true := by
    show (p.analyze d).known.contains f = true
    rw [known_analyze, PathSet.contains_ofList]
    exact listed_of_mem hscan
  obtain ⟨happlied, node, hrevisited⟩ := revisited_of_modified hkind hidentity' hadmits' hread
  refine ⟨(InSync.start p d).revisited hrevisited hknown,
    sameFiles_of_revisited hrevisited hknown, ?_, node, ?_, hrevisited.graph⟩
  · show (start p d).Analysed f ([] ++ [.change c])
    refine .again ?_ ?_ happlied
    · rw [hkind]
      simp
    · rw [show (start p d).run [] = start p d from rfl, hidentity']
      exact Same.refl f
  · have hanalysis := hrevisited.analysis
    rw [context, hrevisited.root, hrevisited.aliases, hrevisited.known,
      PathSet.add_of_contains hknown] at hanalysis
    rw [← context_analyze, ← root_analyze p d]
    exact hanalysis

/-- The graph of a new analysis, from the scanned files alone. -/
theorem graph_reanalysed_of_scan {root : Path} {files : List Path} (hroot : s.project.root = root)
    (hscan : s.disk.scan root = files) :
    s.reanalysed.graph = Graph.ofNodes root
      (files.filterMap (analyzeFile? s.disk root
        ⟨loadAliases s.disk root, PathSet.ofList files⟩)) :=
  graph_analyze_of_scan hroot rfl hscan

/-- A change that keeps the files disturbs none of the analyses. -/
theorem undisturbed_of_sameFiles {c : Change} (h : SameFiles s (s.step (.change c))) (f : Path) :
    s.Undisturbed f [.change c] := by
  intro front hfront
  rcases List.prefix_cons_iff.1 hfront with rfl | ⟨rest, rfl, hrest⟩
  · exact ⟨rfl, fun _ => rfl⟩
  · obtain rfl := List.prefix_nil.1 hrest
    exact ⟨rfl, fun x => congrArg (·.contains x) h.known⟩

end Session

namespace Sample

/-- The root of the samples. -/
def slash : Path :=
  ofString "/"

/-- A file with a text, written at time zero. -/
def plain (text : String) : Entry :=
  .file ⟨Text.utf8 text.toList, 0⟩

/-- A new project, with or without a cache. -/
def new (cache : Option (Cache Fingerprint)) : Project :=
  atRoot slash {} cache

/-! #### A workspace -/

/-- A package that imports itself. -/
def package : Entry :=
  .directory [
    ("index.ts", plain "import './index'"),
    ("package.json", plain "\x7b\"name\":\"v\"\x7d")]

/-- A workspace whose package is named with a dot behind it, and a file that imports the package. -/
def workspace : Disk where
  top := .directory [
    ("a.ts", plain "import 'v'"),
    ("package.json", plain "\x7b\"workspaces\":[\"u/.\"]\x7d"),
    ("u", package)]
  workdir := []

/-- The script of the package. -/
def index : Path :=
  ofString "/u/index.ts"

/-- Both scripts of the workspace. -/
def scripts : List Path :=
  [ofString "/a.ts", index]

/-- The workspace is a proper disk. -/
theorem proper_workspace : workspace.Proper := by
  have hpackage : package.Proper := .directory (by decide) (by simp [plain, Entry.Proper.file])
  exact ⟨.directory (by decide) (by simp [plain, Entry.Proper.file, hpackage]), rfl⟩

/-- A scan finds its scripts. -/
theorem scan_workspace : workspace.scan slash = scripts :=
  scan_of_scripts rfl (by decide +kernel) (by decide +kernel)

/-- The new project is opened at the root. -/
theorem opened_new (cache : Option (Cache Fingerprint)) : (new cache).Opened :=
  ⟨workspace, slash, proper_workspace, rfl⟩

/-- An analysis knows the scripts. -/
theorem paths_known (cache : Option (Cache Fingerprint)) :
    ((new cache).analyze workspace).known.paths = scripts := by
  rw [known_analyze, show (new cache).root = slash from rfl, scan_workspace]
  decide +kernel

/-- The scripts can be read. -/
theorem read_scripts (hf : f ∈ scripts) : ∃ data, workspace.read f = .ok data := by
  rcases List.mem_cons.1 hf with rfl | hf
  · exact ⟨_, rfl⟩
  · obtain rfl := List.mem_singleton.1 hf
    exact ⟨_, rfl⟩

/-- The project is told that the package was modified. -/
def told : Change :=
  ⟨.modified, ofString "u/index.ts"⟩

/-- What the specifiers of the workspace are resolved against. -/
def resolvedAgainst : Context :=
  ⟨loadAliases workspace slash, PathSet.ofList scripts⟩

/-- The graph of both scripts. -/
def fullGraph : Graph :=
  .ofNodes slash (scripts.filterMap (analyzeFile? workspace slash resolvedAgainst))

/-- The import of the package says its path with a dot, and the graph keeps this spelling of the
    package until the package is analysed again. -/
theorem edges_addNode_ne {node : FileNode}
    (h : analyzeFile? workspace slash resolvedAgainst index = some node) :
    (fullGraph.addNode node).edges ≠ fullGraph.edges := by
  have hevaluated : (analyzeFile? workspace slash resolvedAgainst index).map
      (fun node => decide ((fullGraph.addNode node).edges = fullGraph.edges)) = some false := by
    decide +kernel
  rw [h] at hevaluated
  exact of_decide_eq_false (Option.some.inj hevaluated)

/-- The scripts are what a scan from the root of the project finds. -/
theorem mem_scan_new : f ∈ workspace.scan (new none).root ↔ f ∈ scripts := by
  rw [show workspace.scan (new none).root = scripts from scan_workspace]

/-- Without a cache both files are analysed at first. -/
theorem analysed_scripts (hf : f ∈ scripts) : (start (new none) workspace).Analysed f [] := by
  obtain ⟨data, hdata⟩ := read_scripts hf
  exact analysed_of_uncached (opened_new none).canonical proper_workspace rfl
    (mem_scan_new.2 hf) hdata

/-- The session follows the change, but its snapshot differs from that of a new analysis. -/
theorem run_told_workspace :
    (start (new none) workspace).Followed [.change told] ∧
      ∀ lastUpdated,
        ((start (new none) workspace).run [.change told]).project.graph.snapshot lastUpdated
          ≠ ((start (new none) workspace).run [.change told]).reanalysed.graph.snapshot
          lastUpdated := by
  have hindex : index ∈ workspace.scan (new none).root :=
    mem_scan_new.2 (List.mem_cons_of_mem _ List.mem_cons_self)
  obtain ⟨hsync, hfiles, -, node, hnode, hgraph⟩ :=
    run_told (new none) workspace (show told.kind = .modified from rfl)
    (by decide +kernel) (by decide +kernel) hindex (show workspace.read index = .ok _ from rfl)
  refine ⟨⟨hsync, fun f hf => ?_⟩, fun lastUpdated heq => ?_⟩
  · -- The change brings nothing new, so both files are still as they were analysed at first.
    rw [hfiles.known] at hf
    have hf : f ∈ scripts := by rwa [← paths_known none]
    exact ⟨[], _, rfl, analysed_scripts hf, undisturbed_of_sameFiles hfiles f⟩
  · have hstart : ((new none).analyze workspace).graph = fullGraph :=
      graph_analyze_of_scan rfl rfl scan_workspace
    have hanew : ((start (new none) workspace).run [.change told]).reanalysed.graph = fullGraph :=
      graph_reanalysed_of_scan (hfiles.root.trans (root_analyze _ _)) scan_workspace
    have hcontext : ((new none).prepared workspace).context = resolvedAgainst :=
      congrArg (fun files => Context.mk _ (PathSet.ofList files)) scan_workspace
    have hedges : Graph.edges _ = Graph.edges _ := congrArg Snapshot.edges heq
    rw [hgraph, hstart, hanew] at hedges
    rw [hcontext] at hnode
    exact edges_addNode_ne hnode hedges

/-- A new project with a cache. -/
def cached : Project :=
  new (some (.ofStore (some .empty)))

/-- An empty cache brings no analyses of other files. -/
theorem ownAnalyses_cached (d : Disk) : cached.OwnAnalyses d := by
  refine ownAnalyses_of_within fun c hc => ?_
  obtain rfl := Option.some.inj hc
  exact Cache.within_fresh (fun store hstore => (Option.some.inj hstore).symm) _

/-- Other bytes for the package. -/
def rewritten : FileData :=
  ⟨Text.utf8 "import 'v'".toList, 1⟩

/-- Changes of both files of the workspace. -/
def pass : List Change :=
  [told, ⟨.modified, ofString "/a.ts"⟩]

/-- The pass modifies known files. -/
theorem known_pass :
    ∀ c ∈ pass, c.kind = .modified ∧
      (cached.analyze workspace).known.contains ((cached.analyze workspace).identity c.path)
        = true := by
  simp only [identity_analyze]
  rw [known_analyze, show workspace.scan cached.root = scripts from scan_workspace]
  decide +kernel

/-- The package was written to, and the project was not told yet. -/
theorem written_cached :
    ((start cached workspace).run [.write index rewritten]).InSync ∧
      ∀ f ∈ (cached.analyze workspace).known.paths,
        (∃ data, ((start cached workspace).run [.write index rewritten]).disk.read f = .ok data) ∧
        ∃ c ∈ pass, ((cached.analyze workspace).identity c.path).Same f := by
  have hpaths : (cached.analyze workspace).known.paths = scripts := paths_known _
  have hindex : index ∈ (start cached workspace).project.known.paths := by
    show index ∈ (cached.analyze workspace).known.paths
    rw [hpaths]
    exact List.mem_cons_of_mem _ List.mem_cons_self
  have hsound :=
    Sound.start (opened_new _).canonical proper_workspace (ownAnalyses_cached workspace)
  obtain ⟨hsync, hread, -⟩ := (InSync.start cached workspace).written hsound hindex
    (show workspace.read index = .ok _ from rfl) rewritten
  -- The pass names every script, whatever spelling it uses.
  have hall : ∀ f ∈ scripts, ∃ c ∈ pass, (cached.identity c.path).components = f.components := by
    decide +kernel
  refine ⟨hsync, fun f hf => ?_⟩
  rw [hpaths] at hf
  obtain ⟨c, hc, hsame⟩ := hall f hf
  refine ⟨?_, c, hc,
    (congrArg Path.components (identity_analyze cached workspace c.path)).trans hsame⟩
  rcases List.mem_cons.1 hf with rfl | hf
  · exact ⟨_, rfl⟩
  · obtain rfl := List.mem_singleton.1 hf
    exact ⟨_, hread⟩

/-- The three histories on the workspace: it is told of a change that was none, of a write to the
    package, and at the end of both files. -/
theorem incremental_eq_full_workspace :
    ((start (new none) workspace).Followed [.change told] ∧
      ((start (new none) workspace).run [.change told]).LikeNew) ∧
    ((start (new none) workspace).run (edits [(index, rewritten)])).LikeNew ∧
    cached.OwnAnalyses workspace ∧
      ((start cached workspace).run ([.write index rewritten] ++ pass.map .change)).LikeNew := by
  have hnew := incremental_eq_full (new none) workspace (opened_new none) proper_workspace
    (ownAnalyses_of_uncached rfl)
  have hcached := incremental_eq_full cached workspace (opened_new _) proper_workspace
    (ownAnalyses_cached workspace)
  refine ⟨⟨run_told_workspace.1, hnew.1 _ run_told_workspace.1⟩, ?_,
    ownAnalyses_cached workspace, ?_⟩
  · refine hnew.2.1 _ (fun f hf => analysed_scripts (mem_scan_new.1 hf)) fun edit hedit => ?_
    obtain rfl := List.mem_singleton.1 hedit
    exact mem_scan_new.2 (List.mem_cons_of_mem _ List.mem_cons_self)
  · exact hcached.2.2 [.write index rewritten] pass written_cached.1 written_cached.2 known_pass

/-! #### Two paths with one imprint -/

/-- A tree with one file, which is empty. -/
def lone (a b c : String) : Disk where
  top := .directory [(a, .directory [(b, .directory [(c, plain "")])])]
  workdir := []

/-- Such a disk is a proper one if its names are. -/
theorem proper_lone {a b c : String} (ha : ProperName a) (hb : ProperName b) (hc : ProperName c) :
    (lone a b c).Proper := by
  have hdirectory : ∀ {name : String} {e : Entry}, ProperName name → e.Proper →
      (Entry.directory [(name, e)]).Proper := by
    intro name e hname he
    exact .directory (by simpa using hname) (by simpa using he)
  exact ⟨hdirectory ha (hdirectory hb (hdirectory hc (.file _))), rfl⟩

/-- Two paths that differ, with the same imprint. -/
def former : Path :=
  ofString "/pqrst/u/vx.ts"

/-- The one script of the later disk. -/
def latter : Path :=
  ofString "/p/qrstuv/x.ts"

/-- A project with a cache that was analysed when it had the former file. -/
def haunted : Project :=
  cached.analyze (lone "pqrst" "u" "vx.ts")

/-- The disk with the latter file in place of the former. -/
def later : Disk :=
  lone "p" "qrstuv" "x.ts"

/-- The project is told that the latter file was modified. -/
def toldLatter : Change :=
  ⟨.modified, latter⟩

/-- The later disk is a proper one. -/
theorem proper_later : later.Proper :=
  proper_lone (by decide) (by decide) (by decide)

/-- The project with the other cache is opened at the root. -/
theorem opened_haunted : haunted.Opened := by
  unfold Opened
  rw [haunted, root_analyze]
  exact opened_new _

/-- The latter file is taken for the former, which is gone. -/
theorem contains_former : (haunted.analyze later).graph.contains former = true := by
  decide +kernel

/-- The session follows the change, but an entry of the cache stays in its graph. -/
theorem run_told_haunted :
    (start haunted later).Followed [.change toldLatter] ∧
      ((start haunted later).run [.change toldLatter]).project.graph.nodes ≠
        ((start haunted later).run [.change toldLatter]).reanalysed.graph.nodes := by
  have hroot : haunted.root = slash := root_analyze _ _
  have hscan : later.scan slash = [latter] :=
    scan_of_scripts rfl (by decide +kernel) (List.pairwise_singleton _ _)
  have hlatter : latter ∈ later.scan haunted.root := by
    rw [hroot, hscan]
    exact List.mem_singleton_self latter
  obtain ⟨hsync, hfiles, hanalysed, node, -, hgraph⟩ := run_told haunted later
    (show toldLatter.kind = .modified from rfl) (by decide +kernel) (by decide +kernel) hlatter
    (show later.read latter = .ok _ from rfl)
  refine ⟨⟨hsync, fun f hf => ?_⟩, fun heq => ?_⟩
  · have hpaths : (PathSet.ofList [latter]).paths = [latter] := by decide +kernel
    rw [hfiles.known, show (start haunted later).project.known = _ from known_analyze _ _, hroot,
      hscan, hpaths] at hf
    obtain rfl := List.mem_singleton.1 hf
    exact ⟨[.change toldLatter], [], rfl, hanalysed, undisturbed_nil _ _⟩
  · -- The former file is in the one graph and not in the other.
    have hformer : ((start haunted later).run [.change toldLatter]).project.graph.contains former
        = true := by
      rw [hgraph, contains_addNode, contains_former, Bool.or_true]
    have hnew : ¬((start haunted later).run [.change toldLatter]).reanalysed.graph.contains former
        = true := by
      rw [graph_reanalysed_of_scan (hfiles.root.trans ((root_analyze _ _).trans hroot)) hscan]
      decide +kernel
    rw [Graph.contains, heq] at hformer
    exact hnew hformer

/-- **Where they differ.** A history of which no known file was disturbed since it was last analysed
    can leave another spelling in the edges of the snapshot than a new analysis; and it can leave a
    file that is no longer there in the graph, if the cache took the analysis of this file for that
    of another. -/
theorem incremental_ne_full :
    ((new none).Opened ∧ workspace.Proper ∧ (new none).OwnAnalyses workspace ∧
      (start (new none) workspace).Followed [.change told] ∧
      ∀ lastUpdated,
        ((start (new none) workspace).run [.change told]).project.graph.snapshot lastUpdated ≠
          ((start (new none) workspace).run
            [.change told]).reanalysed.graph.snapshot lastUpdated) ∧
    (haunted.Opened ∧ later.Proper ∧ (start haunted later).Followed [.change toldLatter] ∧
      ((start haunted later).run [.change toldLatter]).project.graph.nodes ≠
        ((start haunted later).run [.change toldLatter]).reanalysed.graph.nodes) :=
  ⟨⟨opened_new none, proper_workspace, ownAnalyses_of_uncached rfl, run_told_workspace⟩,
    opened_haunted, proper_later, run_told_haunted⟩

end Sample

end BlastRadius.Project
