import BlastRadius.Disk.Write
import BlastRadius.Project.Basic
import BlastRadius.Proofs.Tree
import BlastRadius.Proofs.View

namespace BlastRadius.Project

/-!
# A project in use

While a project is in use, files are written and removed on its disk, and it is told of changes.

* `Session`, `Event`, `Session.run` — a project with its disk, what can happen to them, and a
  history.
* `applyChange_cases` — the three things that a change can do.
* `Session.Sound` — what holds at every point of a history (`Session.Sound.run`).
* `Session.UpToDate` — a file stands in the graph as analysing it now would have it. It stays so as
  long as nobody writes to the file and the known files stay (`Session.UpToDate.run`).
-/

open BlastRadius.Graph Disk BlastRadius.Path Resolve

/-! ### Histories -/

/-- A project and the disk that it is on. -/
structure Session where
  project : Project
  disk : Disk

/-- What can happen while a project is in use: something is written to the disk or removed from it,
    or the project is told of a change. -/
inductive Event where
  | write (path : Path) (data : FileData)
  | makeDirectory (path : Path)
  | remove (path : Path)
  | change (change : Change)

namespace Session

/-- The session after an event.  What the disk refuses changes nothing. -/
def step (s : Session) : Event → Session
  | .write path data => { s with disk := (s.disk.writeFile path data).toOption.getD s.disk }
  | .makeDirectory path => { s with disk := (s.disk.makeDirectory path).toOption.getD s.disk }
  | .remove path => { s with disk := s.disk.remove path }
  | .change change => { s with project := (s.project.applyChange s.disk change).1 }

/-- The session after a history. -/
def run (s : Session) (events : List Event) : Session :=
  events.foldl step s

/-- Events can be run in two parts. -/
theorem run_append (s : Session) (before after : List Event) :
    s.run (before ++ after) = (s.run before).run after :=
  List.foldl_append

end Session

/-! ### What a change does -/

variable {p p' : Project} {d : Disk} {path : Path}

/-- `p'` is `p` with a new analysis of a file. -/
structure Revisited (p : Project) (d : Disk) (path : Path) (node : FileNode) (p' : Project) :
    Prop where
  analysis : analyzeFile? d p'.root p'.context path = some node
  root : p'.root = p.root
  aliases : p'.aliases = p.aliases
  known : p'.known = p.known.add path
  graph : p'.graph = p.graph.addNode node
  resolution : p.resolution = p.context.fingerprint → p'.resolution = p'.context.fingerprint
  cache : p'.cache = p.cache.map (Cache.storeIfPresent · d path node p'.resolution)

/-- `p'` is `p` without a file. -/
structure Forgotten (p : Project) (path : Path) (p' : Project) : Prop where
  root : p'.root = p.root
  aliases : p'.aliases = p.aliases
  known : p'.known = p.known.erase path
  graph : p'.graph = p.graph.removeNode path
  resolution : p.resolution = p.context.fingerprint → p'.resolution = p'.context.fingerprint
  cache : p'.cache = p.cache.map (Cache.invalidate · path)

/-- A file without an analysis changes nothing. -/
theorem revisit_none (h : analyzeFile? d p.root ⟨p.aliases, p.known.add path⟩ path = none) :
    p.revisit d path = (p, false) := by
  unfold revisit
  dsimp only
  rw [h]

/-- A file with an analysis is revisited. -/
theorem revisit_some {node : FileNode}
    (h : analyzeFile? d p.root ⟨p.aliases, p.known.add path⟩ path = some node) :
    (p.revisit d path).2 = true ∧ p.Revisited d path node (p.revisit d path).1 := by
  unfold revisit
  dsimp only
  rw [h]
  refine ⟨rfl, ?_⟩
  by_cases hknown : p.known.contains path = true
  · -- The set of known files is kept as it is, and not only up to its members.
    have hadd := PathSet.add_of_contains hknown
    rw [hadd] at h
    rw [hknown]
    exact ⟨h, rfl, rfl, hadd.symm, rfl, id, rfl⟩
  · rw [Bool.eq_false_iff.2 hknown]
    exact ⟨h, rfl, rfl, rfl, rfl, fun _ => rfl, rfl⟩

/-- A forgotten file is known no more. -/
theorem forgotten_forget (p : Project) (path : Path) : p.Forgotten path (p.forget path).1 := by
  unfold forget
  dsimp only
  by_cases hknown : p.known.contains path = true
  · rw [if_pos hknown]
    split
    · exact ⟨rfl, rfl, rfl, rfl, fun _ => rfl, rfl⟩
    · next hgraph => exact ⟨rfl, rfl, rfl, (removeNode_eq_self hgraph).symm, fun _ => rfl, rfl⟩
  · rw [if_neg hknown]
    have herase := (PathMap.erase_of_not_contains hknown).symm
    split
    · exact ⟨rfl, rfl, herase, rfl, id, rfl⟩
    · next hgraph => exact ⟨rfl, rfl, herase, (removeNode_eq_self hgraph).symm, id, rfl⟩

/-- Files that are new and files that were modified are treated alike. -/
theorem applyChange_eq_revisit {c : Change} (hkind : c.kind ≠ .deleted)
    (hadmits : p.admits (p.identity c.path) = true) :
    p.applyChange d c = p.revisit d (p.identity c.path) := by
  unfold applyChange
  dsimp only
  rw [if_pos hadmits]
  cases hc : c.kind with
  | created => rfl
  | modified => rfl
  | deleted => exact absurd hc hkind

/-- A deletion of an admitted file forgets it. -/
theorem applyChange_eq_forget {c : Change} (hkind : c.kind = .deleted)
    (hadmits : p.admits (p.identity c.path) = true) :
    p.applyChange d c = p.forget (p.identity c.path) := by
  unfold applyChange
  dsimp only
  rw [if_pos hadmits, hkind]

/-- The three things that a change can do: nothing, a new analysis of a file, or taking a file
    out. -/
theorem applyChange_cases (p : Project) (d : Disk) (c : Change) :
    p.applyChange d c = (p, false) ∨
    (c.kind ≠ .deleted ∧ (p.applyChange d c).2 = true ∧
      ∃ node, p.Revisited d (p.identity c.path) node (p.applyChange d c).1) ∨
    (c.kind = .deleted ∧ p.Forgotten (p.identity c.path) (p.applyChange d c).1) := by
  by_cases hadmits : p.admits (p.identity c.path) = true
  · by_cases hkind : c.kind = .deleted
    · refine Or.inr (Or.inr ⟨hkind, ?_⟩)
      rw [applyChange_eq_forget hkind hadmits]
      exact forgotten_forget p _
    · rw [applyChange_eq_revisit hkind hadmits]
      cases hanalysis : analyzeFile? d p.root ⟨p.aliases, p.known.add (p.identity c.path)⟩
          (p.identity c.path) with
      | none => exact Or.inl (revisit_none hanalysis)
      | some node =>
        obtain ⟨happlied, hrevisited⟩ := revisit_some hanalysis
        exact Or.inr (Or.inl ⟨hkind, happlied, node, hrevisited⟩)
  · exact Or.inl (if_neg hadmits)

/-! ### What always holds -/

/-- A file is analysed under the path that it was asked for. -/
theorem path_of_analyzeFile? {root : Path} {context : Context} {node : FileNode}
    (h : analyzeFile? d root context path = some node) : node.path = path := by
  obtain ⟨data, -, hnode⟩ := Option.bind_eq_some_iff.1 h
  cases hnode
  rfl

/-- A file that can be read can be analysed. -/
theorem analyzeFile?_of_read {data : FileData} (h : d.read path = .ok data) (root : Path)
    (context : Context) : ∃ node, analyzeFile? d root context path = some node := by
  unfold analyzeFile?
  rw [h]
  exact ⟨_, rfl⟩

/-- A file that is analysed can be read. -/
theorem read_of_analyzeFile? {root : Path} {context : Context} {node : FileNode}
    (h : analyzeFile? d root context path = some node) : ∃ data, d.read path = .ok data := by
  obtain ⟨data, hdata, -⟩ := Option.bind_eq_some_iff.1 h
  cases hread : d.read path with
  | error e =>
    rw [hread] at hdata
    cases hdata
  | ok found => exact ⟨found, rfl⟩

/-- An analysis depends on the disk only through what is read from the file. -/
theorem analyzeFile?_congr {d' : Disk} (h : (d'.read path).toOption = (d.read path).toOption)
    (root : Path) (context : Context) :
    analyzeFile? d' root context path = analyzeFile? d root context path := by
  unfold analyzeFile?
  rw [h]

/-- Identities are canonical. -/
theorem canonical_identity (hroot : p.root.Canonical) (path : Path) :
    (p.identity path).Canonical := by
  unfold identity
  split
  · next habsolute => exact canonical_normalize habsolute
  · exact canonical_normalize (isAbsolute_join hroot.isAbsolute)

/-- Removing a node keeps the root. -/
theorem root_removeNode (g : Graph) (path : Path) : (g.removeNode path).root = g.root := by
  unfold removeNode
  split
  · rfl
  · rfl

/-- The files of a project and of its graph are canonical, the graph is consistent, and only known
    files are analysed. -/
structure Tidy (p : Project) : Prop where
  root : p.root.Canonical
  known : p.known.Canonical
  consistent : p.graph.Consistent
  names : p.graph.CanonicalNames
  analysed_known : ∀ x : Path, p.graph.contains x = true → p.known.contains x = true
  graph_root : p.graph.root = p.root

/-- Revisiting a file keeps a project tidy. -/
theorem Tidy.revisited (h : p.Tidy) {node : FileNode} (hpath : path.Canonical)
    (hp' : p.Revisited d path node p') : p'.Tidy where
  root := by
    rw [hp'.root]
    exact h.root
  known := by
    rw [hp'.known]
    exact h.known.insert hpath ()
  consistent := by
    rw [hp'.graph]
    exact consistent_addNode h.consistent node
  names := by
    rw [hp'.graph]
    exact h.names.addNode (by rwa [path_of_analyzeFile? hp'.analysis])
  analysed_known x hx := by
    rw [hp'.graph, contains_addNode, path_of_analyzeFile? hp'.analysis, Bool.or_eq_true] at hx
    rw [hp'.known, PathSet.contains_add, Bool.or_eq_true]
    exact hx.imp_right (h.analysed_known x)
  graph_root := by
    rw [hp'.graph, root_addNode, h.graph_root, hp'.root]

/-- So does forgetting one. -/
theorem Tidy.forgotten (h : p.Tidy) (hp' : p.Forgotten path p') : p'.Tidy where
  root := by
    rw [hp'.root]
    exact h.root
  known := by
    rw [hp'.known]
    exact h.known.erase path
  consistent := by
    rw [hp'.graph]
    exact consistent_removeNode h.consistent path
  names := by
    rw [hp'.graph]
    exact h.names.removeNode path
  analysed_known x hx := by
    rw [hp'.graph, contains_removeNode, Bool.and_eq_true] at hx
    rw [hp'.known, PathMap.contains_erase, Bool.and_eq_true]
    exact ⟨hx.1, h.analysed_known x hx.2⟩
  graph_root := by
    rw [hp'.graph, root_removeNode, h.graph_root, hp'.root]

/-- So does every change. -/
theorem Tidy.applyChange (h : p.Tidy) (d : Disk) (c : Change) : (p.applyChange d c).1.Tidy := by
  rcases applyChange_cases p d c with hnothing | ⟨-, -, node, hrevisited⟩ | ⟨-, hforgotten⟩
  · rw [hnothing]
    exact h
  · exact h.revisited (canonical_identity h.root c.path) hrevisited
  · exact h.forgotten hforgotten

namespace Session

variable {s : Session} {f : Path}

/-- A tidy project on a proper disk. -/
structure Sound (s : Session) : Prop where
  tidy : s.project.Tidy
  proper : s.disk.Proper

/-- What is written to a disk is written, or else the disk stays as it is. -/
theorem holds_getD {P : Disk → Prop} {r : Except DiskError Disk} (hd : P d)
    (hr : ∀ d', r = .ok d' → P d') : P (r.toOption.getD d) := by
  cases r with
  | error e => exact hd
  | ok d' => exact hr d' rfl

/-- Every event keeps a session sound. -/
theorem Sound.step (h : s.Sound) (e : Event) : (s.step e).Sound := by
  cases e with
  | write path data => exact ⟨h.tidy, holds_getD h.proper fun d' => h.proper.writeFile⟩
  | makeDirectory path => exact ⟨h.tidy, holds_getD h.proper fun d' => h.proper.makeDirectory⟩
  | remove path => exact ⟨h.tidy, h.proper.remove path⟩
  | change c => exact ⟨h.tidy.applyChange s.disk c, h.proper⟩

/-- So do all of them. -/
theorem Sound.run (h : s.Sound) (events : List Event) : (s.run events).Sound := by
  induction events generalizing s with
  | nil => exact h
  | cons e events ih => exact ih (h.step e)

/-! ### Files that are up to date -/

/-- What analysing a file now gives. -/
def analysis? (s : Session) (f : Path) : Option FileNode :=
  analyzeFile? s.disk s.project.root s.project.context f

/-- A file stands in the graph as analysing it now would have it, with all its imports. -/
def UpToDate (s : Session) (f : Path) : Prop :=
  ∃ node, s.analysis? f = some node ∧ s.project.graph.nodes.get? f = some node ∧
    s.project.graph.Full f

/-- A file that was just analysed is up to date. -/
theorem upToDate_of_revisited {node : FileNode} (h : p.Revisited d path node p') :
    UpToDate ⟨p', d⟩ path := by
  have hsame : node.path.Same path := by
    rw [path_of_analyzeFile? h.analysis]
    exact Same.refl path
  refine ⟨node, h.analysis, ?_, ?_⟩
  · show p'.graph.nodes.get? path = some node
    rw [h.graph, nodes_addNode, PathMap.get?_insert, if_pos hsame]
  · show p'.graph.Full path
    rw [h.graph]
    exact full_addNode_self p.graph node hsame

/-- A change that leaves the known files leaves every file up to date that was. -/
theorem UpToDate.applyChange (h : s.UpToDate f) (hs : s.Sound) (hf : f.Canonical) {c : Change}
    (hknown : ∀ x : Path,
      (s.step (.change c)).project.known.contains x = s.project.known.contains x) :
    (s.step (.change c)).UpToDate f := by
  obtain ⟨p, d⟩ := s
  have hsound := hs.step (.change c)
  change ∀ x : Path, (p.applyChange d c).1.known.contains x = p.known.contains x at hknown
  -- The context of the analysis holds the set itself, so that equal members are not enough.
  have hset : (p.applyChange d c).1.known = p.known :=
    PathSet.ext_contains hsound.tidy.known hs.tidy.known hknown
  show UpToDate ⟨(p.applyChange d c).1, d⟩ f
  rcases applyChange_cases p d c with hnothing | ⟨-, -, node, hrevisited⟩ | ⟨-, hforgotten⟩
  · rw [hnothing]
    exact h
  · by_cases hsame : (p.identity c.path).Same f
    · -- The file itself was analysed again.
      obtain rfl := (canonical_identity hs.tidy.root c.path).eq_of_same hf hsame
      exact upToDate_of_revisited hrevisited
    · -- Another file was analysed again, which leaves the imports of this one.
      have hpath := path_of_analyzeFile? hrevisited.analysis
      obtain ⟨old, hold, hget, hfull⟩ := h
      refine ⟨old, ?_, ?_, ?_⟩
      · show analyzeFile? d (p.applyChange d c).1.root ⟨(p.applyChange d c).1.aliases, _⟩ f
            = some old
        rw [hset, hrevisited.root, hrevisited.aliases]
        exact hold
      · show (p.applyChange d c).1.graph.nodes.get? f = some old
        rw [hrevisited.graph, nodes_addNode, PathMap.get?_insert, hpath, if_neg hsame]
        exact hget
      · show (p.applyChange d c).1.graph.Full f
        rw [hrevisited.graph]
        exact hfull.addNode node
  · -- A file that was taken out was not known, so it was not in the graph either.
    have hnot : ¬p.graph.contains (p.identity c.path) = true := by
      intro hcontains
      have hmember := hs.tidy.analysed_known _ hcontains
      rw [← hknown, hforgotten.known, PathMap.contains_erase] at hmember
      simp [Same.refl] at hmember
    obtain ⟨old, hold, hget, hfull⟩ := h
    refine ⟨old, ?_, ?_, ?_⟩
    · show analyzeFile? d (p.applyChange d c).1.root ⟨(p.applyChange d c).1.aliases, _⟩ f = some old
      rw [hset, hforgotten.root, hforgotten.aliases]
      exact hold
    · show (p.applyChange d c).1.graph.nodes.get? f = some old
      rw [hforgotten.graph, removeNode_eq_self hnot]
      exact hget
    · show (p.applyChange d c).1.graph.Full f
      rw [hforgotten.graph, removeNode_eq_self hnot]
      exact hfull

/-- Writing to the disk leaves a file up to date that is read as before. -/
theorem UpToDate.disk (h : s.UpToDate f) {d' : Disk}
    (hread : (d'.read f).toOption = (s.disk.read f).toOption) : UpToDate ⟨s.project, d'⟩ f := by
  obtain ⟨node, hnode, hget, hfull⟩ := h
  refine ⟨node, ?_, hget, hfull⟩
  show analyzeFile? d' s.project.root s.project.context f = some node
  rw [analyzeFile?_congr hread]
  exact hnode

/-- **One event.** A file stays up to date if it is read as before and the known files stay. -/
theorem UpToDate.step (h : s.UpToDate f) (hs : s.Sound) (hf : f.Canonical) {e : Event}
    (hread : (s.step e).disk.read f = s.disk.read f)
    (hknown : ∀ x : Path, (s.step e).project.known.contains x = s.project.known.contains x) :
    (s.step e).UpToDate f := by
  cases e with
  | write path data => exact h.disk (congrArg Except.toOption hread)
  | makeDirectory path => exact h.disk (congrArg Except.toOption hread)
  | remove path => exact h.disk (congrArg Except.toOption hread)
  | change c => exact h.applyChange hs hf hknown

/-- A file is read as before and the known files are the same at every point of a history. -/
def Undisturbed (s : Session) (f : Path) (events : List Event) : Prop :=
  ∀ front, front <+: events →
    (s.run front).disk.read f = s.disk.read f ∧
    ∀ x : Path, (s.run front).project.known.contains x = s.project.known.contains x

/-- Nothing disturbs where nothing happens. -/
theorem undisturbed_nil (s : Session) (f : Path) : s.Undisturbed f [] := by
  intro front hfront
  obtain rfl := List.prefix_nil.1 hfront
  exact ⟨rfl, fun _ => rfl⟩

/-- What is not disturbed by all events is not by the later ones. -/
theorem Undisturbed.tail {e : Event} {events : List Event} (h : s.Undisturbed f (e :: events)) :
    (s.step e).Undisturbed f events := by
  obtain ⟨hread, hknown⟩ := h [e] (by simp)
  intro front hfront
  obtain ⟨hread', hknown'⟩ := h (e :: front) (List.cons_prefix_cons.2 ⟨rfl, hfront⟩)
  exact ⟨hread'.trans hread.symm, fun x => (hknown' x).trans (hknown x).symm⟩

/-- **A history.** A file stays up to date as long as it is not disturbed. -/
theorem UpToDate.run (h : s.UpToDate f) (hs : s.Sound) (hf : f.Canonical) {events : List Event}
    (hevents : s.Undisturbed f events) : (s.run events).UpToDate f := by
  -- The condition is on every front of the history, so that it carries over to the rest of it.
  induction events generalizing s with
  | nil => exact h
  | cons e events ih =>
    obtain ⟨hread, hknown⟩ := hevents [e] (by simp)
    exact ih (h.step hs hf hread hknown) (hs.step e) hevents.tail

end Session

end BlastRadius.Project
