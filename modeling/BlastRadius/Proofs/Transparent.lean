import BlastRadius.Proofs.Determined
import BlastRadius.Proofs.Incremental
import BlastRadius.Proofs.Unambiguous
import Mathlib.Data.List.Infix

namespace BlastRadius.Project

/-!
# A cache changes nothing

Analyses are kept under the paths of their files, with the stamps of the files and with a
fingerprint of what they were resolved against. They outlive the project that made them. As long as
stamps, fingerprints and imprints tell apart what they stand for, an analysis of all the files gives
the same with a cache as without.

* `Act`, `Moment`, `Moment.run` — a project in use that may also be analysed again and opened again.
* `Reliable` — what is asked of stamps, fingerprints and imprints over a history.
* `Session.MadeFrom`, `Origin` — every analysis in a cache was made at some point of the history.
* `Moment.Founded` — what holds at every point of a history (`Moment.Founded.run`).
* `cache_transparent` — the theorem.
-/

open BlastRadius.Graph Disk BlastRadius.Path Resolve

/-! ### Histories -/

/-- What can happen to a project in use: what can happen between two analyses, an analysis of all
    the files, or that it is closed and opened again at the same root with the same cache
    directory. -/
inductive Act where
  | event (e : Event)
  | analyze
  | reopen (config : Config)

/-- A project on its disk, and what is in the cache directory while the project does not use it. -/
structure Moment where
  session : Session
  shelved : Option (CacheStore Fingerprint)

namespace Moment

/-- What is in the cache directory. -/
def store (m : Moment) : Option (CacheStore Fingerprint) :=
  match m.session.project.cache with
  | some c => c.disk
  | none => m.shelved

/-- The moment after an act.  A project that cannot be opened again stays as it is. -/
def step (m : Moment) : Act → Moment
  | .event e => { m with session := m.session.step e }
  | .analyze => { m with session := .start m.session.project m.session.disk }
  | .reopen config =>
    match openAt m.session.disk m.session.project.root config m.store with
    | .ok p => ⟨⟨p, m.session.disk⟩, m.store⟩
    | .error _ => m

/-- The moment after a history. -/
def run (m : Moment) (acts : List Act) : Moment :=
  acts.foldl step m

/-- The last act is run last. -/
theorem run_concat (m : Moment) (acts : List Act) (a : Act) :
    m.run (acts ++ [a]) = (m.run acts).step a :=
  List.foldl_concat step m a acts

/-- A session that there was at some point of a history. -/
def Past (m : Moment) (acts : List Act) (s : Session) : Prop :=
  ∃ front, front <+: acts ∧ (m.run front).session = s

/-- The present belongs to the past too. -/
theorem past_self (m : Moment) (acts : List Act) : m.Past acts (m.run acts).session :=
  ⟨acts, List.prefix_rfl, rfl⟩

/-- What was past stays past. -/
theorem past_concat {m : Moment} {acts : List Act} {a : Act} {s : Session} (h : m.Past acts s) :
    m.Past (acts ++ [a]) s := by
  obtain ⟨front, hfront, rfl⟩ := h
  exact ⟨front, hfront.trans (List.prefix_append _ _), rfl⟩

end Moment

/-- What tells things apart does so among the sessions of a history: contents of one path are told
    apart by their stamps, what is resolved against by fingerprints, and known files by the imprints
    of their paths. -/
structure Reliable (past : Session → Prop) : Prop where
  stamps : ∀ s s', past s → past s' → ∀ f data data', s.disk.read f = .ok data →
    s'.disk.read f = .ok data' → stampOf data = stampOf data' → data = data'
  fingerprints : ∀ s s', past s → past s' →
    s.project.context.fingerprint = s'.project.context.fingerprint →
    s.project.aliases = s'.project.aliases ∧
      ∀ x : Path, s.project.known.contains x = s'.project.known.contains x
  imprints : ∀ s s', past s → past s' → ∀ f f' : Path, s.project.known.contains f = true →
    s'.project.known.contains f' = true → f.imprint = f'.imprint → f.Same f'

/-! ### Where the analyses in a cache come from -/

/-- An analysis is that of a known file as it is now. -/
structure Session.MadeFrom (s : Session) (f : Path) (entry : CacheEntry Fingerprint) : Prop where
  canonical : f.Canonical
  known : s.project.known.contains f = true
  node : s.analysis? f = some entry.node
  stamp : s.disk.stamp f = .ok entry.stamp
  resolution : entry.resolution = s.project.context.fingerprint

/-- An analysis was made in the past, of a file with the same imprint. -/
def Origin (past : Session → Prop) (x : Path) (entry : CacheEntry Fingerprint) : Prop :=
  ∃ s f, past s ∧ f.imprint = x.imprint ∧ s.MadeFrom f entry

variable {past past' : Session → Prop} {root f x : Path} {entry : CacheEntry Fingerprint}
  {s : Session} {m : Moment}

/-- A longer past has all origins of a shorter one. -/
theorem Origin.mono (h : Origin past x entry) (himp : ∀ s, past s → past' s) :
    Origin past' x entry := by
  obtain ⟨s, f, hs, himprint, hmade⟩ := h
  exact ⟨s, f, himp s hs, himprint, hmade⟩

/-- An origin does not hang on the spelling. -/
theorem Origin.congr (h : Origin past x entry) {y : Path} (hsame : y.Same x) :
    Origin past y entry := by
  obtain ⟨s, f, hs, himprint, hmade⟩ := h
  exact ⟨s, f, hs, himprint.trans (imprint_eq_of_same hsame).symm, hmade⟩

/-- The known files are canonical, the fingerprint is theirs, and the disk is one on which paths can
    be trusted. -/
structure Session.Firm (s : Session) (root : Path) : Prop where
  root : s.project.root = root
  known : s.project.known.Canonical
  resolution : s.project.resolution = s.project.context.fingerprint
  proper : s.disk.Proper
  unambiguous : s.disk.Unambiguous

/-! ### What always holds -/

namespace Session

/-- A proper and unambiguous disk keeps a session firm. -/
theorem Firm.onDisk (h : s.Firm root) {d : Disk} (hproper : d.Proper)
    (hunambiguous : d.Unambiguous) : Firm ⟨s.project, d⟩ root :=
  ⟨h.root, h.known, h.resolution, hproper, hunambiguous⟩

/-- A change keeps a session firm. -/
theorem Firm.change (h : s.Firm root) (hroot : root.Canonical) (c : Change) :
    (s.step (.change c)).Firm root := by
  obtain ⟨p, d⟩ := s
  show Firm ⟨(p.applyChange d c).1, d⟩ root
  rcases applyChange_cases p d c with hnothing | ⟨-, -, node, hrevisited⟩ | ⟨-, hforgotten⟩
  · rw [hnothing]
    exact h
  · refine ⟨hrevisited.root.trans h.root, ?_, hrevisited.resolution h.resolution,
      h.proper, h.unambiguous⟩
    show PathMap.Canonical (p.applyChange d c).1.known
    rw [hrevisited.known]
    exact h.known.insert (canonical_identity (show p.root.Canonical from h.root ▸ hroot) c.path) ()
  · refine ⟨hforgotten.root.trans h.root, ?_, hforgotten.resolution h.resolution,
      h.proper, h.unambiguous⟩
    show PathMap.Canonical (p.applyChange d c).1.known
    rw [hforgotten.known]
    exact h.known.erase _

/-- So does every event. -/
theorem Firm.event (h : s.Firm root) (hroot : root.Canonical) (e : Event) :
    (s.step e).Firm root := by
  cases e with
  | write path data =>
    exact holds_getD (P := fun d => Firm ⟨s.project, d⟩ root) h fun d' hd' =>
      h.onDisk (h.proper.writeFile hd') (h.unambiguous.writeFile hd')
  | makeDirectory path =>
    exact holds_getD (P := fun d => Firm ⟨s.project, d⟩ root) h fun d' hd' =>
      h.onDisk (h.proper.makeDirectory hd') (h.unambiguous.makeDirectory hd')
  | remove path => exact h.onDisk (h.proper.remove path) (h.unambiguous.remove path)
  | change c => exact h.change hroot c

/-- So does an analysis. -/
theorem Firm.start (h : s.Firm root) (hroot : root.Canonical) :
    (start s.project s.disk).Firm root where
  root := (root_analyze s.project s.disk).trans h.root
  known := by
    show PathMap.Canonical (s.project.analyze s.disk).known
    rw [known_analyze]
    have hroot : s.project.root.Canonical := by rwa [h.root]
    exact PathSet.canonical_ofList fun f hf => canonical_of_mem_scan h.proper hroot hf
  resolution := by
    show (s.project.analyze s.disk).resolution = (s.project.analyze s.disk).context.fingerprint
    rw [context_analyze, analyze_eq]
    rfl
  proper := h.proper
  unambiguous := h.unambiguous

/-- A new analysis comes from the session after it. -/
theorem madeFrom_revisited {p p' : Project} {d : Disk} {node : FileNode} (hf : f.Canonical)
    (h : p.Revisited d f node p') (hresolution : p'.resolution = p'.context.fingerprint)
    {stamp : Stamp} (hstamp : d.stamp f = .ok stamp) :
    MadeFrom ⟨p', d⟩ f ⟨node, stamp, p'.resolution⟩ where
  canonical := hf
  known := by
    show p'.known.contains f = true
    rw [h.known, PathSet.contains_add]
    simp [Same.refl]
  node := h.analysis
  stamp := hstamp
  resolution := hresolution

/-- A new analysis of a scanned file comes from the session after the analysis of all the files. -/
theorem madeFrom_start {p : Project} {d : Disk} {node : FileNode} (hroot : p.root.Canonical)
    (hd : d.Proper) (hf : f ∈ d.scan p.root)
    (hnode : analyzeFile? d p.root (p.prepared d).context f = some node) {stamp : Stamp}
    (hstamp : d.stamp f = .ok stamp) :
    (start p d).MadeFrom f ⟨node, stamp, (p.prepared d).resolution⟩ where
  canonical := canonical_of_mem_scan hd hroot hf
  known := by
    show (p.analyze d).known.contains f = true
    rw [known_analyze, PathSet.contains_ofList]
    exact listed_of_mem hf
  node := by
    show analyzeFile? d (p.analyze d).root (p.analyze d).context f = some node
    rw [root_analyze, context_analyze]
    exact hnode
  stamp := hstamp
  resolution := by
    show (p.prepared d).resolution = (p.analyze d).context.fingerprint
    rw [context_analyze]
    rfl

end Session

/-- Opening gives the project at the canonical root, with the cache if it is used. -/
theorem openAt_eq_ok {d : Disk} {path : Path} {config : Config}
    {store : Option (CacheStore Fingerprint)} {p : Project}
    (h : openAt d path config store = .ok p) : ∃ place, d.canonical path = .ok place ∧
      p = atRoot place config (if config.useCache then some (Cache.ofStore store) else none) := by
  unfold openAt at h
  cases hcanonical : d.canonical path with
  | error e =>
    rw [hcanonical] at h
    cases h
  | ok place =>
    rw [hcanonical] at h
    cases h
    exact ⟨place, rfl, rfl⟩

/-- A canonical path is found under itself. -/
theorem eq_of_canonical {d : Disk} {place : Path} (hroot : root.Canonical)
    (h : d.canonical root = .ok place) : place = root := by
  obtain ⟨names, hnames, rfl⟩ := hroot
  unfold Disk.canonical at h
  obtain ⟨⟨⟩, -, h⟩ := bind_eq_ok.1 h
  obtain ⟨there, hthere, hplace⟩ := bind_eq_ok.1 h
  rw [← walk_pathOf hnames hthere]
  exact (Except.ok.inj hplace).symm

namespace Moment

open Session

/-- The session is firm, and every analysis that is kept was made in the past. -/
structure Founded (past : Session → Prop) (root : Path) (m : Moment) : Prop where
  firm : m.session.Firm root
  cache : ∀ c, m.session.project.cache = some c → c.Every (Origin past)
  shelved : ∀ store, m.shelved = some store → ∀ x entry, store.get? x = some entry →
    Origin past x entry

/-- A longer past founds what a shorter one does. -/
theorem Founded.mono (h : m.Founded past root) (himp : ∀ s, past s → past' s) :
    m.Founded past' root where
  firm := h.firm
  cache c hc := (h.cache c hc).mono fun _ _ horigin => horigin.mono himp
  shelved store hstore x entry hentry := (h.shelved store hstore x entry hentry).mono himp

/-- Every analysis in the cache directory was made in the past. -/
theorem Founded.store (h : m.Founded past root) :
    ∀ store, m.store = some store → ∀ x entry, store.get? x = some entry → Origin past x entry := by
  unfold Moment.store
  split
  · next c hc => exact (h.cache c hc).disk
  · exact h.shelved

/-- A change keeps an analysis that was just made, or takes one out. -/
theorem Founded.change (h : m.Founded past root) (hroot : root.Canonical) (c : Change)
    (hpast : past (m.step (.event (.change c))).session) :
    (m.step (.event (.change c))).Founded past root := by
  refine ⟨h.firm.change hroot c, fun cache hcache => ?_, h.shelved⟩
  obtain ⟨⟨p, d⟩, shelved⟩ := m
  have hfirm := h.firm.change hroot c
  change past ⟨(p.applyChange d c).1, d⟩ at hpast
  change (p.applyChange d c).1.cache = some cache at hcache
  -- The cache is as it was, has one entry more, or one less.
  rcases applyChange_cases p d c with hnothing | ⟨-, -, node, hrevisited⟩ | ⟨-, hforgotten⟩
  · rw [hnothing] at hcache
    exact h.cache cache hcache
  · rw [hrevisited.cache] at hcache
    obtain ⟨old, hold, rfl⟩ := Option.map_eq_some_iff.1 hcache
    refine (h.cache old hold).storeIfPresent d fun stamp hstamp x himprint => ?_
    have hidentity := canonical_identity (show p.root.Canonical from h.firm.root ▸ hroot) c.path
    exact ⟨_, _, hpast, himprint.symm,
      madeFrom_revisited hidentity hrevisited hfirm.resolution hstamp⟩
  · rw [hforgotten.cache] at hcache
    obtain ⟨old, hold, rfl⟩ := Option.map_eq_some_iff.1 hcache
    exact (h.cache old hold).invalidate _

/-- What an analysis of all the files asks of a file. -/
theorem Founded.welcome (h : m.Founded past root) (hroot : root.Canonical)
    (hpast : past (m.step .analyze).session) (hf : f ∈ m.session.disk.scan m.session.project.root) :
    Welcome (Origin past) m.session.disk m.session.project.root
      (m.session.project.prepared m.session.disk).context
      (m.session.project.prepared m.session.disk).resolution f where
  spelled entry horigin x hsame := horigin.congr hsame
  analysed node stamp hnode hstamp x himprint :=
    ⟨_, f, hpast, himprint.symm,
      madeFrom_start (by rwa [h.firm.root]) h.firm.proper hf hnode hstamp⟩

/-- An analysis keeps a moment founded. -/
theorem Founded.analyze (h : m.Founded past root) (hroot : root.Canonical)
    (hpast : past (m.step .analyze).session) : (m.step .analyze).Founded past root := by
  refine ⟨h.firm.start hroot, fun cache hcache => ?_, h.shelved⟩
  change (m.session.project.analyze m.session.disk).cache = some cache at hcache
  rw [analyze_eq] at hcache
  change (m.session.project.outcome m.session.disk).2 = some cache at hcache
  unfold outcome at hcache
  cases hold : m.session.project.cache with
  | none =>
    rw [hold] at hcache
    cases hcache
  | some old =>
    rw [hold] at hcache
    cases hcache
    exact (analyzeAllCached_every (h.cache old hold) fun f hf => h.welcome hroot hpast hf).2

/-- A project that was just opened, with a cache directory that holds what was made in the past. -/
theorem founded_atRoot {d : Disk} (hproper : d.Proper) (hunambiguous : d.Unambiguous)
    (config : Config) {store : Option (CacheStore Fingerprint)}
    (hstore : ∀ s, store = some s → ∀ x entry, s.get? x = some entry → Origin past x entry) :
    Founded past root
      ⟨⟨atRoot root config (if config.useCache then some (Cache.ofStore store) else none), d⟩,
        store⟩ where
  firm := ⟨rfl, PathMap.canonical_empty, rfl, hproper, hunambiguous⟩
  cache c hc := by
    change (if config.useCache then some (Cache.ofStore store) else none) = some c at hc
    split at hc
    · cases hc
      exact Cache.every_ofStore hstore
    · cases hc
  shelved := hstore

/-- A project that is opened with an empty cache directory. -/
theorem founded_openAt {d : Disk} (hproper : d.Proper) (hunambiguous : d.Unambiguous) {path : Path}
    {config : Config} {store : Option (CacheStore Fingerprint)}
    (hstore : ∀ s, store = some s → s = .empty) {p : Project}
    (hopen : openAt d path config store = .ok p) :
    ∃ place : Path, place.Canonical ∧ ∀ past, Founded past place ⟨⟨p, d⟩, store⟩ := by
  obtain ⟨place, hplace, rfl⟩ := openAt_eq_ok hopen
  have hopened : (atRoot place config none).Opened := ⟨d, path, hproper, hplace⟩
  refine ⟨place, hopened.canonical,
    fun past => founded_atRoot hproper hunambiguous config fun s hs x entry h => ?_⟩
  rw [hstore s hs, CacheStore.get?_empty] at h
  cases h

/-- **One act.** What is kept stays founded in a past that the session after it belongs to. -/
theorem Founded.step (h : m.Founded past root) (hroot : root.Canonical) (a : Act)
    (hpast : past (m.step a).session) : (m.step a).Founded past root := by
  cases a with
  | event e =>
    -- Only a change touches the cache, the other events write to the disk.
    cases e with
    | change c => exact h.change hroot c hpast
    | write path data => exact ⟨h.firm.event hroot (.write path data), h.cache, h.shelved⟩
    | makeDirectory path => exact ⟨h.firm.event hroot (.makeDirectory path), h.cache, h.shelved⟩
    | remove path => exact ⟨h.firm.event hroot (.remove path), h.cache, h.shelved⟩
  | analyze => exact h.analyze hroot hpast
  | reopen config =>
    unfold Moment.step
    dsimp only
    split
    · next p hopen =>
      obtain ⟨place, hplace, rfl⟩ := openAt_eq_ok hopen
      rw [h.firm.root] at hplace
      rw [eq_of_canonical hroot hplace]
      exact founded_atRoot h.firm.proper h.firm.unambiguous config h.store
    · exact h

/-- **A history.** Every analysis that is kept was made at some point of it. -/
theorem Founded.run (h : m.Founded (m.Past []) root) (hroot : root.Canonical) (acts : List Act) :
    (m.run acts).Founded (m.Past acts) root := by
  induction acts using List.reverseRecOn with
  | nil => exact h
  | append_singleton acts a ih =>
    rw [run_concat]
    refine (ih.mono fun s => past_concat).step hroot a ?_
    rw [← run_concat]
    exact past_self m (acts ++ [a])

end Moment

/-! ### Analyses that still hold are right -/

/-- If what tells things apart can be relied on, an analysis of the past that still holds is the one
    that analysing the file gives now. -/
theorem Origin.right (h : Origin past f entry) (hreliable : Reliable past)
    (hfirm : ∀ s, past s → s.Firm root) (hroot : root.Canonical) {p : Project} {d : Disk}
    (hpast : past (.start p d)) (hf : f ∈ d.scan p.root)
    (hholds : Holds d (p.prepared d).resolution f entry) :
    analyzeFile? d p.root (p.prepared d).context f = some entry.node := by
  obtain ⟨s, made, hs, himprint, hmade⟩ := h
  obtain ⟨hstamp, hresolution⟩ := hholds
  have hnow := hfirm _ hpast
  have hrootNow : p.root = root := (root_analyze p d).symm.trans hnow.root
  have hproot : p.root.Canonical := by rwa [hrootNow]
  -- It is an analysis of this file and no other.
  have hknown : (Session.start p d).project.known.contains f = true := by
    show (p.analyze d).known.contains f = true
    rw [known_analyze, PathSet.contains_ofList]
    exact listed_of_mem hf
  obtain rfl := hmade.canonical.eq_of_same (canonical_of_mem_scan hnow.proper hproot hf)
    (hreliable.imprints s _ hs hpast made f hmade.known hknown himprint)
  -- It was resolved against what is resolved against now.
  have hcontext : s.project.context = (p.prepared d).context := by
    have hfingerprint : s.project.context.fingerprint
        = (Session.start p d).project.context.fingerprint := by
      rw [← hmade.resolution, hresolution, ← hnow.resolution]
      show _ = (p.analyze d).resolution
      rw [analyze_eq]
    obtain ⟨haliases, hsame⟩ := hreliable.fingerprints s _ hs hpast hfingerprint
    rw [← context_analyze, context, context, haliases,
      PathSet.ext_contains (hfirm s hs).known hnow.known hsame]
    rfl
  -- And what was read is what is read now.
  have hread : (d.read made).toOption = (s.disk.read made).toOption := by
    obtain ⟨data, hdata, hstampNow⟩ := hnow.unambiguous.read_of_stamp hnow.proper hproot hf hstamp
    obtain ⟨old, hold⟩ := read_of_analyzeFile? hmade.node
    have hstampThen := Except.ok.inj ((stamp_of_read hold).symm.trans hmade.stamp)
    rw [hold, show d.read made = .ok data from hdata]
    rw [hreliable.stamps s _ hs hpast made old data hold hdata (hstampThen.trans hstampNow)]
  rw [analyzeFile?_congr hread, ← hcontext, hrootNow, ← (hfirm s hs).root]
  exact hmade.node

/-- An analysis of all the files gives the graph of a new project without a cache, if the past can
    be relied on. -/
theorem Moment.Founded.graph_analyze (h : m.Founded past root) (hroot : root.Canonical)
    (hreliable : Reliable past) (hfirm : ∀ s, past s → s.Firm root)
    (hpast : past (m.step .analyze).session) :
    (m.step .analyze).session.project.graph = (m.step .analyze).session.reanalysed.graph := by
  obtain ⟨⟨p, d⟩, shelved⟩ := m
  have houtcome : (p.outcome d).1
      = (d.scan p.root).filterMap (analyzeFile? d p.root (p.prepared d).context) := by
    cases hcache : p.cache with
    | none => rw [outcome_of_uncached hcache, context_analyze]
    | some c =>
      rw [outcome, hcache]
      exact analyzeAllCached_eq (h.cache c hcache) (fun f hf => h.welcome hroot hpast hf)
        fun f hf entry horigin hholds => horigin.right hreliable hfirm hroot hpast hf hholds
  show (p.analyze d).graph = (Session.start p d).reanalysed.graph
  rw [Project.graph_analyze, houtcome, Session.graph_reanalysed_of_scan (root_analyze p d) rfl]
  rfl

/-- **A cache changes nothing.** A project is opened with a cache directory that is empty, and goes
    through a history in which files are written and removed, changes are applied, all the files are
    analysed, and the project is opened again on the same directory. If stamps, fingerprints and
    imprints can be relied on over this history, the analysis of all the files that follows gives
    the graph of a new project without a cache. -/
theorem cache_transparent (d : Disk) (hproper : d.Proper) (hunambiguous : d.Unambiguous)
    (root : Path) (config : Config) (store : Option (CacheStore Fingerprint))
    (hstore : ∀ s, store = some s → s = .empty) (p : Project)
    (hopen : openAt d root config store = .ok p) (acts : List Act)
    (hreliable : Reliable (Moment.Past ⟨⟨p, d⟩, store⟩ (acts ++ [.analyze]))) :
    (Moment.run ⟨⟨p, d⟩, store⟩ (acts ++ [.analyze])).session.project.graph
      = (Moment.run ⟨⟨p, d⟩, store⟩ (acts ++ [.analyze])).session.reanalysed.graph := by
  obtain ⟨place, hroot, hfounded⟩ := Moment.founded_openAt hproper hunambiguous hstore hopen
  generalize (⟨⟨p, d⟩, store⟩ : Moment) = m at hfounded hreliable ⊢
  have hrun : ∀ front, (m.run front).Founded (m.Past front) place :=
    (hfounded (m.Past [])).run hroot
  have hfirm : ∀ s, m.Past (acts ++ [.analyze]) s → s.Firm place := by
    rintro s ⟨front, -, rfl⟩
    exact (hrun front).firm
  have hpast := m.past_self (acts ++ [.analyze])
  rw [m.run_concat] at hpast ⊢
  exact ((hrun acts).mono fun s => Moment.past_concat).graph_analyze hroot hreliable hfirm hpast

namespace Sample

/-! #### A project that grows -/

/-- The file that imports. -/
def importer : Path :=
  ofString "/a.ts"

/-- The file that is imported, and is not there at first. -/
def imported : Path :=
  ofString "/b.ts"

/-- A file that imports another, which is not there yet. -/
def growing : Disk where
  top := .directory [("a.ts", plain "import './b'")]
  workdir := []

/-- The other file, which imports the first. -/
def addition : FileData :=
  ⟨Text.utf8 "import './a'".toList, 1⟩

/-- The disk with both files. -/
def grown : Disk where
  top := .directory [("a.ts", plain "import './b'"), ("b.ts", .file addition)]
  workdir := []

/-- The disk is a proper one. -/
theorem proper_growing : growing.Proper :=
  ⟨.directory (by decide) (by simp [plain, Entry.Proper.file]), rfl⟩

/-- It is unambiguous. -/
theorem unambiguous_growing : growing.Unambiguous :=
  .directory (by decide) (by simp [plain, Entry.Unambiguous.file])

/-- At first a scan finds one file. -/
theorem scan_growing : growing.scan slash = [importer] :=
  scan_of_scripts rfl (by decide +kernel) (by decide +kernel)

/-- Later it finds both. -/
theorem scan_grown : grown.scan slash = [importer, imported] :=
  scan_of_scripts rfl (by decide +kernel) (by decide +kernel)

/-- A project at the top of the disk without aliases that knows some files. -/
structure Knows (p : Project) (files : List Path) : Prop where
  root : p.root = slash
  aliases : p.aliases = .bare slash
  known : p.known.paths = files

/-- An analysis knows what a scan finds. -/
theorem knows_analyze {p : Project} {d : Disk} {files : List Path} (hroot : p.root = slash)
    (haliases : loadAliases d slash = .bare slash) (hscan : d.scan slash = files)
    (hpaths : (PathSet.ofList files).paths = files) : Knows (p.analyze d) files where
  root := (root_analyze p d).trans hroot
  aliases := by rw [aliases_analyze, hroot, haliases]
  known := by rw [known_analyze, hroot, hscan, hpaths]

/-- The project is opened with an empty cache directory and analysed. -/
def opening : Moment :=
  ⟨⟨cached, growing⟩, some .empty⟩

/-- After the first analysis. -/
def analysed : Moment :=
  opening.step .analyze

/-- The other file is written. -/
def written : Moment :=
  analysed.step (.event (.write imported addition))

/-- The project is told of it. -/
def informed : Moment :=
  written.step (.event (.change ⟨.created, ofString "b.ts"⟩))

/-- The project is opened again. -/
def reopened : Moment :=
  informed.step (.reopen {})

/-- All of this in a row. -/
def growth : List Act :=
  [.analyze, .event (.write imported addition),
    .event (.change ⟨.created, ofString "b.ts"⟩), .reopen {}]

/-- The cached project is opened on the disk. -/
theorem openAt_growing : openAt growing slash {} (some .empty) = .ok cached := rfl

/-- Before an analysis nothing is known. -/
theorem knows_opening : Knows opening.session.project [] :=
  ⟨rfl, rfl, by decide +kernel⟩

/-- After it one file is known. -/
theorem knows_analysed : Knows analysed.session.project [importer] :=
  knows_analyze rfl (by decide +kernel) scan_growing (by decide +kernel)

/-- After the change both files are known. -/
theorem knows_informed : Knows informed.session.project [importer, imported] := by
  have hroot : written.session.project.root = slash := knows_analysed.root
  have hidentity : written.session.project.identity (ofString "b.ts") = imported := by
    rw [identity, hroot]
    decide +kernel
  have hadmits : written.session.project.admits imported = true := by
    rw [admits, hroot]
    decide +kernel
  obtain ⟨node, hnode⟩ := analyzeFile?_of_read (show grown.read imported = .ok addition from rfl)
    written.session.project.root
      ⟨written.session.project.aliases, written.session.project.known.add imported⟩
  obtain ⟨-, hrevisited⟩ := revisit_some hnode
  -- The change is about the new file, under another spelling.
  have happly : informed.session.project = (written.session.project.revisit grown imported).1 := by
    show (written.session.project.applyChange grown ⟨.created, ofString "b.ts"⟩).1 = _
    rw [applyChange_eq_revisit (by decide) (by rwa [hidentity]), hidentity]
  rw [happly]
  refine ⟨hrevisited.root.trans hroot, hrevisited.aliases.trans knows_analysed.aliases, ?_⟩
  have hknown : written.session.project.known = PathSet.ofList [importer] := by
    show (cached.analyze growing).known = _
    rw [known_analyze, show growing.scan cached.root = [importer] from scan_growing]
  rw [hrevisited.known, hknown]
  decide +kernel

/-- After reopening nothing is known again, and the disk is the grown one. -/
theorem knows_reopened : Knows reopened.session.project [] ∧ reopened.session.disk = grown := by
  have hstep : reopened = ⟨⟨new (some (.ofStore informed.store)), grown⟩, informed.store⟩ := by
    rw [reopened, Moment.step, knows_informed.root]
    rfl
  rw [hstep]
  exact ⟨⟨rfl, rfl, by decide +kernel⟩, rfl⟩

/-- Every moment of the history: what is on disk, and what the project knows. -/
theorem knows_growth {s : Session} (h : opening.Past (growth ++ [.analyze]) s) :
    (s.disk = growing ∨ s.disk = grown) ∧
      ∃ files ∈ [[], [importer], [importer, imported]], Knows s.project files := by
  obtain ⟨front, hfront, rfl⟩ := h
  have hlast : Knows (opening.run (growth ++ [.analyze])).session.project [importer, imported] :=
    show Knows (reopened.session.project.analyze reopened.session.disk) _ by
      rw [knows_reopened.2]
      exact knows_analyze knows_reopened.1.root (by decide +kernel) scan_grown (by decide +kernel)
  -- The past are the six moments of the sample.
  have hcases : front ∈ (growth ++ [Act.analyze]).inits := (List.mem_inits _ _).2 hfront
  simp only [growth, List.cons_append, List.nil_append, List.inits, List.map_cons, List.map_nil,
    List.mem_cons, List.not_mem_nil, or_false] at hcases
  rcases hcases with rfl | rfl | rfl | rfl | rfl | rfl
  · exact ⟨Or.inl rfl, _, by simp, knows_opening⟩
  · exact ⟨Or.inl rfl, _, by simp, knows_analysed⟩
  · exact ⟨Or.inr rfl, _, by simp, knows_analysed⟩
  · exact ⟨Or.inr rfl, _, by simp, knows_informed⟩
  · exact ⟨Or.inr knows_reopened.2, _, by simp, knows_reopened.1⟩
  · exact ⟨Or.inr knows_reopened.2, _, by simp, hlast⟩

/-- What is read from a directory of files is one of these files. -/
theorem mem_of_read {children : List (String × Entry)}
    (hfiles : ∀ c ∈ children, c.2.isDirectory = false) {data : FileData}
    (h : Disk.read ⟨.directory children, []⟩ f = .ok data) : .file data ∈ children.map (·.2) := by
  obtain ⟨place, -, hat⟩ := read_eq_ok.1 h
  -- The files lie in the top directory, so a place has one name.
  cases place with
  | nil => cases hat
  | cons name place =>
    obtain ⟨child, hchild, hrest⟩ := Option.bind_eq_some_iff.1 hat
    have hmem := Entry.mem_of_child? hchild
    cases child with
    | directory entries => cases hfiles _ hmem
    | file found =>
      cases place with
      | nil =>
        cases hrest
        exact List.mem_map_of_mem hmem
      | cons next place => cases hrest

/-- Only two contents are ever read. -/
theorem read_growth {d : Disk} (hd : d = growing ∨ d = grown) {data : FileData}
    (h : d.read f = .ok data) : data = ⟨Text.utf8 "import './b'".toList, 0⟩ ∨ data = addition := by
  rcases hd with rfl | rfl
  · exact Or.inl (by simpa [plain] using mem_of_read (by simp [plain, Entry.isDirectory]) h)
  · simpa [plain] using mem_of_read (by simp [plain, Entry.isDirectory]) h

/-- The stamps and fingerprints of the sample tell its contents and contexts apart. -/
theorem reliable_growth : Reliable (opening.Past (growth ++ [.analyze])) where
  stamps s s' hs hs' f data data' hdata hdata' hstamp := by
    rcases read_growth (knows_growth hs).1 hdata with rfl | rfl <;>
      rcases read_growth (knows_growth hs').1 hdata' with rfl | rfl
    · rfl
    · exact absurd hstamp (by decide)
    · exact absurd hstamp (by decide)
    · rfl
  fingerprints s s' hs hs' hfingerprint := by
    obtain ⟨-, files, hfiles, hknows⟩ := knows_growth hs
    obtain ⟨-, files', hfiles', hknows'⟩ := knows_growth hs'
    have hordered : ∀ files ∈ [[], [importer], [importer, imported]],
        files.Pairwise fun a b => precedes a b = true := by
      decide +kernel
    have hbytes := congrArg Fingerprint.bytes hfingerprint
    rw [Context.fingerprint, Context.fingerprint, context, context, hknows.known, hknows'.known,
      hknows.aliases, hknows'.aliases, fingerprint_of_ordered (hordered files hfiles),
      fingerprint_of_ordered (hordered files' hfiles')] at hbytes
    -- The number of the files stands in front of them.
    have hsame : ∀ files ∈ [[], [importer], [importer, imported]],
        ∀ files' ∈ [[], [importer], [importer, imported]],
        counted Path.imprint files ++ (AliasTable.bare slash).baseUrl.imprint
            ++ counted Alias.bytes (AliasTable.bare slash).entries
          = counted Path.imprint files' ++ (AliasTable.bare slash).baseUrl.imprint
            ++ counted Alias.bytes (AliasTable.bare slash).entries → files = files' := by
      decide +kernel
    obtain rfl := hsame files hfiles files' hfiles' hbytes
    refine ⟨hknows.aliases.trans hknows'.aliases.symm, fun x => ?_⟩
    rw [Bool.eq_iff_iff, ← PathMap.listed_paths, ← PathMap.listed_paths, hknows.known,
      hknows'.known]
  imprints s s' hs hs' f f' hf hf' himprint := by
    obtain ⟨-, files, hfiles, hknows⟩ := knows_growth hs
    obtain ⟨-, files', hfiles', hknows'⟩ := knows_growth hs'
    have hsame : ∀ files ∈ [[], [importer], [importer, imported]],
        ∀ files' ∈ [[], [importer], [importer, imported]],
        ∀ f ∈ files, ∀ f' ∈ files', f.imprint = f'.imprint → f.Same f' := by
      decide +kernel
    rw [← PathMap.listed_paths, hknows.known] at hf
    rw [← PathMap.listed_paths, hknows'.known] at hf'
    obtain ⟨g, hg, hgf⟩ := hf
    obtain ⟨g', hg', hgf'⟩ := hf'
    have hgg' := hsame files hfiles files' hfiles' g hg g' hg'
      ((imprint_eq_of_same hgf).trans (himprint.trans (imprint_eq_of_same hgf').symm))
    exact (hgf.symm.trans hgg').trans hgf'

/-- What the cache directory holds of the first file was resolved against fewer files; the other
    file was kept when the project was told of it. -/
theorem cache_transparent_growth :
    openAt growing slash {} (some .empty) = .ok cached ∧
    Reliable (opening.Past (growth ++ [.analyze])) ∧
    (opening.run (growth ++ [.analyze])).session.project.graph
      = (opening.run (growth ++ [.analyze])).session.reanalysed.graph :=
  ⟨openAt_growing, reliable_growth,
    cache_transparent growing proper_growing unambiguous_growing slash {} (some .empty)
      (fun _ hs => (Option.some.inj hs).symm) cached openAt_growing growth reliable_growth⟩

end Sample

end BlastRadius.Project
