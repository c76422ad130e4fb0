import BlastRadius.Proofs.Session

namespace BlastRadius.Project

/-!
# What a cache holds

A cache gives back what was put into it, but not always under the path that it was put under: a
store on disk may take one file for another, since the imprints of their paths may be the same.

* `Cache.Every` — something holds of every analysis in the cache and the path that it is found
  under. One lemma for every operation says what keeps it.
* `analyzeCached_every`, `analyzeAllCached_every` — analysing files with such a cache.
* `analyzeAllCached_eq` — if what holds of the analyses makes them right, a cache changes nothing.
* `Cache.Within` — what the cache holds for some files are analyses of these files;
  `analyzeAllCached_within` — then the analyses of these files, kept or new, are analyses of these
  files.
-/

open BlastRadius.Graph Disk BlastRadius.Path Resolve

namespace CacheStore

variable {ρ : Type}

/-- The empty store has no entry. -/
theorem get?_empty (f : Path) : (empty : CacheStore ρ).get? f = none :=
  Std.ExtTreeMap.getElem?_empty

/-- An entry replaces the one of the same imprint. -/
theorem get?_insert (s : CacheStore ρ) (p f : Path) (entry : CacheEntry ρ) :
    (s.insert p entry).get? f = if p.imprint = f.imprint then some entry else s.get? f := by
  rw [get?, insert, Std.ExtTreeMap.getElem?_insert]
  simp [get?]

/-- Erasing takes away the entry of one imprint. -/
theorem get?_erase (s : CacheStore ρ) (p f : Path) :
    (s.erase p).get? f = if p.imprint = f.imprint then none else s.get? f := by
  rw [get?, erase, Std.ExtTreeMap.getElem?_erase]
  simp [get?]

end CacheStore

namespace Cache

variable {ρ : Type} {c : Cache ρ} {p : Path} {entry : CacheEntry ρ}
  {P Q : Path → CacheEntry ρ → Prop}

/-- `P` holds of every path and the analysis that is found under it, in memory or on disk. -/
structure Every (c : Cache ρ) (P : Path → CacheEntry ρ → Prop) : Prop where
  memory : ∀ f entry, c.memory.get? f = some entry → P f entry
  disk : ∀ store, c.disk = some store → ∀ f entry, store.get? f = some entry → P f entry

/-- What holds of every entry can be weakened. -/
theorem Every.mono (h : c.Every P) (himp : ∀ f entry, P f entry → Q f entry) : c.Every Q where
  memory f entry hentry := himp f entry (h.memory f entry hentry)
  disk store hstore f entry hentry := himp f entry (h.disk store hstore f entry hentry)

/-- A cache that is loaded from a store has the entries of that store. -/
theorem every_ofStore {disk : Option (CacheStore ρ)}
    (h : ∀ store, disk = some store → ∀ f entry, store.get? f = some entry → P f entry) :
    (ofStore disk).Every P where
  memory f entry hentry := by
    rw [ofStore, PathMap.get?_empty] at hentry
    cases hentry
  disk := h

/-- What holds of every entry holds of the one that is looked up. -/
theorem Every.lookup? (h : c.Every P) (hentry : c.lookup? p = some entry) : P p entry := by
  unfold Cache.lookup? at hentry
  split at hentry
  · next hmemory =>
    cases hentry
    exact h.memory p entry hmemory
  · obtain ⟨store, hstore, hget⟩ := Option.bind_eq_some_iff.1 hentry
    exact h.disk store hstore p entry hget

/-- The memory takes in an analysis. -/
theorem Every.remember (h : c.Every P) (hentry : ∀ q, q.Same p → P q entry) :
    Every { c with memory := c.memory.insert p entry } P where
  memory f found hfound := by
    rw [PathMap.get?_insert] at hfound
    split at hfound
    · next hsame =>
      cases hfound
      exact hentry f hsame.symm
    · exact h.memory f found hfound
  disk := h.disk

/-- Getting an entry adds none but that one, under another spelling. -/
theorem Every.get (h : c.Every P) (hentry : ∀ entry, P p entry → ∀ q, q.Same p → P q entry) :
    (c.get p).2.Every P := by
  unfold Cache.get
  split
  · exact h
  · next entry hlookup =>
    split
    · exact h
    · split
      · exact h.remember (hentry entry (h.lookup? hlookup))
      · exact h

/-- What a cache gives is what it finds. -/
theorem get_fst (c : Cache ρ) (p : Path) : (c.get p).1 = (c.lookup? p).map (·.node) := by
  unfold Cache.get
  split
  · next hlookup => rw [hlookup]; rfl
  · next entry hlookup =>
    rw [hlookup]
    split
    · rfl
    · split
      · rfl
      · rfl

/-- The check fails exactly where the file has no stamp. -/
theorem needsUpdate_eq_error [DecidableEq ρ] {d : Disk} {resolution : ρ} {error : DiskError} :
    c.needsUpdate d p resolution = .error error ↔ d.stamp p = .error error := by
  unfold Cache.needsUpdate
  cases d.stamp p with
  | error e => simp [bind, Except.bind]
  | ok stamp => cases c.lookup? p <;> simp [bind, Except.bind, pure, Except.pure]

/-- An analysis holds as long as the stamp and the resolution are those that it was made from. -/
theorem needsUpdate_eq_false [DecidableEq ρ] {d : Disk} {resolution : ρ} :
    c.needsUpdate d p resolution = .ok false ↔
      ∃ entry, c.lookup? p = some entry ∧ d.stamp p = .ok entry.stamp ∧
        entry.resolution = resolution := by
  unfold Cache.needsUpdate
  rw [bind_eq_ok]
  cases c.lookup? p with
  | none => simp [pure, Except.pure]
  | some entry =>
    -- An entry is kept where neither its stamp nor its resolution differs.
    constructor
    · rintro ⟨stamp, hstamp, hneeds⟩
      have hkept : ¬(entry.stamp ≠ stamp ∨ entry.resolution ≠ resolution) := by
        simpa using Except.ok.inj hneeds
      simp only [not_or, not_not] at hkept
      exact ⟨entry, rfl, hkept.1 ▸ hstamp, hkept.2⟩
    · rintro ⟨found, hfound, hstamp, hresolution⟩
      obtain rfl := Option.some.inj hfound
      exact ⟨entry.stamp, hstamp, by simp [hresolution, pure, Except.pure]⟩

/-- Making room adds no entry. -/
theorem Every.makeRoom (h : c.Every P) : c.makeRoom.Every P := by
  unfold Cache.makeRoom
  -- An analysis that leaves the memory may show another one on disk, which is why both are asked
  -- for.
  split
  · split
    · exact h
    · refine ⟨fun f found hfound => ?_, h.disk⟩
      rw [PathMap.get?_erase] at hfound
      split at hfound
      · cases hfound
      · exact h.memory f found hfound
  · exact h

/-- An analysis that is kept is found under every path with its imprint, not only under its own. -/
theorem Every.keep (h : c.Every P) (hentry : ∀ q : Path, q.imprint = p.imprint → P q entry) :
    (c.keep p entry).Every P where
  memory := (h.makeRoom.remember fun q hsame => hentry q (imprint_eq_of_same hsame)).memory
  disk store hstore f found hfound := by
    obtain ⟨old, hold, rfl⟩ := Option.map_eq_some_iff.1 hstore
    rw [CacheStore.get?_insert] at hfound
    split at hfound
    · next himprint =>
      cases hfound
      exact hentry f himprint.symm
    · exact h.makeRoom.disk old hold f found hfound

/-- Storing adds one entry, with the stamp that the file has now. -/
theorem Every.storeIfPresent (h : c.Every P) (d : Disk) {node : FileNode} {resolution : ρ}
    (hentry : ∀ stamp, d.stamp p = .ok stamp → ∀ q : Path, q.imprint = p.imprint →
      P q ⟨node, stamp, resolution⟩) :
    (c.storeIfPresent d p node resolution).Every P := by
  unfold Cache.storeIfPresent
  split
  · next kept hkept =>
    obtain ⟨stamp, hstamp, hkept⟩ := bind_eq_ok.1 hkept
    cases hkept
    exact h.keep (hentry stamp hstamp)
  · exact h

/-- Invalidating adds no entry. -/
theorem Every.invalidate (h : c.Every P) (p : Path) : (c.invalidate p).Every P where
  memory f found hfound := by
    rw [Cache.invalidate, PathMap.get?_erase] at hfound
    split at hfound
    · cases hfound
    · exact h.memory f found hfound
  disk store hstore f found hfound := by
    obtain ⟨old, hold, rfl⟩ := Option.map_eq_some_iff.1 hstore
    rw [CacheStore.get?_erase] at hfound
    split at hfound
    · cases hfound
    · exact h.disk old hold f found hfound

end Cache

/-! ### Analysing with a cache -/

variable {c : Cache Fingerprint} {d : Disk} {root f : Path} {context : Context}
  {resolution : Fingerprint}
  {P : Path → CacheEntry Fingerprint → Prop}

/-- An analysis that still holds: the stamp and the resolution are those that it was made from. -/
def Holds (d : Disk) (resolution : Fingerprint) (f : Path) (entry : CacheEntry Fingerprint) :
    Prop :=
  d.stamp f = .ok entry.stamp ∧ entry.resolution = resolution

/-- Either nothing is reused, or an analysis that still holds. -/
theorem reuse?_cases (c : Cache Fingerprint) (d : Disk) (f : Path) (resolution : Fingerprint) :
    reuse? c d f resolution = (none, c) ∨
      ∃ entry, c.lookup? f = some entry ∧ Holds d resolution f entry ∧
        reuse? c d f resolution = (some entry.node, (c.get f).2) := by
  unfold reuse?
  split
  · next hneeds =>
    obtain ⟨entry, hlookup, hstamp, hresolution⟩ := Cache.needsUpdate_eq_false.1 hneeds
    refine Or.inr ⟨entry, hlookup, ⟨hstamp, hresolution⟩, Prod.ext ?_ rfl⟩
    rw [Cache.get_fst, hlookup]
    rfl
  · exact Or.inl rfl

/-- An analysis that still holds is taken from the cache. -/
theorem analyzeCached_of_holds {entry : CacheEntry Fingerprint} (hentry : c.lookup? f = some entry)
    (hholds : Holds d resolution f entry) :
    (analyzeCached d root context resolution c f).1 = some entry.node := by
  have hget : c.get f = (some entry.node, (c.get f).2) := by
    refine Prod.ext ?_ rfl
    rw [Cache.get_fst, hentry]
    rfl
  rw [analyzeCached, reuse?, Cache.needsUpdate_eq_false.2 ⟨entry, hentry, hholds⟩]
  dsimp only
  rw [hget]

/-- What the cache needs of a file that is analysed: what holds of an analysis of it holds under
    every spelling, and it holds of a new analysis under every path with the same imprint. -/
structure Welcome (P : Path → CacheEntry Fingerprint → Prop) (d : Disk) (root : Path)
    (context : Context) (resolution : Fingerprint) (f : Path) : Prop where
  spelled : ∀ entry, P f entry → ∀ q, q.Same f → P q entry
  analysed : ∀ node stamp, analyzeFile? d root context f = some node → d.stamp f = .ok stamp →
    ∀ q : Path, q.imprint = f.imprint → P q ⟨node, stamp, resolution⟩

/-- **One file.** Its analysis is new, or one from the cache that still holds, and the cache keeps
    what holds of its analyses. -/
theorem analyzeCached_every (h : c.Every P) (hf : Welcome P d root context resolution f) :
    ((analyzeCached d root context resolution c f).1 = analyzeFile? d root context f ∨
      ∃ entry, P f entry ∧ Holds d resolution f entry ∧
        (analyzeCached d root context resolution c f).1 = some entry.node) ∧
      (analyzeCached d root context resolution c f).2.Every P := by
  unfold analyzeCached
  rcases reuse?_cases c d f resolution with hreuse | ⟨entry, hlookup, hholds, hreuse⟩
  · rw [hreuse]
    dsimp only
    split
    · next hanalysis => exact ⟨Or.inl hanalysis.symm, h⟩
    · next node hanalysis =>
      exact ⟨Or.inl hanalysis.symm,
        h.storeIfPresent d fun stamp => hf.analysed node stamp hanalysis⟩
  · rw [hreuse]
    exact ⟨Or.inr ⟨entry, h.lookup? hlookup, hholds, rfl⟩, h.get hf.spelled⟩

/-- **All the files.** Every node is of a new analysis or of an entry that still holds, and the
    property goes on holding of all that is kept. -/
theorem analyzeAllCached_every (h : c.Every P) {paths : List Path}
    (hpaths : ∀ f ∈ paths, Welcome P d root context resolution f) :
    (∀ node ∈ (analyzeAllCached d root context resolution c paths).1, ∃ f ∈ paths,
      analyzeFile? d root context f = some node ∨
        ∃ entry, P f entry ∧ Holds d resolution f entry ∧ entry.node = node) ∧
      (analyzeAllCached d root context resolution c paths).2.Every P := by
  induction paths generalizing c with
  | nil => exact ⟨fun node hnode => absurd hnode List.not_mem_nil, h⟩
  | cons f paths ih =>
    obtain ⟨hnode, hcache⟩ := analyzeCached_every h (hpaths f List.mem_cons_self)
    obtain ⟨hnodes, hcache⟩ := ih hcache fun f' hf' => hpaths f' (List.mem_cons_of_mem f hf')
    refine ⟨fun node hmem => ?_, hcache⟩
    -- The node is that of `f`, or of one of the files behind it.
    rw [analyzeAllCached] at hmem
    rcases List.mem_append.1 hmem with hfirst | hrest
    · refine ⟨f, List.mem_cons_self, ?_⟩
      have hfirst := Option.mem_toList.1 hfirst
      rcases hnode with hnew | ⟨entry, hentry, hholds, hkept⟩
      · exact Or.inl (hnew.symm.trans hfirst)
      · exact Or.inr ⟨entry, hentry, hholds, Option.some.inj (hkept.symm.trans hfirst)⟩
    · obtain ⟨f', hf', hwhy⟩ := hnodes node hrest
      exact ⟨f', List.mem_cons_of_mem f hf', hwhy⟩

/-- **A cache changes nothing** if an analysis that still holds is the one that analysing the file
    gives. -/
theorem analyzeAllCached_eq (h : c.Every P) {paths : List Path}
    (hpaths : ∀ f ∈ paths, Welcome P d root context resolution f)
    (hright : ∀ f ∈ paths, ∀ entry, P f entry → Holds d resolution f entry →
      analyzeFile? d root context f = some entry.node) :
    (analyzeAllCached d root context resolution c paths).1
      = paths.filterMap (analyzeFile? d root context) := by
  induction paths generalizing c with
  | nil => rfl
  | cons f paths ih =>
    obtain ⟨hnode, hcache⟩ := analyzeCached_every h (hpaths f List.mem_cons_self)
    have hrest := ih hcache (fun f' hf' => hpaths f' (List.mem_cons_of_mem f hf'))
      fun f' hf' => hright f' (List.mem_cons_of_mem f hf')
    -- A kept entry is the one that the file would be analysed to.
    have hfirst : (analyzeCached d root context resolution c f).1
        = analyzeFile? d root context f := by
      rcases hnode with hnew | ⟨entry, hentry, hholds, hkept⟩
      · exact hnew
      · rw [hkept, hright f List.mem_cons_self entry hentry hholds]
    rw [analyzeAllCached]
    dsimp only
    rw [hrest, hfirst, List.filterMap_cons]
    cases analyzeFile? d root context f with
    | none => rfl
    | some node => rfl

/-! ### Caches that know their files -/

/-- What the cache holds for some files, in memory and on disk, are analyses of these files. -/
structure Cache.Within {ρ : Type} (c : Cache ρ) (files : List Path) : Prop where
  memory : ∀ f ∈ files, ∀ entry, c.memory.get? f = some entry → entry.node.path ∈ files
  disk : ∀ store, c.disk = some store → ∀ f ∈ files, ∀ entry, store.get? f = some entry →
    entry.node.path ∈ files

/-- A cache with nothing in memory, and nothing on disk or no disk. -/
theorem Cache.within_fresh {ρ : Type} {disk : Option (CacheStore ρ)}
    (h : ∀ store, disk = some store → store = .empty) (files : List Path) :
    (ofStore disk).Within files where
  memory f _ entry hentry := by
    rw [ofStore, PathMap.get?_empty] at hentry
    cases hentry
  disk store hstore f _ entry hentry := by
    rw [h store hstore, CacheStore.get?_empty] at hentry
    cases hentry

/-- **All the files.** Their analyses, kept or new, are analyses of these files. -/
theorem analyzeAllCached_within {files : List Path} (h : c.Within files) :
    ∀ node ∈ (analyzeAllCached d root context resolution c files).1, node.path ∈ files := by
  have hevery : c.Every fun f entry => f ∈ files → entry.node.path ∈ files :=
    ⟨fun f entry hentry hf => h.memory f hf entry hentry,
      fun store hstore f entry hentry hf => h.disk store hstore f hf entry hentry⟩
  have hnew : ∀ {f node}, f ∈ files → analyzeFile? d root context f = some node →
      node.path ∈ files := by
    intro f node hf hanalysis
    rwa [path_of_analyzeFile? hanalysis]
  have hwelcome : ∀ f ∈ files,
      Welcome (fun f entry => f ∈ files → entry.node.path ∈ files) d root context resolution f :=
    fun f hf => ⟨fun entry hentry q _ _ => hentry hf,
      fun node stamp hanalysis _ q _ _ => hnew hf hanalysis⟩
  intro node hnode
  obtain ⟨f, hf, hanalysis | ⟨entry, hentry, -, rfl⟩⟩ :=
    (analyzeAllCached_every hevery hwelcome).1 node hnode
  · exact hnew hf hanalysis
  · exact hentry hf

end BlastRadius.Project
