import BlastRadius.Proofs.Incremental
import BlastRadius.Proofs.Order

namespace BlastRadius.Project

/-!
# The two tiers of a cache

A cache keeps its analyses in memory and on disk, and takes those on disk into memory when they are
asked for. Whatever it is asked, its answers do not tell which of the two an analysis is in.

* `Request`, `Cache.run` — what can be asked of a cache, and a history of it.
* `latest?` — the analysis that was last stored for a file and not invalidated since.
* `Cache.Agrees` — both tiers have this analysis of a file, or the memory has none. One lemma for
  every operation says what keeps it, and `Cache.agrees_run` what a history does.
* `Cache.tiers_agree` — the theorem.
-/

open BlastRadius.Graph Disk BlastRadius.Path Resolve

variable {ρ : Type}

/-! ### Histories -/

/-- What can be asked of a cache, with the disk as it is then; and it can be opened again on its
    directory. -/
inductive Request (ρ : Type) where
  | store (d : Disk) (p : Path) (node : FileNode) (resolution : ρ)
  | get (p : Path)
  | needsUpdate (d : Disk) (p : Path) (resolution : ρ)
  | invalidate (p : Path)
  | reopen

namespace Request

/-- The path that a request is about. -/
def path? : Request ρ → Option Path
  | .store _ p _ _ => some p
  | .get p => some p
  | .needsUpdate _ p _ => some p
  | .invalidate p => some p
  | .reopen => none

/-- What a request says of the analysis of a file, if it says anything: a file that is there is
    stored with an analysis, and an invalidated one has none. -/
def tells? (p : Path) : Request ρ → Option (Option (CacheEntry ρ))
  | .store d q node resolution =>
    if q.Same p then (d.stamp q).toOption.map fun stamp => some ⟨node, stamp, resolution⟩ else none
  | .invalidate q => if q.Same p then some none else none
  | _ => none

/-- No other file is taken for `p`. -/
def Clear (p : Path) (request : Request ρ) : Prop :=
  ∀ q, request.path? = some q → q.imprint = p.imprint → q.Same p

end Request

/-- What was last said of the analysis of a file. -/
def latest? (p : Path) (history : List (Request ρ)) : Option (CacheEntry ρ) :=
  (history.filterMap (Request.tells? p)).getLast?.join

/-- The last request decides if it tells something. -/
theorem latest?_concat (p : Path) (history : List (Request ρ)) (request : Request ρ) :
    latest? p (history ++ [request]) = (request.tells? p).getD (latest? p history) := by
  unfold latest?
  rw [List.filterMap_append]
  cases htells : request.tells? p with
  | none => simp [htells]
  | some said => simp [htells]

namespace Cache

/-- The cache after a request.  What is not stored changes nothing. -/
def step (c : Cache ρ) : Request ρ → Cache ρ
  | .store d p node resolution => c.storeIfPresent d p node resolution
  | .get p => (c.get p).2
  | .needsUpdate _ _ _ => c
  | .invalidate p => c.invalidate p
  | .reopen => ofStore c.disk

/-- The cache after a history. -/
def run (c : Cache ρ) (history : List (Request ρ)) : Cache ρ :=
  history.foldl step c

/-- The last request is run last. -/
theorem run_concat (c : Cache ρ) (history : List (Request ρ)) (request : Request ρ) :
    c.run (history ++ [request]) = (c.run history).step request :=
  List.foldl_concat step c request history

/-! ### What the tiers have in common -/

variable {c : Cache ρ} {p q : Path} {entry : CacheEntry ρ} {latest : Option (CacheEntry ρ)}

/-- The analysis of a file is `latest`: on disk if there is one, or else in memory. With a disk the
    memory may be without it. -/
structure Agrees (c : Cache ρ) (p : Path) (latest : Option (CacheEntry ρ)) : Prop where
  memory : ∀ entry, c.memory.get? p = some entry → latest = some entry
  disk : ∀ store, c.disk = some store → store.get? p = latest
  alone : c.disk = none → c.memory.get? p = latest

/-- Looking up does not hang on the spelling. -/
theorem lookup?_congr (h : q.Same p) : c.lookup? q = c.lookup? p := by
  unfold lookup?
  simp only [c.memory.get?_congr h, CacheStore.get?, imprint_eq_of_same h]

/-- **What is found.** The answers depend on nothing else. -/
theorem Agrees.lookup? (h : c.Agrees p latest) : c.lookup? p = latest := by
  unfold Cache.lookup?
  split
  · next entry hentry => exact (h.memory entry hentry).symm
  · next hnone =>
    cases hdisk : c.disk with
    | none => rw [← h.alone hdisk, hnone]; rfl
    | some store => exact h.disk store hdisk

/-- A cache that is loaded from a store agrees with what the store has. -/
theorem agrees_ofStore {disk : Option (CacheStore ρ)}
    (hdisk : ∀ store, disk = some store → store.get? p = latest)
    (halone : disk = none → latest = none) : (ofStore disk).Agrees p latest where
  memory entry hentry := by
    rw [ofStore, PathMap.get?_empty] at hentry
    cases hentry
  disk := hdisk
  alone hnone := by rw [halone hnone, ofStore, PathMap.get?_empty]

/-- Taking an analysis into memory that is found already. -/
theorem Agrees.get (h : c.Agrees p latest) (q : Path) : (c.get q).2.Agrees p latest := by
  -- An entry found on disk only is copied into memory, under the path that was asked for.
  have hpromoted : ∀ entry, c.lookup? q = some entry →
      Agrees { c with memory := c.memory.insert q entry } p latest := by
    intro entry hentry
    by_cases hsame : q.Same p
    · rw [lookup?_congr hsame, h.lookup?] at hentry
      refine ⟨fun found hfound => ?_, h.disk, fun _ => ?_⟩
      · rw [PathMap.get?_insert, if_pos hsame] at hfound
        rw [hentry, hfound]
      · rw [PathMap.get?_insert, if_pos hsame, hentry]
    · refine ⟨fun found hfound => h.memory found ?_, h.disk, fun hnone => ?_⟩
      · rwa [PathMap.get?_insert, if_neg hsame] at hfound
      · rw [PathMap.get?_insert, if_neg hsame]
        exact h.alone hnone
  unfold Cache.get
  split
  · exact h
  · next entry hentry =>
    split
    · exact h
    · split
      · exact hpromoted entry hentry
      · exact h

/-- Only a cache without a disk needs room: what leaves the memory is still on disk. -/
theorem Agrees.makeRoom (h : c.Agrees p latest) (hroom : c.disk = none → c.size < memoryLimit) :
    c.makeRoom.Agrees p latest := by
  unfold Cache.makeRoom
  split
  · next hfull =>
    split
    · exact h
    · refine ⟨fun found hfound => h.memory found ?_, h.disk, fun hnone => ?_⟩
      · rw [PathMap.get?_erase] at hfound
        split at hfound
        · cases hfound
        · exact hfound
      · exact absurd (hroom hnone) (Nat.not_lt.2 hfull)
  · exact h

/-- Keeping an entry makes it the latest. -/
theorem agrees_keep_self (c : Cache ρ) (entry : CacheEntry ρ) (hsame : q.Same p) :
    (c.keep q entry).Agrees p (some entry) where
  memory found hfound := by
    rwa [Cache.keep, PathMap.get?_insert, if_pos hsame] at hfound
  disk store hstore := by
    obtain ⟨old, -, rfl⟩ := Option.map_eq_some_iff.1 hstore
    rw [CacheStore.get?_insert, if_pos (imprint_eq_of_same hsame)]
  alone _ := by
    rw [Cache.keep, PathMap.get?_insert, if_pos hsame]

/-- Keeping another entry changes nothing for this file. -/
theorem Agrees.keep_other (h : c.Agrees p latest) (hroom : c.disk = none → c.size < memoryLimit)
    (hother : q.imprint ≠ p.imprint) : (c.keep q entry).Agrees p latest := by
  have hsame : ¬q.Same p := fun hsame => hother (imprint_eq_of_same hsame)
  have hmade := h.makeRoom hroom
  refine ⟨fun found hfound => hmade.memory found ?_, fun store hstore => ?_, fun hnone => ?_⟩
  · rwa [Cache.keep, PathMap.get?_insert, if_neg hsame] at hfound
  · obtain ⟨old, hold, rfl⟩ := Option.map_eq_some_iff.1 hstore
    rw [CacheStore.get?_insert, if_neg hother]
    exact hmade.disk old hold
  · rw [Cache.keep, PathMap.get?_insert, if_neg hsame]
    exact hmade.alone (Option.map_eq_none_iff.1 hnone)

/-- Invalidating leaves no entry. -/
theorem agrees_invalidate_self (c : Cache ρ) (hsame : q.Same p) :
    (c.invalidate q).Agrees p none where
  memory found hfound := by
    rw [Cache.invalidate, PathMap.get?_erase, if_pos hsame] at hfound
    cases hfound
  disk store hstore := by
    obtain ⟨old, -, rfl⟩ := Option.map_eq_some_iff.1 hstore
    rw [CacheStore.get?_erase, if_pos (imprint_eq_of_same hsame)]
  alone _ := by
    rw [Cache.invalidate, PathMap.get?_erase, if_pos hsame]

/-- Invalidating another file changes nothing for this one. -/
theorem Agrees.invalidate_other (h : c.Agrees p latest) (hother : q.imprint ≠ p.imprint) :
    (c.invalidate q).Agrees p latest := by
  have hsame : ¬q.Same p := fun hsame => hother (imprint_eq_of_same hsame)
  refine ⟨fun found hfound => h.memory found ?_, fun store hstore => ?_, fun hnone => ?_⟩
  · rwa [Cache.invalidate, PathMap.get?_erase, if_neg hsame] at hfound
  · obtain ⟨old, hold, rfl⟩ := Option.map_eq_some_iff.1 hstore
    rw [CacheStore.get?_erase, if_neg hother]
    exact h.disk old hold
  · rw [Cache.invalidate, PathMap.get?_erase, if_neg hsame]
    exact h.alone (Option.map_eq_none_iff.1 hnone)

/-! ### A history -/

/-- A file with a stamp is stored. -/
theorem storeIfPresent_of_stamp {d : Disk} {stamp : Stamp} (h : d.stamp q = .ok stamp) (c : Cache ρ)
    (node : FileNode) (resolution : ρ) :
    c.storeIfPresent d q node resolution = c.keep q ⟨node, stamp, resolution⟩ := by
  rw [storeIfPresent, store, h]
  rfl

/-- A file without one is not. -/
theorem storeIfPresent_of_error {d : Disk} {error : DiskError} (h : d.stamp q = .error error)
    (c : Cache ρ) (node : FileNode) (resolution : ρ) :
    c.storeIfPresent d q node resolution = c := by
  rw [storeIfPresent, store, h]
  rfl

/-- **One request.** The tiers agree on what it tells about the file, or on what they agreed on
    before. -/
theorem Agrees.step (h : c.Agrees p latest) {request : Request ρ} (hclear : request.Clear p)
    (hlasting : c.disk = none → request ≠ .reopen ∧ c.size < memoryLimit) :
    (c.step request).Agrees p ((request.tells? p).getD latest) := by
  cases request with
  -- Storing tells something where the file has a stamp, and about this file only.
  | store d q node resolution =>
    show (c.storeIfPresent d q node resolution).Agrees p _
    rw [Request.tells?]
    cases hstamp : d.stamp q with
    | error e =>
      rw [storeIfPresent_of_error hstamp]
      simpa [Except.toOption] using h
    | ok stamp =>
      rw [storeIfPresent_of_stamp hstamp]
      by_cases hsame : q.Same p
      · simpa [hsame, Except.toOption] using agrees_keep_self c ⟨node, stamp, resolution⟩ hsame
      · rw [if_neg hsame]
        exact h.keep_other (fun hnone => (hlasting hnone).2) fun himprint =>
          hsame (hclear q rfl himprint)
  | get q => exact h.get q
  | needsUpdate d q resolution => exact h
  | invalidate q =>
    show (c.invalidate q).Agrees p _
    rw [Request.tells?]
    by_cases hsame : q.Same p
    · rw [if_pos hsame]
      exact agrees_invalidate_self c hsame
    · rw [if_neg hsame]
      exact h.invalidate_other fun himprint => hsame (hclear q rfl himprint)
  | reopen => exact agrees_ofStore h.disk fun hnone => absurd rfl (hlasting hnone).1

/-- A cache that starts on an empty directory; or one that has none, is not opened again and does
    not fill up. -/
def Lasting (disk : Option (CacheStore ρ)) (history : List (Request ρ)) : Prop :=
  match disk with
  | some store => store = .empty
  | none => (∀ request ∈ history, request ≠ .reopen) ∧
    ∀ front, front <+: history → ((ofStore none).run front).size < memoryLimit

/-- Getting an entry leaves the disk tier alone. -/
theorem disk_get (c : Cache ρ) (q : Path) : (c.get q).2.disk = c.disk := by
  unfold Cache.get
  split
  · rfl
  · split
    · rfl
    · split
      · rfl
      · rfl

/-- So does making room. -/
theorem disk_makeRoom (c : Cache ρ) : c.makeRoom.disk = c.disk := by
  unfold Cache.makeRoom
  split
  · split
    · rfl
    · rfl
  · rfl

/-- No request adds or takes away the disk tier. -/
theorem disk_step (c : Cache ρ) (request : Request ρ) :
    (c.step request).disk = none ↔ c.disk = none := by
  cases request with
  | store d q node resolution =>
    show (c.storeIfPresent d q node resolution).disk = none ↔ _
    cases hstamp : d.stamp q with
    | error e => rw [storeIfPresent_of_error hstamp]
    | ok stamp =>
      rw [storeIfPresent_of_stamp hstamp, Cache.keep, Option.map_eq_none_iff, disk_makeRoom]
  | get q => exact iff_of_eq (congrArg (· = none) (disk_get c q))
  | needsUpdate d q resolution => exact Iff.rfl
  | invalidate q => exact Option.map_eq_none_iff
  | reopen => exact Iff.rfl

/-- No history does. -/
theorem disk_run (c : Cache ρ) (history : List (Request ρ)) :
    (c.run history).disk = none ↔ c.disk = none := by
  induction history using List.reverseRecOn with
  | nil => exact Iff.rfl
  | append_singleton history request ih => rw [run_concat, disk_step, ih]

/-- What lasts through a history lasts through its front. -/
theorem Lasting.front {disk : Option (CacheStore ρ)} {history : List (Request ρ)}
    {request : Request ρ} (h : Lasting disk (history ++ [request])) : Lasting disk history := by
  cases disk with
  | some store => exact h
  | none =>
    exact ⟨fun other hother => h.1 other (List.mem_append_left _ hother),
      fun front hfront => h.2 front (hfront.trans (List.prefix_append _ _))⟩

/-- **A history.** The tiers agree on what it last said of the file. -/
theorem agrees_run {disk : Option (CacheStore ρ)} {history : List (Request ρ)}
    (h : Lasting disk history) (hclear : ∀ request ∈ history, request.Clear p) :
    ((ofStore disk).run history).Agrees p (latest? p history) := by
  induction history using List.reverseRecOn with
  | nil =>
    refine agrees_ofStore (fun store hstore => ?_) fun _ => rfl
    subst hstore
    rw [show store = .empty from h, CacheStore.get?_empty]
    rfl
  | append_singleton history request ih =>
    have hfront := ih h.front fun other hother => hclear other (List.mem_append_left _ hother)
    rw [run_concat, latest?_concat]
    refine hfront.step (hclear request (by simp)) fun hnone => ?_
    obtain rfl : disk = none := (disk_run _ _).1 hnone
    exact ⟨h.1 request (by simp), h.2 history (List.prefix_append _ _)⟩

/-- Storing fails exactly where the file has no stamp. -/
theorem store_eq_error {d : Disk} {node : FileNode} {resolution : ρ} {error : DiskError} :
    c.store d p node resolution = .error error ↔ d.stamp p = .error error := by
  unfold store
  cases d.stamp p with
  | error e => simp [bind, Except.bind]
  | ok stamp => simp [bind, Except.bind, pure, Except.pure]

/-- **The tiers agree.** After any history, in which other files may change and no other file is
    taken for `p`, the cache gives the analysis of `p` that was last stored and not invalidated
    since, and takes it to hold exactly if it was made from the same resolution and the file has the
    same stamp. Where there is no file these questions and the storing of an analysis fail, which
    changes nothing; and opening the cache again changes no answer. -/
theorem tiers_agree [DecidableEq ρ] {disk : Option (CacheStore ρ)} {history : List (Request ρ)}
    (h : Lasting disk history) (p : Path) (hclear : ∀ request ∈ history, request.Clear p) :
    (((ofStore disk).run history).get p).1 = (latest? p history).map (·.node) ∧
    (∀ d resolution,
      (∀ error, ((ofStore disk).run history).needsUpdate d p resolution = .error error ↔
        d.stamp p = .error error) ∧
      (((ofStore disk).run history).needsUpdate d p resolution = .ok false ↔
        ∃ entry, latest? p history = some entry ∧ d.stamp p = .ok entry.stamp ∧
          entry.resolution = resolution)) ∧
    (∀ d q node resolution error,
      (((ofStore disk).run history).store d q node resolution = .error error ↔
        d.stamp q = .error error) ∧
      (d.stamp q = .error error →
        (ofStore disk).run (history ++ [.store d q node resolution])
          = (ofStore disk).run history)) ∧
    (disk ≠ none →
      (((ofStore disk).run (history ++ [.reopen])).get p).1
        = (((ofStore disk).run history).get p).1 ∧
      ∀ d resolution, ((ofStore disk).run (history ++ [.reopen])).needsUpdate d p resolution
        = ((ofStore disk).run history).needsUpdate d p resolution) := by
  have hagrees := agrees_run h hclear
  refine ⟨?_, fun d resolution => ⟨fun error => needsUpdate_eq_error, ?_⟩,
    fun d q node resolution error => ⟨store_eq_error, fun hstamp => ?_⟩, fun hdisk => ?_⟩
  · rw [get_fst, hagrees.lookup?]
  · rw [needsUpdate_eq_false, hagrees.lookup?]
  · rw [run_concat]
    exact storeIfPresent_of_error hstamp _ node resolution
  · -- The disk tier has the latest entry, so reopening loses nothing.
    have hreopened : ((ofStore disk).run (history ++ [.reopen])).lookup? p
        = ((ofStore disk).run history).lookup? p := by
      have hkept : ((ofStore disk).run history).disk ≠ none :=
        fun hnone => hdisk ((disk_run _ _).1 hnone)
      rw [run_concat, hagrees.lookup?]
      exact (agrees_ofStore hagrees.disk fun hnone => absurd hnone hkept).lookup?
    refine ⟨?_, fun d resolution => ?_⟩
    · rw [get_fst, get_fst, hreopened]
    · rw [needsUpdate, needsUpdate, hreopened]

end Cache

namespace Sample

/-- An analysis of a file. -/
def nodeAt (p : Path) : FileNode :=
  Graph.Sample.fileAt p.spelling []

/-- A file is stored, taken for missing when the disk changes, and asked for again after the cache
    was opened anew. -/
def kept : List (Request Nat) := [
  .store later latter (nodeAt latter) 1,
  .reopen,
  .get latter,
  .store workspace latter (nodeAt index) 2,
  .store workspace index (nodeAt index) 2,
  .invalidate index,
  .needsUpdate workspace latter 1,
  .reopen]

/-- No other file of the sample has the same imprint. -/
theorem clear_kept : ∀ request ∈ kept, request.Clear latter := by
  have hpaths : ∀ q ∈ kept.filterMap Request.path?, q.imprint = latter.imprint → q.Same latter := by
    decide +kernel
  intro request hrequest q hq
  exact hpaths q (List.mem_filterMap.2 ⟨request, hrequest, hq⟩)

/-- The entry of the sample lasts through a reopening. -/
theorem tiers_agree_kept :
    Cache.Lasting (some .empty) kept ∧ (∀ request ∈ kept, request.Clear latter) ∧
      (((Cache.ofStore (some .empty)).run kept).get latter).1 = some (nodeAt latter) ∧
      ((Cache.ofStore (some .empty)).run kept).needsUpdate later latter 1 = .ok false := by
  have hlatest : latest? latter kept = some ⟨nodeAt latter, ⟨0, 0⟩, 1⟩ := by rfl
  obtain ⟨hget, hneeds, -⟩ :=
    Cache.tiers_agree (show Cache.Lasting (some .empty) kept from rfl) latter clear_kept
  refine ⟨rfl, clear_kept, ?_, ?_⟩
  · rw [hget, hlatest]
    rfl
  · exact (hneeds later 1).2.2 ⟨_, hlatest, rfl, rfl⟩

end Sample

end BlastRadius.Project
