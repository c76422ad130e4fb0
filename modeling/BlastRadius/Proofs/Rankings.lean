import BlastRadius.Proofs.Counts
import BlastRadius.Proofs.Impact
import BlastRadius.Proofs.Reload

namespace BlastRadius.Graph

/-!
# What a summary ranks

The lists of a summary come from two counts for each analysed file: who imports it, taken from the
sets of dependents, and what a change of it affects, found by a search. Here both are numbers of
files in terms of what files import.

* `importerCount`, `reachCount` — how many files import a file, and how many others reach it through
  imports.
* `dependentRanks_eq`, `impactRanks_eq` — these are the counts that the summary ranks by.
* `Ranks`, `ranks_ranking` — a list has exactly the files with a high count, each once and in order.
* `Leads`, `leads_highest` — the first of the files with the highest count.
* `RanksFiles`, `summary_ranks` — the rankings of a summary after every history.
-/

open BlastRadius.Path

variable {g : Graph} {p x : Path}

/-! ### Numbers of files -/

/-- How many files have a property.  A file counts once, however it is spelled. -/
noncomputable def fileCount (holds : Path → Prop) : Nat :=
  {key | ∃ x : Path, x.components = key ∧ holds x}.ncard

/-- How many files import a file.  It may be one of them. -/
noncomputable def importerCount (g : Graph) (p : Path) : Nat :=
  fileCount fun f => g.Imports f p

/-- How many other files reach a file through imports. -/
noncomputable def reachCount (g : Graph) (p : Path) : Nat :=
  fileCount fun f => ¬f.Same p ∧ Relation.TransGen g.Imports f p

/-- The dependents are counted by the files that import. -/
theorem dependentCount_eq (hg : g.Consistent) (p : Path) :
    g.dependentCount p = g.importerCount p := by
  rw [← length_dependentsOf]
  apply length_eq_ncard (distinct_dependentsOf g p)
  intro x
  rw [listed_dependentsOf, hg.converse]

/-- All dependents together are counted by the files that reach. -/
theorem length_dependents (hg : g.Consistent) (p : Path) :
    (g.directDependents p ++ g.transitiveDependents p).length = g.reachCount p := by
  apply length_eq_ncard (distinct_dependents hg p)
  intro x
  rw [listed_append, listed_dependents hg]

/-- All that import a file reach it, except for the file itself. -/
theorem importerCount_le (hg : g.Consistent) (p : Path) :
    g.importerCount p ≤ g.reachCount p + 1 := by
  rw [← dependentCount_eq hg, ← length_dependentsOf, ← length_dependents hg]
  show _ ≤ (p :: (g.directDependents p ++ g.transitiveDependents p)).length
  apply length_le_of_distinct (distinct_dependentsOf g p)
  intro x hx
  rw [listed_dependentsOf, hg.converse] at hx
  rw [listed_cons, listed_append]
  by_cases hsame : x.Same p
  · exact Or.inl hsame.symm
  · exact Or.inr (Or.inl ((listed_directDependents hg).2 ⟨hsame, hx⟩))

/-- No file imports exactly where no analysed file lists the path. -/
theorem importerCount_eq_zero_iff (hg : g.Consistent) :
    g.importerCount p = 0 ↔ ∀ other ∈ g.files, ¬p.Listed (g.dependenciesOf other.path) := by
  rw [← dependentCount_eq hg, ← length_dependentsOf, List.length_eq_zero_iff]
  constructor
  · intro hnil other _ hlisted
    have himporter : other.path.Listed (g.dependentsOf p) := by
      rw [listed_dependentsOf, hg.converse, ← listed_dependenciesOf]
      exact hlisted
    rw [hnil] at himporter
    exact not_listed_nil _ himporter
  · intro hnone
    -- Whatever imports the file is analysed.
    rw [List.eq_nil_iff_forall_not_mem]
    intro importer himporter
    have himports := (hg.converse p importer).1 (listed_dependentsOf.1 (listed_of_mem himporter))
    obtain ⟨q, hq, hsame⟩ := listed_files.2 (hg.analysed importer p himports)
    obtain ⟨other, hother, rfl⟩ := List.mem_map.1 hq
    apply hnone other hother
    rw [listed_dependenciesOf]
    exact (imports_congr hsame (Same.refl p)).2 himports

/-! ### Files with a count -/

/-- The analysed files, in order, with a number for each. -/
def ranksBy (g : Graph) (size : Path → Nat) : List Ranked :=
  g.files.map fun node => ⟨node.path, size node.path⟩

variable {size : Path → Nat} {threshold : Nat} {r : Ranked}

/-- A rank is a file of the graph with its size. -/
theorem mem_ranksBy :
    r ∈ g.ranksBy size ↔ (∃ node ∈ g.files, node.path = r.path) ∧ r.count = size r.path := by
  rw [ranksBy, List.mem_map]
  constructor
  · rintro ⟨node, hnode, rfl⟩
    exact ⟨⟨node, hnode, rfl⟩, rfl⟩
  · rintro ⟨⟨node, hnode, hpath⟩, hcount⟩
    refine ⟨node, hnode, ?_⟩
    rw [hpath, ← hcount]

/-- The ranks come in the order of the paths. -/
theorem increasing_ranksBy (g : Graph) (size : Path → Nat) :
    (g.ranksBy size).Pairwise fun a b => a.path.Before b.path := by
  rw [ranksBy, List.pairwise_map]
  exact List.pairwise_map.1 g.increasing_files

/-- The ranks by dependents are those by importers. -/
theorem dependentRanks_eq (hg : g.Consistent) : g.dependentRanks = g.ranksBy g.importerCount := by
  unfold dependentRanks ranksBy
  simp only [dependentCount_eq hg]

/-- The ranks by impact are those by reach. -/
theorem impactRanks_eq (hg : g.Consistent) : g.impactRanks = g.ranksBy g.reachCount := by
  rw [impactRanks, ranksBy, ← List.filterMap_eq_map]
  apply List.filterMap_congr
  intro node hnode
  rw [impact?_of_node (get?_of_mem_files hnode (Same.refl _)), Option.map_some, Impact.total,
    ← List.length_append, length_dependents hg]
  rfl

/-! ### Rankings -/

/-- The strict order of ranked files: by falling count, then by path. -/
def Ranked.Above (a b : Ranked) : Prop :=
  b.count < a.count ∨ a.count = b.count ∧ a.path.Before b.path

/-- A list has exactly the analysed files with a count of at least `threshold`, with their counts,
    each once and in order. -/
structure Ranks (g : Graph) (size : Path → Nat) (threshold : Nat) (ranked : List Ranked) :
    Prop where
  exact : ∀ r, r ∈ ranked ↔
    (∃ node ∈ g.files, node.path = r.path) ∧ r.count = size r.path ∧ threshold ≤ r.count
  ordered : ranked.Pairwise Ranked.Above
  distinct : Distinct (ranked.map (·.path))

/-- Ranks are sorted by falling counts, and by paths where these agree. -/
theorem Ranked.before_iff {a b : Ranked} :
    a.before b = true ↔ b.count < a.count ∨ a.count = b.count ∧ a.path.precedes b.path = true := by
  simp [Ranked.before]

/-- Of two ranks one comes first. -/
theorem Ranked.before_total (a b : Ranked) : (a.before b || b.before a) = true := by
  have htotal := precedes_total a.path b.path
  rw [Bool.or_eq_true] at htotal ⊢
  rw [before_iff, before_iff]
  rcases Nat.lt_trichotomy a.count b.count with hlt | heq | hgt
  · exact Or.inr (Or.inl hlt)
  · exact htotal.imp (fun h => Or.inr ⟨heq, h⟩) fun h => Or.inr ⟨heq.symm, h⟩
  · exact Or.inl (Or.inl hgt)

/-- The order of ranks is transitive. -/
theorem Ranked.before_trans {a b c : Ranked} (hab : a.before b = true) (hbc : b.before c = true) :
    a.before c = true := by
  rw [before_iff] at *
  rcases hab with hab | ⟨hab, hab'⟩
  · omega
  · rcases hbc with hbc | ⟨hbc, hbc'⟩
    · omega
    · exact Or.inr ⟨hab.trans hbc, precedes_trans hab' hbc'⟩

/-- Among different files the order is strict. -/
theorem Ranked.above_of_before {a b : Ranked} (h : a.before b = true) (hne : ¬a.path.Same b.path) :
    a.Above b := by
  rcases before_iff.1 h with hcount | ⟨hcount, hpath⟩
  · exact Or.inl hcount
  · refine Or.inr ⟨hcount, ?_⟩
    rw [precedes, Ordering.isLE_iff_eq_lt_or_eq_eq] at hpath
    exact hpath.resolve_right fun heq => hne (Std.LawfulEqOrd.eq_of_compare heq)

/-- **Rankings.** The files with a high count, sorted, are a ranking. -/
theorem ranks_ranking (g : Graph) (size : Path → Nat) (threshold : Nat) :
    g.Ranks size threshold (ranking threshold (g.ranksBy size)) := by
  -- Sorting keeps the files apart, so that no two of them are equal in the order.
  have hdistinct : (ranking threshold (g.ranksBy size)).Pairwise fun a b =>
      ¬a.path.Same b.path := by
    refine List.Pairwise.perm ?_ (List.mergeSort_perm _ _).symm fun hne hsame => hne hsame.symm
    exact ((g.increasing_ranksBy size).imp Before.not_same).filter _
  have hsorted : (ranking threshold (g.ranksBy size)).Pairwise fun a b => a.before b = true :=
    List.pairwise_mergeSort (fun a b c => Ranked.before_trans (a := a) (b := b) (c := c))
      Ranked.before_total _
  constructor
  case exact =>
    intro r
    rw [ranking, List.mem_mergeSort, List.mem_filter, mem_ranksBy, and_assoc, decide_eq_true_iff]
  case ordered => exact hsorted.imp₂ (fun _ _ => Ranked.above_of_before) hdistinct
  case distinct => exact List.pairwise_map.2 hdistinct

/-! ### The highest count -/

/-- The first of some files that has the highest count of them. -/
def Leads (best : Ranked) (files : List Ranked) : Prop :=
  ∃ front back, files = front ++ best :: back ∧ (∀ r ∈ front, r.count < best.count) ∧
    ∀ r ∈ back, r.count ≤ best.count

variable {best : Ranked} {files : List Ranked}

/-- **One file more.** It takes the lead if its count is higher, and leaves it otherwise. -/
theorem Leads.concat (h : Leads best files) (f : Ranked) :
    Leads (if best.count < f.count then f else best) (files ++ [f]) := by
  obtain ⟨front, back, rfl, hfront, hback⟩ := h
  split
  -- A larger count takes the lead, an equal one does not.
  case isTrue hlt =>
    refine ⟨front ++ best :: back, [], rfl, fun r hr => ?_, by simp⟩
    rw [List.mem_append, List.mem_cons] at hr
    rcases hr with hr | rfl | hr
    · exact (hfront r hr).trans hlt
    · exact hlt
    · exact (hback r hr).trans_lt hlt
  case isFalse hle =>
    refine ⟨front, back ++ [f], by simp, hfront, fun r hr => ?_⟩
    rw [List.mem_append, List.mem_singleton] at hr
    rcases hr with hr | rfl
    · exact hback r hr
    · omega

/-- **All the files.** Going through more files, the lead stays with the first of the highest. -/
theorem Leads.foldl (h : Leads best files) (more : List Ranked) :
    Leads (more.foldl (fun best f => if best.count < f.count then f else best) best)
      (files ++ more) := by
  induction more generalizing best files with
  | nil => simpa using h
  | cons f more ih =>
    have hmore := ih (h.concat f)
    rwa [List.append_assoc, List.singleton_append] at hmore

/-- The highest rank leads the list. -/
theorem leads_highest (h : highest files = some best) : Leads best files := by
  cases files with
  | nil => cases h
  | cons f files =>
    have hfirst : Leads f [f] := ⟨[], [], rfl, by simp, by simp⟩
    obtain rfl := Option.some.inj h
    exact hfirst.foldl files

/-- There is a highest rank unless there is none at all. -/
theorem highest_eq_none_iff : highest files = none ↔ files = [] := by
  cases files with
  | nil => simp [highest]
  | cons f files => simp [highest]

/-- In order of their paths, the leading file comes before all the others with its count. -/
theorem Leads.first (h : Leads best files) (hfiles : files.Pairwise fun a b => a.path.Before b.path)
    (hr : r ∈ files) : r.count ≤ best.count ∧ (r.path.Before best.path → r.count < best.count) := by
  obtain ⟨front, back, rfl, hfront, hback⟩ := h
  rw [List.mem_append, List.mem_cons] at hr
  rcases hr with hr | rfl | hr
  · exact ⟨(hfront r hr).le, fun _ => hfront r hr⟩
  · exact ⟨le_rfl, fun hbefore => absurd (Same.refl _) hbefore.not_same⟩
  · have hbehind : best.path.Before r.path :=
      (List.pairwise_cons.1 (List.pairwise_append.1 hfiles).2.1).1 r hr
    exact ⟨hback r hr, fun hbefore => absurd hbefore hbehind.asymm⟩

/-! ### Summaries -/

/-- The rankings of a summary are about what files import. -/
structure RanksFiles (g : Graph) (s : Summary) : Prop where
  /-- The orphans are the analysed files that no analysed file imports, not even they themselves. -/
  orphans : ∀ p, p ∈ s.orphanFiles ↔
    (∃ node ∈ g.files, node.path = p) ∧ ∀ other ∈ g.files, ¬p.Listed (g.dependenciesOf other.path)
  orphans_increasing : s.orphanFiles.Pairwise Before
  godModules : g.Ranks g.importerCount 20 s.godModules
  highImpact : g.Ranks g.reachCount 10 s.highImpactFiles
  /-- A god module has a high impact, of which only an import of itself is no part. -/
  gods_reach : ∀ r ∈ s.godModules, ∃ r' ∈ s.highImpactFiles, r'.path = r.path ∧
    r.count ≤ r'.count + 1
  top_none : s.maxDependentsFile = none ↔ g.files = []
  /-- The file with the most dependents is the first of those with as many. -/
  top : ∀ p, s.maxDependentsFile = some p →
    (∃ node ∈ g.files, node.path = p) ∧ s.maxDependents = g.importerCount p ∧
    ∀ other ∈ g.files, g.importerCount other.path ≤ g.importerCount p ∧
      (other.path.Before p → g.importerCount other.path < g.importerCount p)

/-- God modules are ranked by importers, from twenty on. -/
theorem ranks_godModules (hg : g.Consistent) : g.Ranks g.importerCount 20 g.summary.godModules := by
  have hranks := g.ranks_ranking g.importerCount godModuleThreshold
  rwa [← dependentRanks_eq hg] at hranks

/-- Files of high impact are ranked by reach, from ten on. -/
theorem ranks_highImpactFiles (hg : g.Consistent) :
    g.Ranks g.reachCount 10 g.summary.highImpactFiles := by
  have hranks := g.ranks_ranking g.reachCount highImpactThreshold
  rwa [← impactRanks_eq hg] at hranks

/-- Orphans are the files of rank zero. -/
theorem orphanFiles_eq (hg : g.Consistent) :
    g.summary.orphanFiles = ((g.ranksBy g.importerCount).filter (·.count == 0)).map (·.path) := by
  rw [← dependentRanks_eq hg]
  rfl

/-- Orphans are the analysed files that nothing imports. -/
theorem mem_orphanFiles (hg : g.Consistent) :
    p ∈ g.summary.orphanFiles ↔ (∃ node ∈ g.files, node.path = p) ∧ g.importerCount p = 0 := by
  rw [orphanFiles_eq hg, List.mem_map]
  simp only [List.mem_filter, mem_ranksBy, beq_iff_eq]
  constructor
  · rintro ⟨r, ⟨⟨hnode, hcount⟩, hzero⟩, rfl⟩
    exact ⟨hnode, hcount.symm.trans hzero⟩
  · rintro ⟨hnode, hzero⟩
    exact ⟨⟨p, 0⟩, ⟨⟨hnode, hzero.symm⟩, rfl⟩, rfl⟩

/-- The top file is the one with the highest rank. -/
theorem exists_highest (hg : g.Consistent) (h : g.summary.maxDependentsFile = some p) :
    ∃ best, highest (g.ranksBy g.importerCount) = some best ∧ best.path = p ∧
      g.summary.maxDependents = best.count := by
  obtain ⟨best, hbest, rfl⟩ := Option.map_eq_some_iff.1 h
  refine ⟨best, ?_, rfl, ?_⟩
  · rw [← dependentRanks_eq hg]
    exact hbest
  · show ((highest g.dependentRanks).map (·.count)).getD 0 = best.count
    rw [hbest]
    rfl

/-- **What is ranked.** After every history, the orphans of the summary are in order the analysed
    files that no analysed file imports. God modules are the files that at least twenty files
    import, and files of high impact those that at least ten others reach through imports, with
    these numbers, each file once, the highest number first and files with the same number in order.
    Every god module has a high impact, with at most one file less. The file with the most
    dependents is the first of those with as many. -/
theorem summary_ranks (root : Path) (edits : List Edit) :
    (replay root edits).RanksFiles (replay root edits).summary := by
  have hg := consistent_replay root edits
  constructor
  case orphans =>
    intro p
    rw [mem_orphanFiles hg, importerCount_eq_zero_iff hg]
  case orphans_increasing =>
    rw [orphanFiles_eq hg, List.pairwise_map]
    exact (increasing_ranksBy _ _).filter _
  case godModules => exact ranks_godModules hg
  case highImpact => exact ranks_highImpactFiles hg
  -- Whoever has twenty importers is reached by ten files.
  case gods_reach =>
    intro r hr
    obtain ⟨hnode, hcount, hmany⟩ := ((ranks_godModules hg).exact r).1 hr
    have hle := importerCount_le hg r.path
    refine ⟨⟨r.path, (replay root edits).reachCount r.path⟩, ?_, rfl, ?_⟩
    · refine ((ranks_highImpactFiles hg).exact _).2 ⟨hnode, rfl, ?_⟩
      show 10 ≤ (replay root edits).reachCount r.path
      omega
    · rw [hcount]
      exact hle
  case top_none =>
    show (highest _).map _ = none ↔ _
    rw [Option.map_eq_none_iff, highest_eq_none_iff, dependentRanks, List.map_eq_nil_iff]
  case top =>
    intro p hp
    obtain ⟨best, hbest, rfl, hmax⟩ := exists_highest hg hp
    have hleads := leads_highest hbest
    have hmem : best ∈ (replay root edits).ranksBy (replay root edits).importerCount := by
      obtain ⟨front, back, heq, -⟩ := hleads
      rw [heq]
      simp
    obtain ⟨hnode, hcount⟩ := mem_ranksBy.1 hmem
    refine ⟨hnode, hmax.trans hcount, fun other hother => ?_⟩
    have hfirst := hleads.first (increasing_ranksBy _ _) (List.mem_map_of_mem hother)
    rwa [hcount] at hfirst

end BlastRadius.Graph
