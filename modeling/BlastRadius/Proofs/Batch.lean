import BlastRadius.Proofs.Coalesce
import BlastRadius.Proofs.Incremental

namespace BlastRadius.Project

/-!
# Applying a batch of changes

The changes of a batch are applied one after another, each to the file that its path leads to.

* `identity_congr` — spellings of one path lead to one file.
* `get?_applyEach_of_other` — changes of other files leave a file; `get?_applyEach_split` — a file
  that has one change in a batch is after the batch as this change left it.
* `contains_applyEach` — a file is left deleted or present as its last change says.
* `SpelledAlike` — changes of one file are changes of one path.
* `coalesced_by_path` — of the changes of one path a batch has the last. If changes of one file are
  changes of one path, and only then, it has one change of a file, and this is the last.
* `Sample.coalesced_not_by_file` — otherwise the order of the paths decides, and not the order of
  time.
-/

open BlastRadius.Graph Disk BlastRadius.Path

variable {p : Project} {d : Disk} {c : Change} {f : Path} {changes before after batch : List Change}

/-! ### The file of a change -/

/-- Spellings of one path lead to one file. -/
theorem identity_congr (hroot : p.root.Canonical) {x y : Path} (h : x.Same y) :
    p.identity x = p.identity y := by
  unfold identity
  rw [isAbsolute_congr h]
  by_cases hy : y.isAbsolute = true
  · rw [if_pos hy, if_pos hy, normalize_congr h]
  · rw [if_neg hy, if_neg hy]
    refine normalize_congr ?_
    have hy : y.isAbsolute = false := by simpa using hy
    have hx : x.isAbsolute = false := by rw [isAbsolute_congr h, hy]
    unfold Same
    rw [components_join hroot.chars_ne_nil hx, components_join hroot.chars_ne_nil hy,
      show x.components = y.components from h]

/-- A change keeps the root. -/
theorem root_applyChange (p : Project) (d : Disk) (c : Change) :
    (p.applyChange d c).1.root = p.root := by
  rcases applyChange_cases p d c with hnothing | ⟨-, -, node, hrevisited⟩ | ⟨-, hforgotten⟩
  · rw [hnothing]
  · exact hrevisited.root
  · exact hforgotten.root

/-- So do changes one by one. -/
theorem root_applyEach (p : Project) (d : Disk) (changes : List Change) :
    (p.applyEach d changes).1.root = p.root := by
  induction changes generalizing p with
  | nil => rfl
  | cons c changes ih => exact (ih _).trans (root_applyChange p d c)

/-- Which file a path leads to depends on nothing but the root. -/
theorem identity_applyEach (p : Project) (d : Disk) (changes : List Change) (x : Path) :
    (p.applyEach d changes).1.identity x = p.identity x := by
  rw [identity, root_applyEach]
  rfl

/-- Changes leave alone which files are admitted. -/
theorem admits_applyEach (p : Project) (d : Disk) (changes : List Change) (x : Path) :
    (p.applyEach d changes).1.admits x = p.admits x := by
  rw [admits, root_applyEach]
  rfl

/-! ### One file in a batch -/

/-- Changes one by one can be made in two parts. -/
theorem applyEach_append (p : Project) (d : Disk) (before after : List Change) :
    (p.applyEach d (before ++ after)).1 = ((p.applyEach d before).1.applyEach d after).1 := by
  induction before generalizing p with
  | nil => rfl
  | cons c before ih => exact ih _

/-- A change of another file leaves a file. -/
theorem get?_applyChange_of_other (h : ¬(p.identity c.path).Same f) :
    (p.applyChange d c).1.graph.nodes.get? f = p.graph.nodes.get? f := by
  rcases applyChange_cases p d c with hnothing | ⟨-, -, node, hrevisited⟩ | ⟨-, hforgotten⟩
  · rw [hnothing]
  · rw [hrevisited.graph, nodes_addNode, PathMap.get?_insert,
      path_of_analyzeFile? hrevisited.analysis, if_neg h]
  · rw [hforgotten.graph, get?_removeNode_of_ne h]

/-- Changes of other files leave a file. -/
theorem get?_applyEach_of_other (h : ∀ c ∈ changes, ¬(p.identity c.path).Same f) :
    (p.applyEach d changes).1.graph.nodes.get? f = p.graph.nodes.get? f := by
  induction changes generalizing p with
  | nil => rfl
  | cons c changes ih =>
    have hidentity : ∀ x, (p.applyChange d c).1.identity x = p.identity x :=
      identity_applyEach p d [c]
    show ((p.applyChange d c).1.applyEach d changes).1.graph.nodes.get? f = _
    rw [ih fun c' hc' => ?_, get?_applyChange_of_other (h c List.mem_cons_self)]
    rw [hidentity]
    exact h c' (List.mem_cons_of_mem c hc')

/-- After a batch a file is as its last change left it. -/
theorem get?_applyEach_split (h : ∀ c' ∈ after, ¬(p.identity c'.path).Same f) :
    (p.applyEach d (before ++ c :: after)).1.graph.nodes.get? f
      = ((p.applyEach d before).1.applyChange d c).1.graph.nodes.get? f := by
  rw [← List.singleton_append, ← List.append_assoc, applyEach_append, get?_applyEach_of_other,
    applyEach_append]
  · rfl
  · simp only [identity_applyEach]
    exact h

/-- The file of a change that is applied is gone if the change says so, and there if it can be
    read. -/
theorem contains_applyChange (hadmits : p.admits (p.identity c.path) = true) :
    (c.kind = .deleted → (p.applyChange d c).1.graph.contains (p.identity c.path) = false) ∧
    (c.kind ≠ .deleted → ∀ data, d.read (p.identity c.path) = .ok data →
      (p.applyChange d c).1.graph.contains (p.identity c.path) = true) := by
  refine ⟨fun hkind => ?_, fun hkind data hread => ?_⟩
  · rw [applyChange_eq_forget hkind hadmits, (forgotten_forget p _).graph, contains_removeNode]
    simp [Same.refl]
  · obtain ⟨node, hnode⟩ :=
      analyzeFile?_of_read hread p.root ⟨p.aliases, p.known.add (p.identity c.path)⟩
    obtain ⟨-, hrevisited⟩ := revisit_some hnode
    rw [applyChange_eq_revisit hkind hadmits, hrevisited.graph, contains_addNode,
      path_of_analyzeFile? hrevisited.analysis]
    simp [Same.refl]

/-! ### Batches with one change of a file -/

/-- Changes of one file are changes of one path. -/
def SpelledAlike (p : Project) (changes : List Change) : Prop :=
  ∀ c ∈ changes, ∀ c' ∈ changes, (p.identity c.path).Same (p.identity c'.path) → c.path.Same c'.path

instance (p : Project) (changes : List Change) : Decidable (p.SpelledAlike changes) :=
  inferInstanceAs (Decidable (∀ c ∈ changes, ∀ c' ∈ changes, _ → _))

/-- The last change of a file. -/
def lastChangeOf? (p : Project) (changes : List Change) (f : Path) : Option Change :=
  lastChange? (fun c => (p.identity c.path).Same f) changes

/-- No two changes are of one file. -/
def OnePerFile (p : Project) (changes : List Change) : Prop :=
  changes.Pairwise fun c c' => ¬(p.identity c.path).Same (p.identity c'.path)

/-- A file is left as its last change says: it is gone if it was deleted, and there if it can be
    read. -/
theorem contains_applyEach (hlast : p.lastChangeOf? changes (p.identity c.path) = some c)
    (hadmits : p.admits (p.identity c.path) = true) :
    (c.kind = .deleted → (p.applyEach d changes).1.graph.contains (p.identity c.path) = false) ∧
    (c.kind ≠ .deleted → ∀ data, d.read (p.identity c.path) = .ok data →
      (p.applyEach d changes).1.graph.contains (p.identity c.path) = true) := by
  obtain ⟨-, before, after, rfl, hafter⟩ := lastChange?_eq_some_iff.1 hlast
  have hone := contains_applyChange (p := (p.applyEach d before).1) (d := d) (c := c)
    (by rwa [admits_applyEach, identity_applyEach])
  rw [identity_applyEach, Graph.contains, PathMap.contains_eq_isSome_get?] at hone
  rwa [Graph.contains, PathMap.contains_eq_isSome_get?,
    get?_applyEach_split (by simpa using hafter)]

/-- No later change of such a batch is about the same file. -/
theorem OnePerFile.not_same_after (h : p.OnePerFile (before ++ c :: after)) :
    ∀ c' ∈ after, ¬(p.identity c'.path).Same (p.identity c.path) :=
  fun c' hc' hsame => (List.pairwise_cons.1 (List.pairwise_append.1 h).2.1).1 c' hc' hsame.symm

/-- With one change of a file, each is the last of its file. -/
theorem OnePerFile.lastChangeOf?_eq (h : p.OnePerFile changes) (hc : c ∈ changes)
    (hf : (p.identity c.path).Same f) : p.lastChangeOf? changes f = some c := by
  obtain ⟨before, after, rfl⟩ := List.append_of_mem hc
  refine lastChange?_eq_some_iff.2 ⟨decide_eq_true hf, before, after, rfl, fun c' hc' htest => ?_⟩
  have hsame : (p.identity c'.path).Same f := of_decide_eq_true htest
  exact h.not_same_after c' hc' (hsame.trans hf.symm)

/-! ### Batches of changes that arrived -/

variable {window : Nat} {arrivals : List (Change × Nat)}

/-- A change of a batch is one that arrived. -/
theorem mem_of_mem_batch (hbatch : ((Pending.empty window).pushAll arrivals).Delivers batch)
    (hc : c ∈ batch) : c ∈ arrivals.map (·.1) :=
  (test_of_lastChange? (hbatch.mem_iff.1 hc)).1

/-- Every change that arrives has one of its path in the batch. -/
theorem exists_mem_batch (hbatch : ((Pending.empty window).pushAll arrivals).Delivers batch)
    (hc : c ∈ arrivals.map (·.1)) : ∃ c' ∈ batch, c'.path.Same c.path := by
  obtain ⟨last, hlast⟩ :
    ∃ last, lastChange? (fun c' => c'.path.Same c.path) (arrivals.map (·.1)) = some last :=
    exists_lastChange? hc (decide_eq_true (Same.refl c.path))
  have hsame : last.path.Same c.path := by simpa using (test_of_lastChange? hlast).2
  refine ⟨last, hbatch.mem_iff.2 ?_, hsame⟩
  rw [← hlast]
  refine lastChange?_congr fun c' _ => ?_
  rw [decide_eq_decide]
  exact ⟨fun h => h.trans hsame, fun h => h.trans hsame.symm⟩

/-- **One change of a file.** A batch has this exactly if changes of one file are changes of one
    path. -/
theorem onePerFile_iff (hroot : p.root.Canonical)
    (hbatch : ((Pending.empty window).pushAll arrivals).Delivers batch) :
    p.OnePerFile batch ↔ p.SpelledAlike (arrivals.map (·.1)) := by
  constructor
  · intro hone c hc c' hc' hfile
    obtain ⟨b, hb, hbc⟩ := exists_mem_batch hbatch hc
    obtain ⟨b', hb', hbc'⟩ := exists_mem_batch hbatch hc'
    -- Both are the last change of the file in the batch.
    have hlast := hone.lastChangeOf?_eq hb (Same.refl _)
    have hlast' := hone.lastChangeOf?_eq hb' (f := p.identity b.path) (by
      rw [identity_congr hroot hbc, identity_congr hroot hbc']
      exact hfile.symm)
    obtain rfl : b = b' := Option.some.inj (hlast.symm.trans hlast')
    exact hbc.symm.trans hbc'
  · intro halike
    refine hbatch.distinct.imp_of_mem fun {c c'} hc hc' hne hfile => hne ?_
    exact halike c (mem_of_mem_batch hbatch hc) c' (mem_of_mem_batch hbatch hc') hfile

/-- If changes of one file are changes of one path, a batch has the last change of every file. -/
theorem SpelledAlike.lastChangeOf?_batch (h : p.SpelledAlike (arrivals.map (·.1)))
    (hroot : p.root.Canonical) (hbatch : ((Pending.empty window).pushAll arrivals).Delivers batch)
    (f : Path) : p.lastChangeOf? batch f = p.lastChangeOf? (arrivals.map (·.1)) f := by
  cases hlast : p.lastChangeOf? (arrivals.map (·.1)) f with
  | some c =>
    obtain ⟨hc, htest⟩ := test_of_lastChange? hlast
    have hfile : (p.identity c.path).Same f := of_decide_eq_true htest
    refine ((onePerFile_iff hroot hbatch).2 h).lastChangeOf?_eq (hbatch.mem_iff.2 ?_) hfile
    -- The changes of the path are those of the file.
    rw [← hlast]
    refine lastChange?_congr fun c' hc' => ?_
    rw [decide_eq_decide]
    refine ⟨fun hsame => ?_, fun hsame => h c' hc' c hc (hsame.trans hfile.symm)⟩
    rwa [identity_congr hroot hsame]
  | none =>
    cases hbatched : p.lastChangeOf? batch f with
    | none => rfl
    | some c =>
      obtain ⟨hc, htest⟩ := test_of_lastChange? hbatched
      obtain ⟨last, hexists⟩ : ∃ last, p.lastChangeOf? (arrivals.map (·.1)) f = some last :=
        exists_lastChange? (mem_of_mem_batch hbatch hc) htest
      cases hlast.symm.trans hexists

/-- **Coalescing.** A batch has the last change of every path that changed, in the order of the
    paths. Applying it leaves a file as the last change of the file in the batch says. There is at
    most one change of every file exactly if changes of one file are changes of one path; and then
    this is the change of the file that arrived last. -/
theorem coalesced_by_path (p : Project) (hopened : p.Opened) (window : Nat)
    (arrivals : List (Change × Nat)) (batch : List Change)
    (hbatch : ((Pending.empty window).pushAll arrivals).Delivers batch) :
    (∀ c, c ∈ batch ↔ lastChange? (fun c' => c'.path.Same c.path) (arrivals.map (·.1)) = some c) ∧
    batch.Pairwise (fun c c' => c'.path.precedes c.path = false) ∧
    (∀ (d : Disk) (c : Change), p.lastChangeOf? batch (p.identity c.path) = some c →
      p.admits (p.identity c.path) = true →
        (c.kind = .deleted →
          (p.applyChanges d batch).1.graph.contains (p.identity c.path) = false) ∧
        (c.kind ≠ .deleted → ∀ data, d.read (p.identity c.path) = .ok data →
          (p.applyChanges d batch).1.graph.contains (p.identity c.path) = true)) ∧
    (p.OnePerFile batch ↔ p.SpelledAlike (arrivals.map (·.1))) ∧
    (p.SpelledAlike (arrivals.map (·.1)) →
      ∀ f, p.lastChangeOf? batch f = p.lastChangeOf? (arrivals.map (·.1)) f) := by
  have hroot := hopened.canonical
  refine ⟨fun c => hbatch.mem_iff, hbatch.ordered, fun d c hlast hadmits => ?_,
    onePerFile_iff hroot hbatch, fun halike => halike.lastChangeOf?_batch hroot hbatch⟩
  exact contains_applyEach hlast hadmits

namespace Sample

/-- A tree with one script, which is empty. -/
def single : Disk where
  top := .directory [("a.ts", plain "")]
  workdir := []

/-- The one script of the disk. -/
def script : Path :=
  ofString "/a.ts"

/-- The script can be read, and is empty. -/
theorem read_script : single.read script = .ok ⟨[], 0⟩ := rfl

/-- The script is removed and comes back, and both changes say the same path, though not in the same
    letters. -/
def returns : List (Change × Nat) :=
  [(⟨.deleted, ofString "/a.ts"⟩, 0), (⟨.modified, ofString "/u/b.ts"⟩, 10),
    (⟨.created, ofString "//a.ts"⟩, 20)]

/-- The window of the sample closes at 70. -/
theorem returns_settled :
    ((Pending.empty 50).pushAll returns).Delivers
      (((Pending.empty 50).pushAll returns).takeReady 70).1 :=
  .settled (by decide +kernel) (Nat.le_refl 70)

/-- A file that is deleted and comes back under another spelling is analysed in the end. -/
theorem coalesced_by_path_returns :
    (new none).SpelledAlike (returns.map (·.1)) ∧
    (((Pending.empty 50).pushAll returns).takeReady 70).1 =
      [⟨.created, ofString "//a.ts"⟩, ⟨.modified, ofString "/u/b.ts"⟩] ∧
    (new none).OnePerFile (((Pending.empty 50).pushAll returns).takeReady 70).1 ∧
    ((new none).applyChanges single
      (((Pending.empty 50).pushAll returns).takeReady 70).1).1.graph.contains script
      = true := by
  have halike : (new none).SpelledAlike (returns.map (·.1)) := by decide +kernel
  obtain ⟨-, -, hleft, hone, hlast⟩ :=
    coalesced_by_path (new none) (opened_new none) 50 returns _ returns_settled
  refine ⟨halike, by decide +kernel, hone.2 halike, ?_⟩
  have hidentity : (new none).identity (ofString "//a.ts") = script := by decide +kernel
  have hcreated :=
    (hleft single ⟨.created, ofString "//a.ts"⟩ (by rw [hlast halike]; decide +kernel)
    (by decide +kernel)).2 (by decide) ⟨[], 0⟩
  rw [hidentity] at hcreated
  exact hcreated read_script

/-- The script is removed and comes back, and one of the changes says its path from the root of the
    project. -/
def returnsElsewhere : List (Change × Nat) :=
  [(⟨.deleted, ofString "a.ts"⟩, 0), (⟨.created, ofString "/a.ts"⟩, 1)]

/-- **Not by file.** Changes of one file in two spellings are both in the batch, and the order of
    the paths puts the removal last: the file is taken out, though it was created after that and can
    be read. -/
theorem coalesced_not_by_file :
    (new none).Opened ∧
    ((Pending.empty 50).pushAll returnsElsewhere).Delivers
      [⟨.created, ofString "/a.ts"⟩, ⟨.deleted, ofString "a.ts"⟩] ∧
    (new none).identity (ofString "/a.ts") = script ∧
    (new none).identity (ofString "a.ts") = script ∧ (new none).admits script = true ∧
    (∃ data, single.read script = .ok data) ∧
    (new none).lastChangeOf? (returnsElsewhere.map (·.1)) script
      = some ⟨.created, ofString "/a.ts"⟩ ∧
    (((new none).analyze single).applyChanges single
      [⟨.created, ofString "/a.ts"⟩, ⟨.deleted, ofString "a.ts"⟩]).1.graph.contains script
        = false := by
  have hbatch : ((Pending.empty 50).pushAll returnsElsewhere).flush.1 =
      [⟨.created, ofString "/a.ts"⟩, ⟨.deleted, ofString "a.ts"⟩] := by
    decide +kernel
  refine ⟨opened_new none, hbatch ▸ .flushed,
    by decide +kernel, by decide +kernel, by decide +kernel, ⟨_, read_script⟩, by
      decide +kernel, by decide +kernel⟩

end Sample

end BlastRadius.Project
