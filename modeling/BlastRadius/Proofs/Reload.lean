import BlastRadius.Proofs.Order
import BlastRadius.Proofs.View

namespace BlastRadius.Graph

/-!
# Reloading a snapshot

A snapshot keeps the analysed files of a graph, and a graph is made of them again. The history of
the graph is lost with that: an import that was withdrawn because the imported file was taken out
comes back.

* `Faithful` — neighbours are spelled as the analyses spell them; so after every history
  (`faithful_replay`).
* `Alike.of_imports` — faithful graphs with the same analysed files and the same imports are alike.
* `get?_nodes_reload`, `imports_reload` — what stands in a reloaded graph.
* `Spared` — no import of an analysed file was withdrawn since its last analysis.
* `reload_snapshot` — what a reloaded graph has in common with the graph that was saved.
-/

open BlastRadius.Path

variable {g g' : Graph} {node : FileNode} {p q : Path}

/-! ### How neighbours are spelled -/

/-- What a file imports is spelled as in its analysis, and who imports a file is spelled as the
    analysis of the importing file has it. -/
structure Faithful (g : Graph) : Prop where
  imports : ∀ {p q : Path} {node : FileNode} {set : PathSet} {entry : Path × Unit},
    g.nodes.get? p = some node → g.dependencies.get? p = some set → set.slot? q = some entry →
    (PathSet.ofList node.targets).slot? q = some entry
  importers : ∀ {p q : Path} {set : PathSet} {entry : Path × Unit},
    g.dependents.get? p = some set → set.slot? q = some entry →
    ∃ node, g.nodes.get? q = some node ∧ entry = (node.path, ())

/-- The empty graph is faithful. -/
theorem faithful_empty (root : Path) : (empty root).Faithful where
  imports hnode := by
    rw [empty, PathMap.get?_empty] at hnode
    cases hnode
  importers hset := by
    rw [empty, PathMap.get?_empty] at hset
    cases hset

/-- A member of a set without `p` is a member of the set, and is not `p`. -/
theorem slot?_of_erase {set : PathSet} {entry : Path × Unit}
    (h : (set.erase p).slot? q = some entry) : ¬p.Same q ∧ set.slot? q = some entry := by
  rw [PathMap.slot?_erase] at h
  split at h
  · cases h
  · next hpq => exact ⟨hpq, h⟩

/-- Adding a node keeps a graph faithful. -/
theorem Faithful.addNode (h : g.Faithful) (hg : g.Consistent) (node : FileNode) :
    (g.addNode node).Faithful where
  imports {p q other set entry} hother hset hslot := by
    rw [nodes_addNode, PathMap.get?_insert] at hother
    rw [get?_dependencies_addNode, dependenciesAfter] at hset
    by_cases hp : node.path.Same p
    · rw [if_pos hp] at hother hset
      cases hother
      cases hset
      exact hslot
    · rw [if_neg hp] at hother hset
      cases hbefore : g.dependencies.get? p with
      | none =>
        -- A set that is made now has no members.
        rw [hbefore] at hset
        split at hset
        · cases hset
          rw [Option.getD_none, PathMap.slot?_empty] at hslot
          cases hslot
        · cases hset
      | some before =>
        have hsame : before = set := by
          rw [hbefore] at hset
          split at hset
          · exact Option.some.inj hset
          · exact Option.some.inj hset
        subst hsame
        exact h.imports hother hbefore hslot
  importers {p q set entry} hset hslot := by
    rw [get?_dependents_addNode hg, dependentsAfter] at hset
    simp only [getD_map_erase] at hset
    rw [nodes_addNode, PathMap.get?_insert]
    -- The members that were there before are other files, and those are left as they were.
    have hothers : ∀ {set : PathSet}, (g.dependents.get? p).getD .empty = set →
        (set.erase node.path).slot? q = some entry →
        ∃ other, (if node.path.Same q then some node else g.nodes.get? q) = some other ∧
          entry = (other.path, ()) := by
      rintro set rfl hslot
      obtain ⟨hq, hslot⟩ := slot?_of_erase hslot
      rw [if_neg hq]
      cases hbefore : g.dependents.get? p with
      | none =>
        rw [hbefore, Option.getD_none, PathMap.slot?_empty] at hslot
        cases hslot
      | some before =>
        rw [hbefore] at hslot
        exact h.importers hbefore hslot
    by_cases hlisted : p.Listed node.targets
    · rw [if_pos hlisted] at hset
      cases hset
      rw [PathSet.add, PathMap.slot?_insert] at hslot
      by_cases hq : node.path.Same q
      · -- The file itself was taken out before it was entered, so it is spelled as it is now.
        rw [if_pos hq, PathMap.slot?_erase, if_pos (Same.refl node.path)] at hslot
        cases hslot
        exact ⟨node, if_pos hq, rfl⟩
      · rw [if_neg hq] at hslot
        exact hothers rfl hslot
    · rw [if_neg hlisted] at hset
      split at hset
      · cases hset
        exact hothers rfl hslot
      · obtain ⟨before, hbefore, rfl⟩ := Option.map_eq_some_iff.1 hset
        exact hothers (by rw [hbefore]; rfl) hslot

/-- So does removing one. -/
theorem Faithful.removeNode (h : g.Faithful) (hg : g.Consistent) (path : Path) :
    (g.removeNode path).Faithful := by
  by_cases hpath : g.contains path = true
  · constructor
    case imports =>
      intro p q node set entry hnode hset hslot
      rw [get?_dependencies_removeNode hg hpath] at hset
      split at hset
      · cases hset
      · next hp =>
        obtain ⟨before, hbefore, rfl⟩ := Option.map_eq_some_iff.1 hset
        rw [get?_removeNode_of_ne hp] at hnode
        exact h.imports hnode hbefore (slot?_of_erase hslot).2
    case importers =>
      intro p q set entry hset hslot
      rw [get?_dependents_removeNode hg hpath] at hset
      split at hset
      · cases hset
      · obtain ⟨before, hbefore, rfl⟩ := Option.map_eq_some_iff.1 hset
        obtain ⟨hq, hslot⟩ := slot?_of_erase hslot
        rw [get?_removeNode_of_ne hq]
        exact h.importers hbefore hslot
  · rw [removeNode_eq_self hpath]
    exact h

/-- Neighbours are spelled as the analyses spell them after every history. -/
theorem faithful_replay (root : Path) (edits : List Edit) : (replay root edits).Faithful := by
  induction edits using List.reverseRecOn with
  | nil => exact faithful_empty root
  | append_singleton edits e ih =>
    have hcons := consistent_replay root edits
    rw [replay_concat]
    cases e with
    | add node => exact ih.addNode hcons node
    | remove path => exact ih.removeNode hcons path

/-! ### Graphs with the same imports -/

/-- What stands in the set of what a file imports. -/
theorem Faithful.slot?_dependencies (h : g.Faithful) (hg : g.Consistent) {entry : Path × Unit} :
    ((g.dependenciesOf? p).getD .empty).slot? q = some entry ↔
      g.Imports p q ∧ ∃ node, g.nodes.get? p = some node ∧
        (PathSet.ofList node.targets).slot? q = some entry := by
  have hmember : ∀ {entry}, ((g.dependenciesOf? p).getD .empty).slot? q = some entry →
      g.Imports p q ∧ ∃ node, g.nodes.get? p = some node ∧
        (PathSet.ofList node.targets).slot? q = some entry := by
    intro entry hslot
    have himports : g.Imports p q := contains_getD.1 (Option.isSome_iff_exists.2 ⟨entry, hslot⟩)
    obtain ⟨node, hnode⟩ := PathMap.contains_iff_exists_get?.1 (hg.analysed p q himports)
    obtain ⟨set, hset, -⟩ := himports
    rw [dependenciesOf?, hset] at hslot
    exact ⟨⟨set, hset, Option.isSome_iff_exists.2 ⟨entry, hslot⟩⟩, node, hnode,
      h.imports hnode hset hslot⟩
  constructor
  · exact hmember
  · rintro ⟨himports, node, hnode, hentry⟩
    obtain ⟨other, hother⟩ := Option.isSome_iff_exists.1 (contains_getD.2 himports)
    -- Whatever stands there is what the analysis says.
    obtain ⟨-, node', hnode', hother'⟩ := hmember hother
    obtain rfl : node = node' := Option.some.inj (hnode.symm.trans hnode')
    obtain rfl : entry = other := Option.some.inj (hentry.symm.trans hother')
    exact hother

/-- What stands in the set of who imports a file. -/
theorem Faithful.slot?_dependents (h : g.Faithful) (hg : g.Consistent) {entry : Path × Unit} :
    ((g.dependentsOf? p).getD .empty).slot? q = some entry ↔
      g.Imports q p ∧ ∃ node, g.nodes.get? q = some node ∧ entry = (node.path, ()) := by
  -- The member is spelled as its node is, so there is only one.
  have hmember : ∀ {entry}, ((g.dependentsOf? p).getD .empty).slot? q = some entry →
      g.Imports q p ∧ ∃ node, g.nodes.get? q = some node ∧ entry = (node.path, ()) := by
    intro entry hslot
    have himported : g.ImportedBy p q := contains_getD.1 (Option.isSome_iff_exists.2 ⟨entry, hslot⟩)
    have himports := (hg.converse p q).1 himported
    obtain ⟨set, hset, -⟩ := himported
    rw [dependentsOf?, hset] at hslot
    exact ⟨himports, h.importers hset hslot⟩
  constructor
  · exact hmember
  · rintro ⟨himports, node, hnode, rfl⟩
    obtain ⟨other, hother⟩ :=
      Option.isSome_iff_exists.1 (contains_getD.2 ((hg.converse p q).2 himports))
    obtain ⟨-, node', hnode', rfl⟩ := hmember hother
    obtain rfl : node = node' := Option.some.inj (hnode.symm.trans hnode')
    exact hother

/-- Graphs with the same analysed files and the same imports are alike, down to the spelling of
    neighbours. -/
theorem Alike.of_imports (h : g.Faithful) (h' : g'.Faithful) (hg : g.Consistent)
    (hg' : g'.Consistent) (hroot : g.root = g'.root)
    (hnodes : ∀ p, g.nodes.get? p = g'.nodes.get? p)
    (himports : ∀ a b, g.Imports a b ↔ g'.Imports a b) : g.Alike g' where
  root := hroot
  nodes := hnodes
  dependents p := by
    refine PathMap.ext_slot? fun q => Option.ext fun entry => ?_
    rw [h.slot?_dependents hg, h'.slot?_dependents hg', himports, hnodes]
  dependencies p := by
    refine PathMap.ext_slot? fun q => Option.ext fun entry => ?_
    rw [h.slot?_dependencies hg, h'.slot?_dependencies hg', himports, hnodes]

/-! ### Reloaded graphs -/

/-- A reloaded graph is built from the files of the snapshot. -/
theorem toGraph_snapshot (g : Graph) (lastUpdated : Nat) :
    (g.snapshot lastUpdated).toGraph = ofNodes g.root g.files := by
  rw [Snapshot.toGraph, snapshot, List.map_map]
  exact congrArg (ofNodes g.root) g.files.map_id

/-- The graph of some analyses is that of a history. -/
theorem ofNodes_eq_replay (root : Path) (nodes : List FileNode) :
    ofNodes root nodes = replay root (nodes.map .add) := by
  rw [ofNodes, replay, List.foldl_map]
  rfl

/-- A graph built from nodes has all of their imports. -/
theorem full_ofNodes (root : Path) (nodes : List FileNode) (p : Path) :
    (ofNodes root nodes).Full p := by
  have hfold : ∀ {g : Graph}, g.Full p → (nodes.foldl Graph.addNode g).Full p := by
    induction nodes with
    | nil => exact id
    | cons node nodes ih => exact fun hg => ih (hg.addNode node)
  exact hfold ((exact_empty root).full p)

/-- A graph built from nodes is consistent. -/
theorem consistent_ofNodes (root : Path) (nodes : List FileNode) :
    (ofNodes root nodes).Consistent := by
  rw [ofNodes_eq_replay]
  exact consistent_replay root _

/-- Where files were only added, every file has all the imports of its analysis. -/
theorem imports_ofNodes {root a b : Path} {nodes : List FileNode} :
    (ofNodes root nodes).Imports a b ↔
      ∃ node, (ofNodes root nodes).nodes.get? a = some node ∧ b.Listed node.targets := by
  constructor
  · intro himports
    have hcontains := (consistent_ofNodes root nodes).analysed a b himports
    obtain ⟨node, hnode⟩ := PathMap.contains_iff_exists_get?.1 hcontains
    obtain ⟨set, hset, hb⟩ := himports
    obtain rfl := Option.some.inj ((full_ofNodes root nodes a node hnode).symm.trans hset)
    exact ⟨node, hnode, (PathSet.contains_ofList _ b).1 hb⟩
  · rintro ⟨node, hnode, hb⟩
    exact ⟨_, full_ofNodes root nodes a node hnode, (PathSet.contains_ofList _ b).2 hb⟩

/-- The files of a graph stand under their paths, each once. -/
theorem get?_of_mem_files (hnode : node ∈ g.files) (hsame : node.path.Same p) :
    g.nodes.get? p = some node := by
  obtain ⟨q, hq⟩ := PathMap.mem_values.1 hnode
  rw [← hq]
  exact g.nodes.get?_congr (hsame.symm.trans (g.keyed q node hq))

/-- A node that is found is a file of the graph. -/
theorem mem_files_of_get? (hnode : g.nodes.get? p = some node) : node ∈ g.files :=
  PathMap.mem_values.2 ⟨p, hnode⟩

/-- A reloaded graph has the analysed files of the graph that was saved. -/
theorem get?_nodes_reload (g : Graph) (p : Path) :
    (ofNodes g.root g.files).nodes.get? p = g.nodes.get? p := by
  cases hnode : g.nodes.get? p with
  | some node =>
    refine get?_ofNodes ⟨node, mem_files_of_get? hnode, g.keyed p node hnode⟩
      fun other hother hsame => ?_
    exact Option.some.inj ((get?_of_mem_files hother hsame).symm.trans hnode)
  | none =>
    by_contra hne
    obtain ⟨node, hget⟩ := Option.ne_none_iff_exists'.1 hne
    have hcontains := PathMap.contains_iff_exists_get?.2 ⟨node, hget⟩
    obtain ⟨other, hother, hsame⟩ := contains_ofNodes.1 hcontains
    rw [get?_of_mem_files hother hsame] at hnode
    cases hnode

/-- A reloaded graph has the same files. -/
theorem files_reload (g : Graph) : (ofNodes g.root g.files).files = g.files :=
  PathMap.values_congr g.get?_nodes_reload

/-- In a reloaded graph every file has all the imports of its analysis. -/
theorem imports_reload {a b : Path} :
    (ofNodes g.root g.files).Imports a b ↔
      ∃ node, g.nodes.get? a = some node ∧ b.Listed node.targets := by
  rw [imports_ofNodes, get?_nodes_reload]

/-! ### Graphs that lost no import -/

/-- No file that an analysed file imports was taken out, while it was analysed itself, since the
    last analysis of the importing file. -/
def Spared (root : Path) (edits : List Edit) : Prop :=
  ∀ earlier node later p, LastAnalysis edits earlier node later p →
    (replay root edits).contains p = true → ∀ t, t.Listed node.targets →
      ¬RemovedIn root (earlier ++ [.add node]) later t

/-- Where no import was removed, the imports are those of the nodes. -/
theorem Spared.imports_iff {root : Path} {edits : List Edit} (h : Spared root edits) {a b : Path} :
    (replay root edits).Imports a b ↔
      ∃ node, (replay root edits).nodes.get? a = some node ∧ b.Listed node.targets := by
  constructor
  · intro himports
    have hcontains := (consistent_replay root edits).analysed a b himports
    obtain ⟨node, hnode⟩ := PathMap.contains_iff_exists_get?.1 hcontains
    obtain ⟨earlier, later, -, hiff⟩ := imports_of_last_analysis root edits hnode
    exact ⟨node, hnode, ((hiff b).1 himports).1⟩
  · rintro ⟨node, hnode, hb⟩
    obtain ⟨earlier, later, hlast, hiff⟩ := imports_of_last_analysis root edits hnode
    have hcontains := PathMap.contains_iff_exists_get?.2 ⟨node, hnode⟩
    exact (hiff b).2 ⟨hb, h earlier node later a hlast hcontains b hb⟩

/-- A graph that lost no import is like its reloaded graph. -/
theorem Spared.alike {root : Path} {edits : List Edit} (h : Spared root edits) :
    (replay root edits).Alike (ofNodes (replay root edits).root (replay root edits).files) := by
  have hreplay := ofNodes_eq_replay (replay root edits).root (replay root edits).files
  refine Alike.of_imports (faithful_replay root edits) ?_ (consistent_replay root edits) ?_
    (root_ofNodes _ _).symm (fun p => (get?_nodes_reload _ p).symm) fun a b => ?_
  · rw [hreplay]
    exact faithful_replay _ _
  · rw [hreplay]
    exact consistent_replay _ _
  · rw [h.imports_iff, imports_reload]

/-- **Reloading.** After every history, the graph of the snapshot has the same root and the same
    analysed files in the same order, and every file has exactly the imports of its analysis, hence
    at least those that it had. If none was withdrawn, everything else that can be asked of the two
    graphs is the same as well. A graph that was reloaded is not changed by reloading it again. -/
theorem reload_snapshot (root : Path) (edits : List Edit) (lastUpdated : Nat) :
    let g := replay root edits
    let reloaded := (g.snapshot lastUpdated).toGraph
    reloaded.root = g.root ∧ reloaded.files = g.files ∧
    (∀ node ∈ g.files, reloaded.dependenciesOf? node.path = some (PathSet.ofList node.targets)) ∧
    (∀ node ∈ g.files, ∀ t, g.Imports node.path t → reloaded.Imports node.path t) ∧
    (Spared root edits →
      (∀ p, reloaded.dependentsOf p = g.dependentsOf p) ∧
      (∀ p, reloaded.dependenciesOf p = g.dependenciesOf p) ∧
      (∀ p, reloaded.impact? p = g.impact? p) ∧ reloaded.cycles = g.cycles ∧
      reloaded.maxDepth = g.maxDepth ∧ reloaded.summary = g.summary) ∧
    ∀ saved again,
      ((reloaded.snapshot saved).toGraph).snapshot again = reloaded.snapshot again := by
  intro g reloaded
  have hreloaded : reloaded = ofNodes g.root g.files := toGraph_snapshot g lastUpdated
  have hroot : reloaded.root = g.root := by rw [hreloaded, root_ofNodes]
  have hfiles : reloaded.files = g.files := by rw [hreloaded, files_reload]
  refine ⟨hroot, hfiles, ?_, ?_, ?_, ?_⟩
  · intro node hnode
    rw [hreloaded]
    refine full_ofNodes _ _ node.path node ?_
    rw [get?_nodes_reload]
    exact get?_of_mem_files hnode (Same.refl node.path)
  · -- Removed files have left some sets, but the node still names them.
    intro node hnode t himports
    have hget := get?_of_mem_files hnode (Same.refl node.path)
    obtain ⟨earlier, later, -, hiff⟩ := imports_of_last_analysis root edits hget
    rw [hreloaded, imports_reload]
    exact ⟨node, hget, ((hiff t).1 himports).1⟩
  · intro hspared
    have halike := hspared.alike
    rw [hreloaded]
    exact ⟨fun p => (congrFun halike.dependentsOf p).symm,
      fun p => (congrFun halike.dependenciesOf p).symm, fun p => (congrFun halike.impact? p).symm,
      halike.cycles.symm, halike.maxDepth.symm, halike.summary.symm⟩
  · intro saved again
    rw [toGraph_snapshot, hroot, hfiles, ← hreloaded]

namespace Sample

/-- Of two files that import each other, one is taken out.  Both are analysed anew after that. -/
def returning : List Edit :=
  [.add (fileAt "/p/a.ts" ["/p/b.ts"]), .add (fileAt "/p/b.ts" ["/p/a.ts"]),
    .remove (.ofString "/p/b.ts"), .add (fileAt "/p/b.ts" ["/p/a.ts"]),
    .add (fileAt "/p/./a.ts" ["/p/b.ts"])]

/-- The file that is taken out comes before the last analyses of both. -/
theorem spared_returning : Spared (.ofString "/p") returning := by
  rintro earlier node later p hlast - t - ⟨before, path, after, rfl, -⟩
  have hsplit := hlast.split
  -- Only the last two edits are last analyses, and nothing is removed behind them.
  match earlier with
  | [] =>
    obtain ⟨⟨⟩, hlater⟩ := List.cons.inj hsplit
    refine hlast.last (fileAt "/p/./a.ts" ["/p/b.ts"]) ?_ (Same.trans (by decide) hlast.path)
    rw [← hlater]
    simp
  | [_] =>
    obtain ⟨-, hsplit⟩ := List.cons.inj hsplit
    obtain ⟨⟨⟩, hlater⟩ := List.cons.inj hsplit
    refine hlast.last (fileAt "/p/b.ts" ["/p/a.ts"]) ?_ hlast.path
    rw [← hlater]
    simp
  | [_, _] => simp [returning] at hsplit
  | [_, _, _] => simp [returning, List.cons_eq_append_iff] at hsplit
  | [_, _, _, _] => simp [returning] at hsplit
  | _ :: _ :: _ :: _ :: _ :: _ => simp [returning] at hsplit

/-- A removed file that comes back is reloaded with all of its dependents. -/
theorem reload_snapshot_returning :
    Spared (.ofString "/p") returning ∧
    (((replay (.ofString "/p") returning).snapshot 0).toGraph).dependentsOf (.ofString "/p/b.ts")
      = (replay (.ofString "/p") returning).dependentsOf (.ofString "/p/b.ts") ∧
    (((replay (.ofString "/p") returning).snapshot 0).toGraph).summary
      = (replay (.ofString "/p") returning).summary := by
  obtain ⟨-, -, -, -, hsame, -⟩ := reload_snapshot (.ofString "/p") returning 0
  obtain ⟨hdependents, -, -, -, -, hsummary⟩ := hsame spared_returning
  exact ⟨spared_returning, hdependents _, hsummary⟩

end Sample

end BlastRadius.Graph
