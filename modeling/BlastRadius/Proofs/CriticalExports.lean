import BlastRadius.Proofs.Rankings

namespace BlastRadius.Graph

/-!
# Which exports are critical

Critical exports are found by way of the set of dependents of a file: the last analysis of each
dependent is looked up and asked for the names that it imports. Where files were only added, this is
a question about the analyses alone.

* `current?` — the analysis of a file that counts, the last one. `get?_nodes_ofNodes` — it is the
  one that is kept.
* `imports_of_current?` — a file imports what its current analysis says.
* `FileNode.ImportsName`, `UsesName` — a name is imported from a file.
* `userCount_eq` — the users that are counted are the files that use the name.
* `criticalExports_eq` — the critical exports of a file, from the analyses.
-/

open BlastRadius.Path

variable {root p x : Path} {nodes : List FileNode} {node : FileNode} {name : String}

/-! ### Current analyses -/

/-- Among analyses in the order of making them, the one of a file that counts. -/
def current? (nodes : List FileNode) (p : Path) : Option FileNode :=
  nodes.reverse.find? fun node => decide (node.path.Same p)

/-- A later node replaces the one before it. -/
theorem current?_concat (nodes : List FileNode) (node : FileNode) (p : Path) :
    current? (nodes ++ [node]) p = if node.path.Same p then some node else current? nodes p := by
  rw [current?, List.reverse_append, List.reverse_singleton, List.singleton_append, List.find?_cons]
  by_cases hsame : node.path.Same p
  · rw [if_pos hsame, decide_eq_true hsame]
  · rw [if_neg hsame, decide_eq_false hsame]
    rfl

/-- A graph keeps the current analysis of each file. -/
theorem get?_nodes_ofNodes (root : Path) (nodes : List FileNode) (p : Path) :
    (ofNodes root nodes).nodes.get? p = current? nodes p := by
  induction nodes using List.reverseRecOn with
  | nil => simp [ofNodes, current?, empty]
  | append_singleton nodes node ih =>
    rw [current?_concat, ofNodes, List.foldl_append, List.foldl_cons, List.foldl_nil, nodes_addNode,
      PathMap.get?_insert]
    rw [ofNodes] at ih
    rw [ih]

/-- A file imports what its current analysis says. -/
theorem imports_of_current? (hnode : current? nodes x = some node) :
    (ofNodes root nodes).Imports x p ↔ p.Listed node.targets := by
  rw [imports_ofNodes, get?_nodes_ofNodes, hnode]
  simp

/-! ### Names that are imported -/

/-- One of the imports of a file has a name from `p`. -/
def FileNode.ImportsName (node : FileNode) (p : Path) (name : String) : Prop :=
  ∃ edge ∈ node.imports, (∃ target, edge.target = some target ∧ target.Same p) ∧ name ∈ edge.symbols

/-- Another file imports a name from `p`, by its current analysis. -/
def UsesName (nodes : List FileNode) (p : Path) (name : String) (x : Path) : Prop :=
  ¬x.Same p ∧ ∃ node, current? nodes x = some node ∧ node.ImportsName p name

/-- The test finds the imports of a name. -/
theorem uses_iff : uses node p name = true ↔ node.ImportsName p name := by
  simp only [uses, FileNode.ImportsName, List.any_eq_true, Bool.and_eq_true, Option.any_eq_true,
    decide_eq_true_eq, List.contains_iff_mem]

/-- Who imports a name of a file imports the file. -/
theorem FileNode.ImportsName.listed_targets (h : node.ImportsName p name) :
    p.Listed node.targets := by
  obtain ⟨edge, hedge, ⟨target, htarget, hsame⟩, -⟩ := h
  exact ⟨target, List.mem_filterMap.2 ⟨edge, hedge, htarget⟩, hsame⟩

/-- Whether the analysis of a file that a graph keeps has a name from `p`. -/
def isUser (g : Graph) (p : Path) (name : String) (x : Path) : Bool :=
  ((g.nodes.get? x).map (uses · p name)).getD false

/-- The users among the analysed files, said with the nodes alone. -/
theorem isUser_ofNodes : (ofNodes root nodes).isUser p name x = true ↔
    ∃ node, current? nodes x = some node ∧ node.ImportsName p name := by
  rw [isUser, get?_nodes_ofNodes]
  cases current? nodes x with
  | none => simp
  | some node => simp [uses_iff]

/-- The users are counted by their number. -/
theorem userCount_eq_length_filter (g : Graph) (files : List Path) (p : Path) (name : String) :
    g.userCount files p name = (files.filter (g.isUser p name)).length := by
  rw [userCount, ← List.countP_eq_length_filter, List.countP_filterMap,
    List.countP_eq_length_filter]
  rfl

/-- The dependents that are counted are the files that use the name. -/
theorem userCount_eq (root : Path) (nodes : List FileNode) (p : Path) (name : String) :
    (ofNodes root nodes).userCount ((ofNodes root nodes).directDependents p) p name
      = fileCount (UsesName nodes p name) := by
  have hdistinct := (distinct_append.1 (distinct_dependents (consistent_ofNodes root nodes) p)).1
  rw [userCount_eq_length_filter]
  apply length_eq_ncard (hdistinct.filter _)
  intro x
  have hspelling : ∀ q, q.Same x →
      (ofNodes root nodes).isUser p name q = (ofNodes root nodes).isUser p name x := by
    intro q hq
    rw [isUser, isUser, (ofNodes root nodes).nodes.get?_congr hq]
  rw [listed_filter hspelling, listed_directDependents (consistent_ofNodes root nodes),
    isUser_ofNodes, and_assoc]
  -- A user imports the file, so that asking for users among its dependents leaves none out.
  refine and_congr_right fun _ => and_iff_right_of_imp ?_
  rintro ⟨node, hnode, huses⟩
  exact (imports_of_current? hnode).2 huses.listed_targets

/-- **Critical exports.** In a graph to which files were only added, possibly several times, the
    critical exports of an analysed file are, in order, those of its exports that more than three
    other files import from it by their current analyses. A file counts once, however many imports
    it has. -/
theorem criticalExports_eq (root : Path) (nodes : List FileNode) (p : Path)
    (h : (ofNodes root nodes).contains p = true) :
    ∃ node impact, current? nodes p = some node ∧ (ofNodes root nodes).impact? p = some impact ∧
      impact.criticalExports
        = node.exportNames.filter fun name => 3 < fileCount (UsesName nodes p name) := by
  obtain ⟨node, hnode⟩ := PathMap.contains_iff_exists_get?.1 h
  refine ⟨node, _, ?_, impact?_of_node hnode, ?_⟩
  · rw [← get?_nodes_ofNodes root, hnode]
  · apply List.filter_congr
    intro name _
    rw [userCount_eq, criticalThreshold]

namespace Sample

/-- A file that exports some names and imports others from elsewhere. -/
def sharing (path : String) (exports : List String) (imports : List (String × List String)) :
    FileNode :=
  { fileAt path [] with
    exports := exports.map fun name => ⟨name, .function, 1, false, none⟩
    imports := imports.map fun entry =>
      ⟨.ofString path, some (.ofString entry.1), entry.1, entry.2, false, false, 1⟩ }

/-- Four files use one export and three another one, since the first two analyses do not count any
    more. The file also imports from itself. -/
def shared : List FileNode :=
  [sharing "/p/e.ts" [] [("/p/lib.ts", ["rare"])],
    sharing "/p/lib.ts" ["old"] [],
    sharing "/p/lib.ts" ["rare", "common"] [("/p/lib.ts", ["rare", "common"])],
    sharing "/p/a.ts" [] [("/p/lib.ts", ["rare"]), ("/p/./lib.ts", ["rare", "common"])],
    sharing "/p/b.ts" [] [("/p/lib.ts", ["rare", "common"])],
    sharing "/p/c.ts" [] [("/p/lib.ts", ["rare"]), ("/p/lib.ts", ["common"])],
    sharing "/p/d.ts" [] [("/p/lib.ts", ["common"])],
    sharing "/p/e.ts" [] []]

/-- Of the sample library, only the export with four users is critical. -/
theorem criticalExports_eq_shared :
    (ofNodes (.ofString "/p") shared).contains (.ofString "/p/lib.ts") = true ∧
    (∃ node impact, current? shared (.ofString "/p/lib.ts") = some node ∧
      (ofNodes (.ofString "/p") shared).impact? (.ofString "/p/lib.ts") = some impact ∧
      impact.criticalExports = node.exportNames.filter fun name =>
        3 < fileCount (UsesName shared (.ofString "/p/lib.ts") name)) ∧
    ((ofNodes (.ofString "/p") shared).impact? (.ofString "/p/lib.ts")).map (·.criticalExports)
      = some ["common"] := by
  have hcontains : (ofNodes (.ofString "/p") shared).contains (.ofString "/p/lib.ts") = true := by
    decide +kernel
  exact ⟨hcontains, criticalExports_eq _ _ _ hcontains, by decide +kernel⟩

end Sample

end BlastRadius.Graph
