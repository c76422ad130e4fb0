import BlastRadius.Graph.Basic
import BlastRadius.Proofs.PathMap
import Mathlib.Data.List.Induction

namespace BlastRadius.Graph

/-!
# The two adjacency maps agree

A graph changes only by putting analysed files in and taking them out.  This file says what the two
adjacency maps hold after any such history:

* `Imports`, `ImportedBy` — the two maps read as relations between files.
* `Consistent` — the relations are converse to each other, the maps have the same keys, every
  analysed file is a key, and only analysed files import something.
* `imports_addNode`, `imports_removeNode` — what one change does to the imports.
* `consistent_addNode`, `consistent_removeNode` — one change keeps the maps consistent.
* `replay` — the graph after a history; `consistent_replay` for every history, and
  `replay_adjacency` for what every set holds exactly.
-/

open BlastRadius.Path

variable {sets : PathMap PathSet} {p q a b member : Path}

/-! ### Sets of neighbours -/

/-- `b` is a member of the set under `a`. -/
def Has (sets : PathMap PathSet) (a b : Path) : Prop :=
  ∃ set, sets.get? a = some set ∧ set.contains b = true

/-- Having an entry does not hang on the spelling of either path. -/
theorem has_congr {a' b' : Path} (ha : a.Same a') (hb : b.Same b') :
    Has sets a b ↔ Has sets a' b' := by
  unfold Has
  rw [sets.get?_congr ha]
  simp only [fun set : PathSet => set.contains_congr hb]

/-- There are no entries without sets. -/
@[simp] theorem not_has_empty (a b : Path) : ¬Has .empty a b := by
  simp [Has]

/-- Putting a set under `p` replaces the one there. -/
theorem has_insert {set : PathSet} :
    Has (sets.insert p set) a b ↔ if p.Same a then set.contains b = true else Has sets a b := by
  unfold Has
  rw [PathMap.get?_insert]
  by_cases h : p.Same a
  · simp [h]
  · simp [h]

/-- Erasing a set takes away its entries. -/
theorem has_erase : Has (sets.erase p) a b ↔ ¬p.Same a ∧ Has sets a b := by
  unfold Has
  rw [PathMap.get?_erase]
  by_cases h : p.Same a
  · simp [h]
  · simp [h]

/-- What has an entry has a set. -/
theorem contains_of_has (h : Has sets a b) : sets.contains a = true := by
  obtain ⟨set, hset, -⟩ := h
  exact PathMap.contains_iff_exists_get?.2 ⟨set, hset⟩

/-- Withdrawing takes away one entry. -/
theorem has_withdraw :
    Has (withdraw sets p member) a b ↔ Has sets a b ∧ ¬(p.Same a ∧ member.Same b) := by
  unfold withdraw
  cases hget : sets.get? p with
  | none =>
    -- There is no set to withdraw from, hence nothing that the right side could leave out.
    have hnot : p.Same a → ¬Has sets a b := by
      rintro hpa ⟨set, hset, -⟩
      rw [← sets.get?_congr hpa, hget] at hset
      cases hset
    tauto
  | some set =>
    rw [has_insert, PathMap.contains_erase]
    by_cases hpa : p.Same a
    · have hset : Has sets a b ↔ set.contains b = true := by
        unfold Has
        rw [← sets.get?_congr hpa, hget]
        simp
      simp only [hpa, if_true, hset, true_and, Bool.and_eq_true, Bool.not_eq_true',
        decide_eq_false_iff_not]
      tauto
    · simp [hpa]

/-- Withdrawing keeps every set, also one that becomes empty. -/
theorem contains_withdraw : (withdraw sets p member).contains a = sets.contains a := by
  unfold withdraw
  cases hget : sets.get? p with
  | none => rfl
  | some set =>
    rw [PathMap.contains_insert]
    by_cases hpa : p.Same a
    · have : sets.contains a = true := by
        rw [← sets.contains_congr hpa]
        exact PathMap.contains_iff_exists_get?.2 ⟨set, hget⟩
      simp [this]
    · simp [hpa]

/-- Entering adds one entry. -/
theorem has_enter : Has (enter sets p member) a b ↔ Has sets a b ∨ p.Same a ∧ member.Same b := by
  unfold enter
  rw [has_insert, PathSet.contains_add]
  by_cases hpa : p.Same a
  · have hset : Has sets a b ↔ ((sets.get? p).getD .empty).contains b = true := by
      unfold Has
      rw [← sets.get?_congr hpa]
      cases sets.get? p with
      | none => simp
      | some set => simp
    simp only [hpa, if_true, hset, true_and, Bool.or_eq_true, decide_eq_true_eq]
    tauto
  · simp [hpa]

/-- Entering adds the set that it needs. -/
theorem contains_enter :
    (enter sets p member).contains a = (decide (p.Same a) || sets.contains a) :=
  PathMap.contains_insert ..

/-- Ensuring a set adds no entry. -/
theorem has_ensure : Has (ensure sets p) a b ↔ Has sets a b := by
  unfold ensure
  by_cases hp : sets.contains p = true
  · simp [hp]
  · rw [if_neg hp, has_insert]
    by_cases hpa : p.Same a
    · -- The new set is empty, and there was none before.
      have hnot : ¬Has sets a b :=
        fun h => hp (by rw [sets.contains_congr hpa]; exact contains_of_has h)
      simp [hpa, hnot]
    · simp [hpa]

/-- Ensuring a set adds it. -/
theorem contains_ensure : (ensure sets p).contains a = (decide (p.Same a) || sets.contains a) := by
  unfold ensure
  by_cases hp : sets.contains p = true
  · by_cases hpa : p.Same a
    · have : sets.contains a = true := by rw [← sets.contains_congr hpa]; exact hp
      simp [hp, this]
    · simp [hp, hpa]
  · rw [if_neg hp, PathMap.contains_insert]

/-! ### The same change under every path of a list -/

/-- Withdrawing a member from several sets takes away its entries there. -/
theorem has_foldl_withdraw (ps : List Path) (sets : PathMap PathSet) :
    Has (ps.foldl (fun sets p => withdraw sets p member) sets) a b
      ↔ Has sets a b ∧ ¬(a.Listed ps ∧ member.Same b) := by
  induction ps generalizing sets with
  | nil => simp
  | cons p ps ih =>
    rw [List.foldl_cons, ih, has_withdraw, listed_cons]
    tauto

/-- Withdrawing a member from several sets keeps every set. -/
theorem contains_foldl_withdraw (ps : List Path) (sets : PathMap PathSet) :
    (ps.foldl (fun sets p => withdraw sets p member) sets).contains a = sets.contains a := by
  induction ps generalizing sets with
  | nil => rfl
  | cons p ps ih => rw [List.foldl_cons, ih, contains_withdraw]

/-- Entering a member into several sets adds its entries there. -/
theorem has_foldl_enter (ps : List Path) (sets : PathMap PathSet) :
    Has (ps.foldl (fun sets p => enter sets p member) sets) a b
      ↔ Has sets a b ∨ a.Listed ps ∧ member.Same b := by
  induction ps generalizing sets with
  | nil => simp
  | cons p ps ih =>
    rw [List.foldl_cons, ih, has_enter, listed_cons]
    tauto

/-- Entering a member into several sets adds those sets. -/
theorem contains_foldl_enter (ps : List Path) (sets : PathMap PathSet) :
    (ps.foldl (fun sets p => enter sets p member) sets).contains a = true
      ↔ sets.contains a = true ∨ a.Listed ps := by
  induction ps generalizing sets with
  | nil => simp
  | cons p ps ih =>
    rw [List.foldl_cons, ih, contains_enter, listed_cons, Bool.or_eq_true, decide_eq_true_eq]
    tauto

/-- Ensuring several sets adds no entry. -/
theorem has_foldl_ensure (ps : List Path) (sets : PathMap PathSet) :
    Has (ps.foldl ensure sets) a b ↔ Has sets a b := by
  induction ps generalizing sets with
  | nil => rfl
  | cons p ps ih => rw [List.foldl_cons, ih, has_ensure]

/-- Ensuring several sets adds them. -/
theorem contains_foldl_ensure (ps : List Path) (sets : PathMap PathSet) :
    (ps.foldl ensure sets).contains a = true ↔ sets.contains a = true ∨ a.Listed ps := by
  induction ps generalizing sets with
  | nil => simp
  | cons p ps ih =>
    rw [List.foldl_cons, ih, contains_ensure, listed_cons, Bool.or_eq_true, decide_eq_true_eq]
    tauto

/-! ### One change -/

variable {g : Graph} {node : FileNode}

/-- `a` has `b` among its imports. -/
def Imports (g : Graph) (a b : Path) : Prop :=
  Has g.dependencies a b

/-- `a` has `b` among its dependents. -/
def ImportedBy (g : Graph) (a b : Path) : Prop :=
  Has g.dependents a b

/-- Importing does not hang on the spelling of either file. -/
theorem imports_congr {a' b' : Path} (ha : a.Same a') (hb : b.Same b') :
    g.Imports a b ↔ g.Imports a' b' :=
  has_congr ha hb

/-- Whether a file is analysed does not hang on its spelling. -/
theorem contains_congr (g : Graph) (h : a.Same b) : g.contains a = g.contains b :=
  g.nodes.contains_congr h

/-- The list of what a file imports is its set of imports. -/
theorem listed_dependenciesOf : b.Listed (g.dependenciesOf a) ↔ g.Imports a b := by
  unfold dependenciesOf dependenciesOf? Imports Has
  cases g.dependencies.get? a with
  | none => simp
  | some set => simp [PathMap.listed_paths]

/-- The list of who imports a file is its set of dependents. -/
theorem listed_dependentsOf : b.Listed (g.dependentsOf a) ↔ g.ImportedBy a b := by
  unfold dependentsOf dependentsOf? ImportedBy Has
  cases g.dependents.get? a with
  | none => simp
  | some set => simp [PathMap.listed_paths]

/-- No file is a dependent twice. -/
theorem distinct_dependentsOf (g : Graph) (p : Path) : Distinct (g.dependentsOf p) := by
  unfold dependentsOf
  cases g.dependentsOf? p with
  | none => exact List.Pairwise.nil
  | some set => exact set.distinct_paths

/-- The two adjacency maps of a graph fit together and fit the analysed files. -/
structure Consistent (g : Graph) : Prop where
  converse : ∀ a b, g.ImportedBy a b ↔ g.Imports b a
  same_keys : ∀ a, g.dependents.contains a = g.dependencies.contains a
  contains_key : ∀ a, g.contains a = true → g.dependencies.contains a = true
  analysed : ∀ a b, g.Imports a b → g.contains a = true

/-- A graph without files is consistent. -/
theorem consistent_empty (root : Path) : (empty root).Consistent where
  converse a b := by simp [ImportedBy, Imports, empty]
  same_keys a := by simp [empty]
  contains_key a h := by simp [empty, contains] at h
  analysed a b h := by simp [Imports, empty] at h

/-- Retracting a file takes away its imports. -/
theorem imports_retract : (g.retract p).Imports a b ↔ ¬p.Same a ∧ g.Imports a b :=
  has_erase

/-- Retracting a file takes it off the dependents of what it imports. -/
theorem importedBy_retract :
    (g.retract p).ImportedBy a b ↔ g.ImportedBy a b ∧ ¬(g.Imports p a ∧ p.Same b) := by
  unfold ImportedBy retract
  rw [has_foldl_withdraw, listed_dependenciesOf]

/-- Retracting the imports of a file keeps the two relations converse to each other. -/
theorem converse_retract (h : g.Consistent) :
    (g.retract p).ImportedBy a b ↔ (g.retract p).Imports b a := by
  rw [importedBy_retract, imports_retract, h.converse]
  -- The sets are told apart by spelling nowhere, so `p` may be put for any path that is the same.
  constructor
  · rintro ⟨hba, hnot⟩
    exact ⟨fun hpb => hnot ⟨(imports_congr hpb (Same.refl a)).2 hba, hpb⟩, hba⟩
  · rintro ⟨hnot, hba⟩
    exact ⟨hba, fun hpb => hnot hpb.2⟩

/-- The graph that a new analysis is entered into: the imports of an earlier one are gone. -/
def cleared (g : Graph) (p : Path) : Graph :=
  if g.contains p then g.retract p else g

/-- Clearing a file takes away its imports, whether it was analysed or not. -/
theorem imports_cleared (h : g.Consistent) :
    (g.cleared p).Imports a b ↔ ¬p.Same a ∧ g.Imports a b := by
  unfold cleared
  by_cases hp : g.contains p = true
  · rw [if_pos hp, imports_retract]
  · -- A file that is not analysed has no imports to begin with.
    rw [if_neg hp]
    refine ⟨fun hab => ⟨fun hpa => hp ?_, hab⟩, And.right⟩
    rw [g.contains_congr hpa]
    exact h.analysed a b hab

/-- Clearing a file keeps the two maps converse. -/
theorem converse_cleared (h : g.Consistent) :
    (g.cleared p).ImportedBy a b ↔ (g.cleared p).Imports b a := by
  unfold cleared
  by_cases hp : g.contains p = true
  · rw [if_pos hp]
    exact converse_retract h
  · rw [if_neg hp]
    exact h.converse a b

/-- Clearing a file keeps every set of dependents. -/
theorem contains_dependents_cleared :
    (g.cleared p).dependents.contains a = g.dependents.contains a := by
  unfold cleared
  by_cases hp : g.contains p = true
  · rw [if_pos hp]
    exact contains_foldl_withdraw ..
  · rw [if_neg hp]

/-- Clearing a file keeps the sets of imports of all others. -/
theorem contains_dependencies_cleared (hpa : ¬p.Same a) :
    (g.cleared p).dependencies.contains a = g.dependencies.contains a := by
  unfold cleared
  by_cases hp : g.contains p = true
  · rw [if_pos hp, retract, PathMap.contains_erase]
    simp [hpa]
  · rw [if_neg hp]

/-- Clearing a file keeps the nodes. -/
theorem nodes_cleared : (g.cleared p).nodes = g.nodes := by
  unfold cleared
  split
  · rfl
  · rfl

/-- What an analysed file leaves in the adjacency maps, given those of the cleared graph. -/
theorem addNode_eq (g : Graph) (node : FileNode) :
    g.addNode node =
      { g.cleared node.path with
        dependents := ensure
          ((PathSet.ofList node.targets).paths.foldl
            (fun sets target => enter sets target node.path) (g.cleared node.path).dependents)
          node.path
        dependencies := ((PathSet.ofList node.targets).paths.foldl ensure
          (g.cleared node.path).dependencies).insert node.path (PathSet.ofList node.targets)
        nodes := (g.cleared node.path).nodes.insert node.path node
        keyed := (g.cleared node.path).keyed.insert node } := rfl

/-- Adding a file puts its node under its path. -/
theorem nodes_addNode : (g.addNode node).nodes = g.nodes.insert node.path node := by
  rw [addNode_eq]
  exact congrArg (·.insert node.path node) nodes_cleared

/-- Adding a file makes it an analysed one. -/
theorem contains_addNode :
    (g.addNode node).contains a = (decide (node.path.Same a) || g.contains a) := by
  unfold contains
  rw [nodes_addNode, PathMap.contains_insert]

/-- A new analysis brings exactly its own imports, and leaves those of all other files. -/
theorem imports_addNode (h : g.Consistent) :
    (g.addNode node).Imports a b ↔
      if node.path.Same a then b.Listed node.targets else g.Imports a b := by
  have hstart : (g.addNode node).Imports a b ↔
      if node.path.Same a then (PathSet.ofList node.targets).contains b = true
      else Has (g.cleared node.path).dependencies a b := by
    rw [addNode_eq, Imports, has_insert, has_foldl_ensure]
  rw [hstart, PathSet.contains_ofList]
  by_cases hpa : node.path.Same a
  · rw [if_pos hpa, if_pos hpa]
  · rw [if_neg hpa, if_neg hpa]
    exact (imports_cleared h).trans (and_iff_right hpa)

/-- Adding a file makes it a dependent of its targets, and of nothing else. -/
theorem importedBy_addNode (h : g.Consistent) :
    (g.addNode node).ImportedBy a b ↔
      if node.path.Same b then a.Listed node.targets else g.ImportedBy a b := by
  have hstart : (g.addNode node).ImportedBy a b ↔
      (g.cleared node.path).ImportedBy a b ∨ a.Listed node.targets ∧ node.path.Same b := by
    rw [addNode_eq, ImportedBy, has_ensure, has_foldl_enter, PathSet.listed_paths_ofList]
    exact Iff.rfl
  rw [hstart, converse_cleared h, imports_cleared h, h.converse]
  by_cases hpb : node.path.Same b
  · simp [hpb]
  · simp [hpb]

/-- **Putting a file in** keeps the adjacency maps consistent. -/
theorem consistent_addNode (h : g.Consistent) (node : FileNode) : (g.addNode node).Consistent where
  converse a b := by
    rw [importedBy_addNode h, imports_addNode h, h.converse]
  same_keys a := by
    rw [addNode_eq, Bool.eq_iff_iff, contains_ensure, PathMap.contains_insert, Bool.or_eq_true,
      Bool.or_eq_true, contains_foldl_enter, contains_foldl_ensure, decide_eq_true_eq,
      contains_dependents_cleared, h.same_keys]
    -- Clearing erases the key of the file itself, which both maps get back at the end.
    by_cases hpa : node.path.Same a
    · simp [hpa]
    · rw [contains_dependencies_cleared hpa]
  contains_key a ha := by
    rw [contains_addNode, Bool.or_eq_true, decide_eq_true_eq] at ha
    rw [addNode_eq, PathMap.contains_insert, Bool.or_eq_true, decide_eq_true_eq,
      contains_foldl_ensure]
    by_cases hpa : node.path.Same a
    · exact Or.inl hpa
    · rw [contains_dependencies_cleared hpa]
      exact Or.inr (Or.inl (h.contains_key a (ha.resolve_left hpa)))
  analysed a b hab := by
    rw [imports_addNode h] at hab
    rw [contains_addNode, Bool.or_eq_true, decide_eq_true_eq]
    by_cases hpa : node.path.Same a
    · exact Or.inl hpa
    · rw [if_neg hpa] at hab
      exact Or.inr (h.analysed a b hab)

/-- What is left in the adjacency maps when an analysed file is taken out. -/
theorem removeNode_eq (hp : g.contains p = true) :
    g.removeNode p =
      { g.retract p with
        dependents := (g.retract p).dependents.erase p
        dependencies := ((g.retract p).dependentsOf p).foldl
          (fun sets dependent => withdraw sets dependent p) (g.retract p).dependencies
        nodes := g.nodes.erase p
        keyed := g.keyed.erase p } := by
  rw [removeNode, if_pos hp]
  rfl

/-- Removing a file that is not analysed changes nothing. -/
theorem removeNode_eq_self (hp : ¬g.contains p = true) : g.removeNode p = g :=
  if_neg hp

/-- Removing a file takes out its node. -/
theorem nodes_removeNode (hp : g.contains p = true) : (g.removeNode p).nodes = g.nodes.erase p := by
  rw [removeNode_eq hp]

/-- Taking a file out leaves the others. -/
theorem get?_removeNode_of_ne (h : ¬p.Same a) : (g.removeNode p).nodes.get? a = g.nodes.get? a := by
  by_cases hp : g.contains p = true
  · rw [nodes_removeNode hp, PathMap.get?_erase, if_neg h]
  · rw [removeNode_eq_self hp]

/-- Removing a file leaves the others analysed. -/
theorem contains_removeNode :
    (g.removeNode p).contains a = (!decide (p.Same a) && g.contains a) := by
  by_cases hp : g.contains p = true
  · unfold contains
    rw [nodes_removeNode hp, PathMap.contains_erase]
  · rw [removeNode_eq_self hp]
    by_cases hpa : p.Same a
    · have : g.contains a = false := by rw [← g.contains_congr hpa]; exact Bool.eq_false_iff.2 hp
      simp [this]
    · simp [hpa]

/-- Taking an analysed file out takes its imports and all the imports of it. -/
theorem imports_removeNode (h : g.Consistent) (hp : g.contains p = true) :
    (g.removeNode p).Imports a b ↔ g.Imports a b ∧ ¬p.Same a ∧ ¬p.Same b := by
  have hstart : (g.removeNode p).Imports a b ↔
      (g.retract p).Imports a b ∧ ¬((g.retract p).ImportedBy p a ∧ p.Same b) := by
    -- The dependents are read after the imports were retracted, so the file itself is none of them.
    rw [removeNode_eq hp, Imports, has_foldl_withdraw, listed_dependentsOf]
    exact Iff.rfl
  rw [hstart, converse_retract h, imports_retract, imports_retract]
  constructor
  · rintro ⟨⟨hpa, hab⟩, hnot⟩
    exact ⟨hab, hpa, fun hpb => hnot ⟨⟨hpa, (imports_congr (Same.refl a) hpb).2 hab⟩, hpb⟩⟩
  · rintro ⟨hab, hpa, hpb⟩
    exact ⟨⟨hpa, hab⟩, fun hnot => hpb hnot.2⟩

/-- Removing a file takes it out on both sides. -/
theorem importedBy_removeNode (h : g.Consistent) (hp : g.contains p = true) :
    (g.removeNode p).ImportedBy a b ↔ g.ImportedBy a b ∧ ¬p.Same a ∧ ¬p.Same b := by
  have hstart : (g.removeNode p).ImportedBy a b ↔ ¬p.Same a ∧ (g.retract p).ImportedBy a b := by
    rw [removeNode_eq hp, ImportedBy, has_erase]
    exact Iff.rfl
  rw [hstart, converse_retract h, imports_retract, h.converse]
  tauto

/-- **Taking a file out** keeps the adjacency maps consistent. -/
theorem consistent_removeNode (h : g.Consistent) (p : Path) : (g.removeNode p).Consistent := by
  by_cases hp : g.contains p = true
  · -- Removing takes one key out of both maps, and no other.
    have hkeys : ∀ a,
        (g.removeNode p).dependents.contains a = (g.removeNode p).dependencies.contains a
        ∧ (g.removeNode p).dependencies.contains a
          = (!decide (p.Same a) && g.dependencies.contains a) := by
      intro a
      rw [removeNode_eq hp]
      simp only [retract, contains_foldl_withdraw, PathMap.contains_erase, h.same_keys, and_self]
    exact {
      converse := fun a b => by
        rw [importedBy_removeNode h hp, imports_removeNode h hp, h.converse]
        tauto
      same_keys := fun a => (hkeys a).1
      contains_key := fun a ha => by
        rw [contains_removeNode, Bool.and_eq_true] at ha
        rw [(hkeys a).2, Bool.and_eq_true]
        exact ⟨ha.1, h.contains_key a ha.2⟩
      analysed := fun a b hab => by
        obtain ⟨hab, hpa, -⟩ := (imports_removeNode h hp).1 hab
        rw [contains_removeNode, h.analysed a b hab]
        simp [hpa] }
  · rw [removeNode_eq_self hp]
    exact h

/-! ### A history of changes -/

/-- One change of a graph. -/
inductive Edit where
  | add (node : FileNode)
  | remove (path : Path)

/-- The graph after a change. -/
def Edit.apply (g : Graph) : Edit → Graph
  | .add node => g.addNode node
  | .remove path => g.removeNode path

/-- The graph after a history of changes, which starts without files. -/
def replay (root : Path) (edits : List Edit) : Graph :=
  edits.foldl Edit.apply (empty root)

/-- A history is replayed change by change. -/
@[simp] theorem replay_concat (root : Path) (edits : List Edit) (e : Edit) :
    replay root (edits ++ [e]) = e.apply (replay root edits) := by
  simp [replay]

/-- Every change keeps a graph consistent. -/
theorem consistent_apply (h : g.Consistent) (e : Edit) : (e.apply g).Consistent := by
  cases e with
  | add node => exact consistent_addNode h node
  | remove path => exact consistent_removeNode h path

/-- The adjacency maps are consistent after every history. -/
theorem consistent_replay (root : Path) (edits : List Edit) : (replay root edits).Consistent := by
  induction edits using List.reverseRecOn with
  | nil => exact consistent_empty root
  | append_singleton edits e ih =>
    rw [replay_concat]
    exact consistent_apply ih e

/-- In the history `later` that follows on `earlier`, the path `t` is taken out while it is
    analysed. -/
def RemovedIn (root : Path) (earlier later : List Edit) (t : Path) : Prop :=
  ∃ before path after, later = before ++ .remove path :: after ∧ path.Same t ∧
    (replay root (earlier ++ before)).contains t = true

/-- Nothing is removed where nothing happens. -/
theorem not_removedIn_nil (root : Path) (earlier : List Edit) (t : Path) :
    ¬RemovedIn root earlier [] t := by
  rintro ⟨before, path, after, heq, -⟩
  exact absurd heq (by simp)

/-- One more change removes what it removes itself. -/
theorem removedIn_concat {root : Path} {earlier later : List Edit} {e : Edit} {t : Path} :
    RemovedIn root earlier (later ++ [e]) t ↔ RemovedIn root earlier later t ∨
      ∃ path, e = .remove path ∧ path.Same t ∧
        (replay root (earlier ++ later)).contains t = true := by
  constructor
  · rintro ⟨before, path, after, heq, hsame, hin⟩
    -- The removal is the last change, or it stands before it.
    rcases List.eq_nil_or_concat after with rfl | ⟨after, last, rfl⟩
    · obtain rfl := List.append_inj_left' heq rfl
      obtain rfl := List.singleton_inj.1 (List.append_inj_right' heq rfl)
      exact Or.inr ⟨path, rfl, hsame, hin⟩
    · rw [List.concat_eq_append, ← List.cons_append, ← List.append_assoc] at heq
      have hlater := List.append_inj_left' heq rfl
      exact Or.inl ⟨before, path, after, hlater, hsame, hin⟩
  · rintro (⟨before, path, after, rfl, hsame, hin⟩ | ⟨path, rfl, hsame, hin⟩)
    · exact ⟨before, path, after ++ [e], by simp, hsame, hin⟩
    · exact ⟨later, path, [], rfl, hsame, hin⟩

/-- In the history `edits` the file `p` is analysed as `node` between `earlier` and `later`, and not
    again. -/
structure LastAnalysis (edits earlier : List Edit) (node : FileNode) (later : List Edit)
    (p : Path) : Prop where
  split : edits = earlier ++ .add node :: later
  path : node.path.Same p
  last : ∀ other, .add other ∈ later → ¬other.path.Same p

/-- One more change is not the last analysis of a file when it adds no analysis of it. -/
theorem LastAnalysis.concat {edits earlier later : List Edit} {p : Path}
    (h : LastAnalysis edits earlier node later p) {e : Edit}
    (he : ∀ other, e = .add other → ¬other.path.Same p) :
    LastAnalysis (edits ++ [e]) earlier node (later ++ [e]) p where
  split := by rw [h.split]; simp
  path := h.path
  last other hmem := by
    rcases List.mem_append.1 hmem with hmem | hmem
    · exact h.last other hmem
    · exact he other (List.mem_singleton.1 hmem).symm

/-- The imports of an analysed file are those that its last analysis says, without the files that
    were taken out since. -/
theorem imports_of_last_analysis (root : Path) (edits : List Edit) {p : Path}
    (hnode : (replay root edits).nodes.get? p = some node) :
    ∃ earlier later, LastAnalysis edits earlier node later p ∧
      ∀ t, (replay root edits).Imports p t ↔
        t.Listed node.targets ∧ ¬RemovedIn root (earlier ++ [.add node]) later t := by
  induction edits using List.reverseRecOn with
  | nil => simp [replay, empty] at hnode
  | append_singleton edits e ih =>
    have hcons := consistent_replay root edits
    rw [replay_concat] at hnode ⊢
    cases e with
    | add new =>
      rw [Edit.apply, nodes_addNode, PathMap.get?_insert] at hnode
      by_cases hnew : new.path.Same p
      · -- This is the last analysis, and nothing was taken out since.
        rw [if_pos hnew] at hnode
        cases hnode
        refine ⟨edits, [], ⟨rfl, hnew, by simp⟩, fun t => ?_⟩
        rw [Edit.apply, imports_addNode hcons, if_pos hnew]
        exact (and_iff_left (not_removedIn_nil root _ t)).symm
      · -- An analysis of another file, which takes nothing out and leaves the imports of `p`.
        rw [if_neg hnew] at hnode
        obtain ⟨earlier, later, hlast, himports⟩ := ih hnode
        refine ⟨earlier, later ++ [.add new], hlast.concat ?_, fun t => ?_⟩
        · rintro other ⟨⟩
          exact hnew
        · rw [Edit.apply, imports_addNode hcons, if_neg hnew, himports, removedIn_concat]
          simp
    | remove path =>
      by_cases hpath : (replay root edits).contains path = true
      · rw [Edit.apply, nodes_removeNode hpath, PathMap.get?_erase] at hnode
        by_cases hp : path.Same p
        · -- Then `p` would not be analysed any more.
          rw [if_pos hp] at hnode
          cases hnode
        · rw [if_neg hp] at hnode
          obtain ⟨earlier, later, hlast, himports⟩ := ih hnode
          refine ⟨earlier, later ++ [.remove path], hlast.concat (by simp), fun t => ?_⟩
          have hsplit : earlier ++ [.add node] ++ later = edits := by rw [hlast.split]; simp
          -- The file that goes now is the one file that was not taken out before and is now.
          have hgone : (∃ path', Edit.remove path = .remove path' ∧ path'.Same t ∧
              (replay root edits).contains t = true) ↔ path.Same t := by
            constructor
            · rintro ⟨_, ⟨⟩, hsame, -⟩
              exact hsame
            · intro hsame
              exact ⟨path, rfl, hsame,
                by rw [← (replay root edits).contains_congr hsame]; exact hpath⟩
          rw [Edit.apply, imports_removeNode hcons hpath, himports, removedIn_concat, hsplit, hgone]
          tauto
      · -- Nothing is taken out that is not analysed, and so the history does not count it either.
        rw [Edit.apply, removeNode_eq_self hpath] at hnode ⊢
        obtain ⟨earlier, later, hlast, himports⟩ := ih hnode
        refine ⟨earlier, later ++ [.remove path], hlast.concat (by simp), fun t => ?_⟩
        have hsplit : earlier ++ [.add node] ++ later = edits := by rw [hlast.split]; simp
        have hstays : ¬∃ path', Edit.remove path = .remove path' ∧ path'.Same t ∧
            (replay root edits).contains t = true := by
          rintro ⟨_, ⟨⟩, hsame, hin⟩
          exact hpath (by rw [(replay root edits).contains_congr hsame]; exact hin)
        rw [himports, removedIn_concat, hsplit, or_iff_left hstays]

/-- **Adjacency after every history.** The two maps are converse to each other and have the same
    keys, among them every analysed file; a file that is not analysed imports nothing, so that all
    dependents are analysed; and an analysed file has exactly the imports of its last analysis, less
    the files that were taken out since while they were analysed. -/
theorem replay_adjacency (root : Path) (edits : List Edit) :
    (∀ a b, (replay root edits).ImportedBy a b ↔ (replay root edits).Imports b a) ∧
    (∀ a, (replay root edits).dependents.contains a = (replay root edits).dependencies.contains a) ∧
    (∀ a, (replay root edits).contains a = true →
      (replay root edits).dependencies.contains a = true) ∧
    (∀ a, ¬(replay root edits).contains a = true → ∀ b, ¬(replay root edits).Imports a b) ∧
    (∀ a b, (replay root edits).ImportedBy a b → (replay root edits).contains b = true) ∧
    (∀ p node, (replay root edits).nodes.get? p = some node →
      ∃ earlier later, LastAnalysis edits earlier node later p ∧
        ∀ t, (replay root edits).Imports p t ↔
          t.Listed node.targets ∧ ¬RemovedIn root (earlier ++ [.add node]) later t) := by
  have hcons := consistent_replay root edits
  refine ⟨hcons.converse, hcons.same_keys, hcons.contains_key, ?_, ?_, ?_⟩
  · intro a ha b hab
    exact ha (hcons.analysed a b hab)
  · intro a b hab
    exact hcons.analysed b a ((hcons.converse a b).1 hab)
  · intro p node hnode
    exact imports_of_last_analysis root edits hnode

end BlastRadius.Graph
