import BlastRadius.Proofs.Batch

namespace BlastRadius

/-!
# Files that are created together

Each change of a batch is resolved against the files that are known when it is applied. So a file
does not see the new files that come behind it in the batch.

* `Resolve.Context.Behind` — one context knows fewer files than another;
  `Resolve.Context.lags_resolve?` — what its answers can differ in.
* `Graph.FileNode.LikeBut` — two analyses agree, but for imports of some files.
* `Project.known_applyEach` — what is known after a batch of new files.
* `Project.created_together` — every new file of a batch is analysed as a new analysis would have
  it, but for its imports of files that come behind it.
* `Project.Sample.created_behind` — these imports do differ.
-/

/-! ### Resolving against fewer files -/

/-- `x` and `y` agree, unless `y` is one of the things that were missed. -/
def Lags {α : Type} (missed : α → Prop) (x y : Option α) : Prop :=
  x = y ∨ ∃ t, y = some t ∧ missed t

/-- The first hit of a search lags if the single answers do. -/
theorem lags_findSome? {α β : Type} {missed : β → Prop} {find find' : α → Option β} {l : List α}
    (h : ∀ a ∈ l, Lags missed (find a) (find' a)) :
    Lags missed (l.findSome? find) (l.findSome? find') := by
  induction l with
  | nil => exact Or.inl rfl
  | cons a l ih =>
    rw [List.findSome?_cons, List.findSome?_cons]
    rcases h a List.mem_cons_self with heq | ⟨t, ht, hmissed⟩
    · rw [heq]
      cases find' a with
      | none => exact ih fun b hb => h b (List.mem_cons_of_mem a hb)
      | some t => exact Or.inl rfl
    · rw [ht]
      exact Or.inr ⟨t, rfl, hmissed⟩

/-- The first of some things that passes a test is missed if it does not pass a stricter test. -/
theorem lags_find? {α : Type} {test test' : α → Bool} {l : List α}
    (h : ∀ a, test a = true → test' a = true) :
    Lags (fun t => test' t = true ∧ test t = false) (l.find? test) (l.find? test') := by
  induction l with
  | nil => exact Or.inl rfl
  | cons a l ih =>
    rw [List.find?_cons, List.find?_cons]
    cases htest : test a with
    | true =>
      rw [h a htest]
      exact Or.inl rfl
    | false =>
      cases htest' : test' a with
      | true => exact Or.inr ⟨a, rfl, htest', htest⟩
      | false => exact ih

namespace Resolve.Context

variable {c c' : Context}

/-- `c` has the aliases of `c'`, and knows only files that `c'` knows. -/
structure Behind (c c' : Context) : Prop where
  aliases : c.aliases = c'.aliases
  known : ∀ x : Path, c.known.contains x = true → c'.known.contains x = true

/-- A file that `c'` knows and `c` does not. -/
def Missed (c c' : Context) (t : Path) : Prop :=
  c'.known.contains t = true ∧ c.known.contains t = false

/-- Probing lags by files that are not known yet. -/
theorem Behind.lags_probe? (h : c.Behind c') (base : Path) :
    Lags (c.Missed c') (c.probe? base) (c'.probe? base) :=
  lags_find? h.known

/-- So does following an alias. -/
theorem Behind.lags_followAlias? (h : c.Behind c') (specifier : List Char) (entry : Alias) :
    Lags (c.Missed c') (c.followAlias? specifier entry) (c'.followAlias? specifier entry) := by
  unfold followAlias?
  cases Text.stripPrefix? entry.form.front specifier with
  | none => exact Or.inl rfl
  | some rest => exact lags_findSome? fun target _ => h.lags_probe? _

/-- **Fewer files.** A specifier stands for the same file, unless it stands for one that was
    missed. -/
theorem Behind.lags_resolve? (h : c.Behind c') (specifier : String) (directory : Path) :
    Lags (c.Missed c') (c.resolve? specifier directory) (c'.resolve? specifier directory) := by
  unfold resolve?
  dsimp only
  split
  · exact Or.inl rfl
  · split
    · -- An anchored specifier is probed at one place, and falls back on a path of its own.
      rcases h.lags_probe? (directory.child specifier).normalize with heq | ⟨t, ht, hmissed⟩
      · rw [heq]
        exact Or.inl rfl
      · rw [ht]
        exact Or.inr ⟨t, rfl, hmissed⟩
    · -- Any other is probed below the base, and then through the aliases.
      rw [h.aliases]
      rcases h.lags_probe? (c'.aliases.baseUrl.child specifier).normalize with
        heq | ⟨t, ht, hmissed⟩
      · rw [heq]
        split
        · exact Or.inl rfl
        · exact lags_findSome? fun entry _ => h.lags_followAlias? _ entry
      · rw [ht]
        exact Or.inr ⟨t, rfl, hmissed⟩

end Resolve.Context

namespace Graph

/-- Two imports agree, but for what they lead to if that was missed. -/
def ImportEdge.LikeBut (missed : Path → Prop) (e e' : ImportEdge) : Prop :=
  e = { e' with target := e.target } ∧ Lags missed e.target e'.target

/-- Two analyses agree, but for what the imports of missed files lead to. -/
structure FileNode.LikeBut (missed : Path → Prop) (n n' : FileNode) : Prop where
  rest : n = { n' with imports := n.imports }
  imports : List.Forall₂ (ImportEdge.LikeBut missed) n.imports n'.imports

variable {missed missed' : Path → Prop} {n n' : FileNode}

/-- Where nothing is missed, the edges are the same. -/
theorem ImportEdge.LikeBut.eq {e e' : ImportEdge} (h : e.LikeBut missed e')
    (hnone : ∀ t, e'.target = some t → ¬missed t) : e = e' := by
  obtain ⟨heq, htarget | ⟨t, ht, hmissed⟩⟩ := h
  · rw [heq, htarget]
  · exact absurd hmissed (hnone t ht)

/-- Analyses agree if nothing that is imported was missed. -/
theorem FileNode.LikeBut.eq (h : n.LikeBut missed n') (hnone : ∀ t ∈ n'.targets, ¬missed t) :
    n = n' := by
  have himports : n.imports = n'.imports := by
    have hedges : ∀ e' ∈ n'.imports, ∀ t, e'.target = some t → ¬missed t :=
      fun e' he' t ht => hnone t (List.mem_filterMap.2 ⟨e', he', ht⟩)
    have hlike := h.imports
    generalize n.imports = edges, n'.imports = edges' at hlike hedges ⊢
    induction hlike with
    | nil => rfl
    | cons hhead _ ih =>
      rw [hhead.eq (hedges _ List.mem_cons_self),
        ih fun e' he' => hedges e' (List.mem_cons_of_mem _ he')]
  rw [h.rest, himports]

/-- What is missed can be enlarged. -/
theorem FileNode.LikeBut.mono (h : n.LikeBut missed n') (himp : ∀ t, missed t → missed' t) :
    n.LikeBut missed' n' := by
  refine ⟨h.rest, h.imports.imp fun e e' hlike => ⟨hlike.1, hlike.2.imp_right ?_⟩⟩
  rintro ⟨t, ht, hmissed⟩
  exact ⟨t, ht, himp t hmissed⟩

end Graph

namespace Project

open BlastRadius.Graph Disk BlastRadius.Path Resolve

variable {p : Project} {d d' : Disk} {c : Change} {f root : Path}
  {changes before after batch : List Change}

/-- A file is analysed against fewer files as against more, but for its imports of the files that
    were missed. -/
theorem analyzeFile?_behind {context context' : Context} (h : context.Behind context')
    {node : FileNode} (hnode : analyzeFile? d root context' f = some node) :
    ∃ node', analyzeFile? d root context f = some node' ∧
      node'.LikeBut (context.Missed context') node := by
  obtain ⟨data, hdata, hpure⟩ := Option.bind_eq_some_iff.1 hnode
  cases hpure
  refine ⟨_, Option.bind_eq_some_iff.2 ⟨data, hdata, rfl⟩, rfl, ?_⟩
  -- The statements of the file are the same; only what they lead to is asked of the context.
  refine List.forall₂_map_left_iff.2
    (List.forall₂_map_right_iff.2 (List.forall₂_same.2 fun i _ => ?_))
  exact ⟨rfl, h.lags_resolve? i.specifier _⟩

/-! ### What is known after a batch -/

/-- A file can be read. -/
def Readable (d : Disk) (f : Path) : Prop :=
  ∃ data, d.read f = .ok data

/-- A file that cannot be read has no node. -/
theorem analyzeFile?_eq_none {context : Context} (h : ¬Readable d f) :
    analyzeFile? d root context f = none := by
  cases hanalysis : analyzeFile? d root context f with
  | none => rfl
  | some node => exact absurd (read_of_analyzeFile? hanalysis) h

/-- A change leaves the aliases alone. -/
theorem aliases_applyChange (p : Project) (d : Disk) (c : Change) :
    (p.applyChange d c).1.aliases = p.aliases := by
  rcases applyChange_cases p d c with hnothing | ⟨-, -, node, hrevisited⟩ | ⟨-, hforgotten⟩
  · rw [hnothing]
  · exact hrevisited.aliases
  · exact hforgotten.aliases

/-- So do changes one by one. -/
theorem aliases_applyEach (p : Project) (d : Disk) (changes : List Change) :
    (p.applyEach d changes).1.aliases = p.aliases := by
  induction changes generalizing p with
  | nil => rfl
  | cons c changes ih => exact (ih _).trans (aliases_applyChange p d c)

/-- A new file is known if it can be read. -/
theorem known_applyChange (hkind : c.kind ≠ .deleted)
    (hadmits : p.admits (p.identity c.path) = true) (x : Path) :
    (p.applyChange d c).1.known.contains x = true ↔
      p.known.contains x = true ∨ (p.identity c.path).Same x ∧ Readable d (p.identity c.path) := by
  rw [applyChange_eq_revisit hkind hadmits]
  -- Only a file that can be read gets known.
  by_cases hreadable : Readable d (p.identity c.path)
  · obtain ⟨data, hread⟩ := hreadable
    obtain ⟨node, hnode⟩ :=
      analyzeFile?_of_read hread p.root ⟨p.aliases, p.known.add (p.identity c.path)⟩
    obtain ⟨-, hrevisited⟩ := revisit_some hnode
    rw [hrevisited.known, PathSet.contains_add, Bool.or_eq_true, decide_eq_true_eq]
    constructor
    · rintro (hsame | hknown)
      · exact Or.inr ⟨hsame, data, hread⟩
      · exact Or.inl hknown
    · rintro (hknown | ⟨hsame, -⟩)
      · exact Or.inr hknown
      · exact Or.inl hsame
  · rw [revisit_none (analyzeFile?_eq_none hreadable)]
    exact ⟨Or.inl, fun h => h.resolve_right fun hnew => hreadable hnew.2⟩

/-- **What is known after a batch of new files.** What was known before, and every new file that can
    be read. -/
theorem known_applyEach (hkind : ∀ c ∈ changes, c.kind ≠ .deleted)
    (hadmits : ∀ c ∈ changes, p.admits (p.identity c.path) = true) (x : Path) :
    (p.applyEach d changes).1.known.contains x = true ↔
      p.known.contains x = true ∨
      ∃ c ∈ changes, (p.identity c.path).Same x ∧ Readable d (p.identity c.path) := by
  induction changes generalizing p with
  | nil => simp [applyEach]
  | cons c changes ih =>
    have hidentity : ∀ y, (p.applyChange d c).1.identity y = p.identity y :=
      identity_applyEach p d [c]
    have hadmitted : ∀ y, (p.applyChange d c).1.admits y = p.admits y := admits_applyEach p d [c]
    show ((p.applyChange d c).1.applyEach d changes).1.known.contains x = true ↔ _
    rw [ih (fun c' hc' => hkind c' (List.mem_cons_of_mem c hc')) fun c' hc' => ?_,
      known_applyChange (hkind c List.mem_cons_self) (hadmits c List.mem_cons_self)]
    · simp only [hidentity, List.exists_mem_cons_iff, or_assoc]
    · rw [hidentity, hadmitted]
      exact hadmits c' (List.mem_cons_of_mem c hc')

/-- What a file is resolved against when its change is applied behind some others. -/
def contextAt (p : Project) (d : Disk) (before : List Change) (f : Path) : Context :=
  ⟨p.aliases, (p.applyEach d before).1.known.add f⟩

/-- A file of a batch is left as it was analysed when its change was applied. -/
theorem get?_applyEach_revisited (hkind : c.kind ≠ .deleted)
    (hadmits : p.admits (p.identity c.path) = true)
    (hafter : ∀ c' ∈ after, ¬(p.identity c'.path).Same (p.identity c.path)) {node : FileNode}
    (hnode : analyzeFile? d p.root (p.contextAt d before (p.identity c.path)) (p.identity c.path)
      = some node) : (p.applyEach d (before ++ c :: after)).1.graph.nodes.get? (p.identity c.path)
        = some node := by
  have hanalysis : analyzeFile? d (p.applyEach d before).1.root
      ⟨(p.applyEach d before).1.aliases, (p.applyEach d before).1.known.add (p.identity c.path)⟩
      (p.identity c.path) = some node := by
    rw [root_applyEach, aliases_applyEach]
    exact hnode
  have hadmits' : (p.applyEach d before).1.admits ((p.applyEach d before).1.identity c.path)
      = true := by
    rwa [admits_applyEach, identity_applyEach]
  rw [get?_applyEach_split hafter, applyChange_eq_revisit hkind hadmits', identity_applyEach,
    (revisit_some hanalysis).2.graph, nodes_addNode, PathMap.get?_insert,
    path_of_analyzeFile? hnode, if_pos (Same.refl _)]

/-! ### Batches of new files -/

/-- The script files that are on `d'` and were not on `d`. -/
def New (p : Project) (d d' : Disk) (f : Path) : Prop :=
  f ∈ d'.scan p.root ∧ f ∉ d.scan p.root

/-- There is one change for every new file, which says that it was created. -/
structure Announces (p : Project) (d d' : Disk) (changes : List Change) : Prop where
  created : ∀ c ∈ changes, c.kind = .created
  once : p.OnePerFile changes
  files : ∀ f, p.New d d' f ↔ ∃ c ∈ changes, p.identity c.path = f

/-- A file that is known when the change of `f` is applied behind some others: it is `f`, or was
    there before, or is a new file that came before `f` and can be read. -/
def Seen (p : Project) (d d' : Disk) (before : List Change) (f x : Path) : Prop :=
  f.Same x ∨ x.Listed (d.scan p.root) ∨
    ∃ c ∈ before, (p.identity c.path).Same x ∧ Readable d' (p.identity c.path)

/-- A new file that is not known when a change is applied: its own change comes later, or it cannot
    be read. -/
def Unseen (p : Project) (d : Disk) (before after : List Change) (t : Path) : Prop :=
  (∃ c ∈ after, (p.identity c.path).Same t) ∨
    ∃ c ∈ before, (p.identity c.path).Same t ∧ ¬Readable d (p.identity c.path)

/-- Changes of different files are spelled alike. -/
theorem OnePerFile.spelledAlike (h : p.OnePerFile changes) : p.SpelledAlike changes := by
  intro c hc c' hc' hsame
  obtain rfl : c = c' := Option.some.inj
    ((h.lastChangeOf?_eq hc (Same.refl _)).symm.trans (h.lastChangeOf?_eq hc' hsame.symm))
  exact Same.refl _

variable {window : Nat} {arrivals : List (Change × Nat)}

/-- A batch announces what the changes that arrived do. -/
theorem Announces.delivered (h : p.Announces d d' (arrivals.map (·.1))) (hroot : p.root.Canonical)
    (hbatch : ((Pending.empty window).pushAll arrivals).Delivers batch) :
    p.Announces d d' batch where
  created c hc := h.created c (mem_of_mem_batch hbatch hc)
  once := (onePerFile_iff hroot hbatch).2 h.once.spelledAlike
  files f := by
    rw [h.files f]
    constructor
    · rintro ⟨c, hc, rfl⟩
      obtain ⟨c', hc', hsame⟩ := exists_mem_batch hbatch hc
      exact ⟨c', hc', identity_congr hroot hsame⟩
    · rintro ⟨c, hc, rfl⟩
      exact ⟨c, mem_of_mem_batch hbatch hc, rfl⟩

/-- Announced files are admitted. -/
theorem Announces.admits (h : p.Announces d d' changes) (hroot : p.root.Canonical) (hd' : d'.Proper)
    (hc : c ∈ changes) : p.admits (p.identity c.path) = true :=
  admits_of_mem_scan hd' hroot ((h.files _).2 ⟨c, hc, rfl⟩).1

/-- What is known when the change of a new file is applied. -/
theorem Announces.contains_contextAt (h : p.Announces d d' (before ++ c :: after))
    (hroot : p.root.Canonical) (hd' : d'.Proper)
    (hknown : ∀ x : Path, p.known.contains x = true ↔ x.Listed (d.scan p.root)) (x : Path) :
    (p.contextAt d' before (p.identity c.path)).known.contains x = true ↔
      p.Seen d d' before (p.identity c.path) x := by
  have hbefore : ∀ c' ∈ before, c' ∈ before ++ c :: after :=
    fun c' hc' => List.mem_append_left _ hc'
  rw [contextAt, PathSet.contains_add, Bool.or_eq_true, decide_eq_true_eq, known_applyEach, hknown]
  · rfl
  · intro c' hc'
    rw [h.created c' (hbefore c' hc')]
    decide
  · exact fun c' hc' => h.admits hroot hd' (hbefore c' hc')

/-- **Behind.** When the change of a new file is applied, what is known lags behind the disk, and it
    is only new files that are missing: those of later changes, and those that cannot be read. -/
theorem Announces.behind (h : p.Announces d d' (before ++ c :: after)) (hroot : p.root.Canonical)
    (hd' : d'.Proper) (hknown : ∀ x : Path, p.known.contains x = true ↔ x.Listed (d.scan p.root))
    (hkept : ∀ f ∈ d.scan p.root, f ∈ d'.scan p.root) {context : Context}
    (haliases : p.aliases = context.aliases)
    (hcontext : ∀ x : Path, context.known.contains x = true ↔ x.Listed (d'.scan p.root)) :
    (p.contextAt d' before (p.identity c.path)).Behind context ∧
      ∀ t, (p.contextAt d' before (p.identity c.path)).Missed context t →
        p.Unseen d' before after t := by
  have hat := h.contains_contextAt hroot hd' hknown
  have hnew : ∀ c' ∈ before ++ c :: after, ∀ x, (p.identity c'.path).Same x →
      x.Listed (d'.scan p.root) :=
    fun c' hc' x hsame => ⟨_, ((h.files _).2 ⟨c', hc', rfl⟩).1, hsame⟩
  refine ⟨⟨haliases, fun x hx => ?_⟩, fun t ⟨hlisted, hnot⟩ => ?_⟩
  · rw [hcontext]
    rcases (hat x).1 hx with hsame | ⟨f, hf, hsame⟩ | ⟨c', hc', hsame, -⟩
    · exact hnew c (by simp) x hsame
    · exact ⟨f, hkept f hf, hsame⟩
    · exact hnew c' (List.mem_append_left _ hc') x hsame
  · have hnot : ¬p.Seen d d' before (p.identity c.path) t := by
      rw [← hat, hnot]
      simp
    obtain ⟨f, hf, hsame⟩ := (hcontext t).1 hlisted
    -- The file is not an old one, so it has its change in the batch.
    have hfnew : p.New d d' f := ⟨hf, fun hold => hnot (Or.inr (Or.inl ⟨f, hold, hsame⟩))⟩
    obtain ⟨c', hc', rfl⟩ := (h.files f).1 hfnew
    rcases List.mem_append.1 hc' with hc' | hc'
    · exact Or.inr ⟨c', hc', hsame,
        fun hreadable => hnot (Or.inr (Or.inr ⟨c', hc', hsame, hreadable⟩))⟩
    · rcases List.mem_cons.1 hc' with rfl | hc'
      · exact absurd (Or.inl hsame) hnot
      · exact Or.inl ⟨c', hc', hsame⟩

/-- An analysis changes neither which file a change is of nor what is new. -/
theorem Announces.analyze (h : p.Announces d d' changes) :
    (p.analyze d).Announces d d' changes where
  created := h.created
  once := by
    simp only [OnePerFile, identity_analyze]
    exact h.once
  files := by
    simp only [New, identity_analyze, root_analyze]
    exact h.files

/-- What a new analysis resolves against is ahead of what is known when the change of a new file is
    applied. -/
theorem Announces.behind_reanalysed (h : (p.analyze d).Announces d d' (before ++ c :: after))
    (hroot : p.root.Canonical) (hd' : d'.Proper)
    (haliases : loadAliases d' p.root = loadAliases d p.root)
    (hkept : ∀ f ∈ d.scan p.root, f ∈ d'.scan p.root) :
    ((p.analyze d).contextAt d' before ((p.analyze d).identity c.path)).Behind
        (Session.mk p d').reanalysed.context ∧
      ∀ t, ((p.analyze d).contextAt d' before ((p.analyze d).identity c.path)).Missed
        (Session.mk p d').reanalysed.context t → (p.analyze d).Unseen d' before after t := by
  have hrootEq := root_analyze p d
  refine h.behind (by rwa [hrootEq]) hd' (fun x => ?_) (by rwa [hrootEq]) ?_ fun x => ?_
  · rw [known_analyze, hrootEq, PathSet.contains_ofList]
  · show (p.analyze d).aliases = (Session.mk p d').reanalysed.aliases
    rw [aliases_analyze, Session.reanalysed, aliases_analyze]
    exact haliases.symm
  · show (Session.mk p d').reanalysed.known.contains x = true ↔ _
    rw [Session.reanalysed, known_analyze, PathSet.contains_ofList, hrootEq]
    exact Iff.rfl

/-- A file that cannot be read is left as it was. -/
theorem get?_applyEach_unreadable (h : p.OnePerFile (before ++ c :: after))
    (hkind : c.kind ≠ .deleted) (hadmits : p.admits (p.identity c.path) = true)
    (hunreadable : ¬Readable d (p.identity c.path)) :
    (p.applyEach d (before ++ c :: after)).1.graph.nodes.get? (p.identity c.path)
      = p.graph.nodes.get? (p.identity c.path) := by
  obtain ⟨-, -, hbefore⟩ := List.pairwise_append.1 h
  have hadmits' : (p.applyEach d before).1.admits ((p.applyEach d before).1.identity c.path)
      = true := by
    rwa [admits_applyEach, identity_applyEach]
  rw [get?_applyEach_split h.not_same_after, applyChange_eq_revisit hkind hadmits',
    identity_applyEach, revisit_none (analyzeFile?_eq_none hunreadable)]
  exact get?_applyEach_of_other fun c' hc' => hbefore c' hc' c List.mem_cons_self

/-- A new analysis has no node for a file that cannot be read. -/
theorem get?_reanalysed_unreadable (hroot : p.root.Canonical) (hd : d.Proper) (hf : f.Canonical)
    (hunreadable : ¬Readable d f) : (Session.mk p d).reanalysed.graph.nodes.get? f = none := by
  have hanew : (Session.mk p d).anew.root.Canonical := hroot
  cases hget : (Session.mk p d).reanalysed.graph.nodes.get? f with
  | none => rfl
  | some node =>
    have hanalysis := analysis_of_get?_analyze hanew hd rfl hf hget
    rw [analyzeFile?_eq_none hunreadable] at hanalysis
    cases hanalysis

/-- **Files that are created together.** A project was analysed; then new script files are written,
    and it is told of each in one batch. A new file that can be read is then in the graph as it is
    analysed against the files that were there before, the new ones before it in the batch, and
    itself. This is what a new analysis would have, but for imports of new files whose change comes
    behind its own or that cannot be read; without such imports it is just what a new analysis would
    have. A new file that cannot be read is left as it was. -/
theorem created_together (p : Project) (d d' : Disk) (hopened : p.Opened) (hd' : d'.Proper)
    (haliases : loadAliases d' p.root = loadAliases d p.root)
    (hkept : ∀ f ∈ d.scan p.root, f ∈ d'.scan p.root) (window : Nat)
    (arrivals : List (Change × Nat)) (hnew : p.Announces d d' (arrivals.map (·.1)))
    (batch : List Change) (hbatch : ((Pending.empty window).pushAll arrivals).Delivers batch)
    (f : Path) (hf : p.New d d' f) :
    ∃ before c after, batch = before ++ c :: after ∧ p.identity c.path = f ∧
      (Readable d' f → ∃ known node node',
        (∀ x : Path, PathMap.contains known x = true ↔ p.Seen d d' before f x) ∧
        analyzeFile? d' p.root ⟨loadAliases d' p.root, known⟩ f = some node' ∧
        (Session.mk p d').reanalysed.graph.nodes.get? f = some node ∧
        ((p.analyze d).applyChanges d' batch).1.graph.nodes.get? f = some node' ∧
        node'.LikeBut (p.Unseen d' before after) node ∧
        ((∀ t ∈ node.targets, ¬p.Unseen d' before after t) → node' = node)) ∧
      (¬Readable d' f → (Session.mk p d').reanalysed.graph.nodes.get? f = none ∧
        ((p.analyze d).applyChanges d' batch).1.graph.nodes.get? f
          = (p.analyze d).graph.nodes.get? f) := by
  have hroot := hopened.canonical
  have hbatched := hnew.delivered hroot hbatch
  obtain ⟨c, hc, rfl⟩ := (hbatched.files f).1 hf
  obtain ⟨before, after, rfl⟩ := List.append_of_mem hc
  -- The project that was analysed sees the same files under the same paths.
  have hidentity := identity_analyze p d
  have hunseen : (p.analyze d).Unseen d' before after = p.Unseen d' before after := by
    funext t
    simp only [Unseen, hidentity]
  have hannounced := hbatched.analyze
  have hkind : c.kind ≠ .deleted := by
    rw [hbatched.created c hc]
    decide
  have hadmits := hannounced.admits (by rwa [root_analyze]) hd' hc
  refine ⟨before, c, after, rfl, rfl, fun hreadable => ?_, fun hunreadable => ⟨?_, ?_⟩⟩
  · have hanew : (Session.mk p d').anew.root.Canonical := hroot
    obtain ⟨data, hread⟩ := hreadable
    obtain ⟨node, hnode⟩ := analyzeFile?_of_read hread p.root (Session.mk p d').reanalysed.context
    obtain ⟨hbehind, hmissed⟩ := hannounced.behind_reanalysed hroot hd' haliases hkept
    have hseen := hannounced.contains_contextAt (by rwa [root_analyze]) hd' fun x => by
      rw [known_analyze, root_analyze, PathSet.contains_ofList]
    simp only [Seen, hidentity, root_analyze] at hseen
    rw [hidentity] at hbehind hmissed
    obtain ⟨node', hnode', hlike⟩ := analyzeFile?_behind hbehind hnode
    have hlike : node'.LikeBut (p.Unseen d' before after) node := hlike.mono (by rwa [← hunseen])
    refine ⟨_, node, node', hseen, ?_, get?_analyze_of_uncached hanew hd' rfl hf.1 hnode, ?_,
      hlike, hlike.eq⟩
    · rw [haliases, ← aliases_analyze p d]
      exact hnode'
    · rw [← hidentity]
      refine get?_applyEach_revisited hkind hadmits hannounced.once.not_same_after ?_
      rwa [root_analyze, hidentity]
  · exact get?_reanalysed_unreadable hroot hd' (canonical_identity hroot c.path) hunreadable
  · rw [← hidentity]
    exact get?_applyEach_unreadable hannounced.once hkind hadmits (by rwa [hidentity])

namespace Sample

/-- A tree without files. -/
def vacant : Disk where
  top := .directory []
  workdir := []

/-- Two files that import each other. -/
def couple : Disk where
  top := .directory [("a.ts", plain "import './b'"), ("b.ts", plain "import './a'")]
  workdir := []

/-- The first of the two files. -/
def first : Path :=
  ofString "/a.ts"

/-- The second of the two files. -/
def second : Path :=
  ofString "/b.ts"

/-- The sample disk is a proper one. -/
theorem proper_couple : couple.Proper :=
  ⟨.directory (by decide) (by simp [plain, Entry.Proper.file]), rfl⟩

/-- The empty disk has no files. -/
theorem scan_vacant : vacant.scan slash = [] :=
  scan_of_scripts rfl rfl .nil

/-- A scan finds both files. -/
theorem scan_couple : couple.scan slash = [first, second] :=
  scan_of_scripts rfl (by decide +kernel) (by decide +kernel)

/-- Both files are announced, the second one before the first. -/
def announced : List (Change × Nat) :=
  [(⟨.created, second⟩, 0), (⟨.created, first⟩, 1)]

/-- The changes as they are delivered, in the order of their paths. -/
def delivered : List Change :=
  [⟨.created, first⟩, ⟨.created, second⟩]

/-- The announcements are delivered in the order of the paths. -/
theorem delivers_delivered : ((Pending.empty 50).pushAll announced).Delivers delivered := by
  have hbatch : ((Pending.empty 50).pushAll announced).flush.1 = delivered := by decide +kernel
  rw [← hbatch]
  exact .flushed

/-- The new files bring no aliases with them. -/
theorem aliases_couple :
    loadAliases couple (new none).root = loadAliases vacant (new none).root := by
  decide +kernel

/-- Both files are spelled canonically. -/
theorem identity_couple :
    (new none).identity first = first ∧ (new none).identity second = second := by
  decide +kernel

/-- Both files are new, and nothing else is. -/
theorem new_couple (f : Path) : (new none).New vacant couple f ↔ f = first ∨ f = second := by
  rw [New, show (new none).root = slash from rfl, scan_vacant, scan_couple]
  simp

/-- No file goes away. -/
theorem kept_couple : ∀ f ∈ vacant.scan (new none).root, f ∈ couple.scan (new none).root := by
  rw [show vacant.scan (new none).root = [] from scan_vacant]
  simp

/-- The announcements name both new files. -/
theorem announces_couple : (new none).Announces vacant couple (announced.map (·.1)) where
  created := by decide
  once := by
    unfold OnePerFile
    decide +kernel
  files f := by
    rw [new_couple]
    simp [announced, identity_couple.1, identity_couple.2, eq_comm, or_comm]

/-- The second file sees the first, and is in the graph as a new analysis would have it. -/
theorem created_together_second :
    (new none).Announces vacant couple (announced.map (·.1)) ∧
    ((Pending.empty 50).pushAll announced).Delivers delivered ∧
    ∃ node, (Session.mk (new none) couple).reanalysed.graph.nodes.get? second = some node ∧
      (((new none).analyze vacant).applyChanges couple delivered).1.graph.nodes.get? second
        = some node := by
  refine ⟨announces_couple, delivers_delivered, ?_⟩
  obtain ⟨before, c, after, hsplit, hc, hreadable, -⟩ :=
    created_together (new none) vacant couple (opened_new none)
    proper_couple aliases_couple kept_couple 50 announced announces_couple delivered
      delivers_delivered second
    ((new_couple second).2 (Or.inr rfl))
  obtain ⟨-, node, node', -, -, hnode, hnode', -, heq⟩ := hreadable ⟨_, rfl⟩
  refine ⟨node, hnode, ?_⟩
  rw [hnode', heq fun t _ hunseen => ?_]
  -- Its change is the last one, and the file of the other can be read.
  have hne : (new none).identity first ≠ second := by decide +kernel
  match before, hsplit with
  | [], hsplit =>
    obtain ⟨rfl, -⟩ := List.cons.inj hsplit
    exact absurd hc hne
  | [_], hsplit =>
    obtain ⟨rfl, hrest⟩ := List.cons.inj hsplit
    obtain ⟨rfl, rfl⟩ := List.cons.inj hrest
    rcases hunseen with ⟨c', hc', -⟩ | ⟨c', hc', -, hunreadable⟩
    · exact absurd hc' List.not_mem_nil
    · obtain rfl := List.mem_singleton.1 hc'
      exact hunreadable ⟨_, rfl⟩
  | _ :: _ :: _, hsplit => simp [delivered] at hsplit

/-- **Behind.** Of two new files that import each other, the one that comes first in the batch does
    not find the other: its import leads to a path without an extension, and not to the file that a
    new analysis finds. -/
theorem created_behind :
    (new none).Opened ∧ vacant.Proper ∧ couple.Proper ∧
    loadAliases couple (new none).root = loadAliases vacant (new none).root ∧
    (new none).Announces vacant couple (announced.map (·.1)) ∧
    ((Pending.empty 50).pushAll announced).Delivers delivered ∧ (new none).New vacant couple first ∧
    ((((new none).analyze vacant).applyChanges couple
        delivered).1.graph.nodes.get? first).map (·.targets)
      = some [ofString "/b"] ∧
    ((Session.mk (new none) couple).reanalysed.graph.nodes.get? first).map (·.targets)
      = some [second] := by
  refine ⟨opened_new none, ⟨.directory (by decide) (by simp), rfl⟩, proper_couple, aliases_couple,
    announces_couple, delivers_delivered, (new_couple first).2 (Or.inl rfl), by decide +kernel, ?_⟩
  rw [Session.graph_reanalysed_of_scan (s := ⟨new none, couple⟩) rfl scan_couple]
  decide +kernel

end Sample

end Project

end BlastRadius
