import BlastRadius.Graph.Cycle
import BlastRadius.Proofs.Order
import BlastRadius.Proofs.Spelling
import Mathlib.Data.List.Chain
import Mathlib.Logic.Relation

namespace BlastRadius.Graph

/-!
# The cycles that are found meet every cycle

The search for cycles goes through the analysed files depth first. A file is on the stack while its
imports are looked at, and finished afterwards. Every import of a finished file leads to a file that
was finished earlier, or it closed a cycle when it was looked at:

* `Link` — an import between analysed files; `Cycle.ClosedBy` — the last step of a found cycle.
* `Settled` — an order of finishing in which every link leads to an earlier file or was reported.
  `Settled.acyclic`: without the reported links no cycle is left.
* `Loop` — what a found cycle is: a part of the stack that a link leads back into.
* `Standing` — where the search stands; kept by entering a file (`Standing.push`), by meeting a file
  on the stack (`Standing.record`) and by finishing a file (`Standing.finish`), hence by the whole
  search (`searchCycles_finishes`).
* `cycles_complete` — the cycles that are found, for every graph.
-/

open BlastRadius.Path

variable {g : Graph} {x y : Path}

/-! ### Links -/

/-- An import between two analysed files. -/
def Link (g : Graph) (a b : Path) : Prop :=
  g.contains a = true ∧ g.contains b = true ∧ g.Imports a b

/-- A link does not hang on how its ends are spelled. -/
theorem link_congr {a b a' b' : Path} (ha : a.Same a') (hb : b.Same b') :
    g.Link a b ↔ g.Link a' b' := by
  unfold Link
  rw [g.contains_congr ha, g.contains_congr hb, imports_congr ha hb]

/-- The known dependencies of a file are its imports that are analysed. -/
theorem listed_knownDependencies :
    y.Listed (g.knownDependencies x) ↔ g.Imports x y ∧ g.contains y = true := by
  unfold knownDependencies
  rw [listed_filter (fun q hq => g.contains_congr hq), listed_dependenciesOf]

/-- Every known dependency of an analysed file is a link. -/
theorem link_of_mem_knownDependencies (hx : g.contains x = true) (hy : y ∈ g.knownDependencies x) :
    g.Link x y := by
  obtain ⟨himp, hcontains⟩ := listed_knownDependencies.1 (listed_of_mem hy)
  exact ⟨hx, hcontains, himp⟩

/-- The last step of a cycle leads from `x` to `y`. -/
def Cycle.ClosedBy (c : Cycle) (x y : Path) : Prop :=
  ∃ front u v, c.files = front ++ [u, v] ∧ u.Same x ∧ v.Same y

/-- No analysed file has the bar in its path that separates the files in the key of a cycle. -/
def Unbarred (g : Graph) : Prop :=
  ∀ node ∈ g.files, '|' ∉ node.path.chars

/-- No analysed file has a bar in its path. -/
theorem Unbarred.not_mem (h : g.Unbarred) (hx : g.contains x = true) : '|' ∉ x.chars := by
  obtain ⟨node, hnode⟩ := PathMap.contains_iff_exists_get?.1 hx
  rw [← mem_chars_congr (by decide) (by decide) (g.keyed x node hnode)]
  exact h node (PathMap.mem_values.2 ⟨x, hnode⟩)

/-! ### Orders of finishing -/

/-- An order of finishing, the last file first: every link leads to a file that was finished
    earlier, or it was `reported`. -/
inductive Settled (g : Graph) (reported : Path → Path → Prop) : List Path → Prop where
  | nil : Settled g reported []
  | cons {file : Path} {order : List Path}
      (links : ∀ y, g.Link file y → y.Listed order ∨ reported file y)
      (rest : Settled g reported order) : Settled g reported (file :: order)

/-- Reporting more links leaves settled what was settled. -/
theorem Settled.mono {reported reported' : Path → Path → Prop} {order : List Path}
    (h : Settled g reported order) (himp : ∀ x y, reported x y → reported' x y) :
    Settled g reported' order := by
  induction h with
  | nil => exact .nil
  | cons links _ ih => exact .cons (fun y hy => (links y hy).imp_right (himp _ y)) ih

variable {reported : Path → Path → Prop} {order : List Path}

/-- Links that were not reported stay among the finished files. -/
theorem Settled.closed (h : Settled g reported order)
    (hcongr : ∀ {x x' y}, x.Same x' → (reported x y ↔ reported x' y))
    (hx : x.Listed order) (hlink : g.Link x y) (hnot : ¬reported x y) : y.Listed order := by
  induction h with
  | nil => exact absurd hx (not_listed_nil x)
  | @cons file order links _ ih =>
    rw [listed_cons] at hx ⊢
    rcases hx with hsame | hx
    · -- The links are known for the spelling that was finished.
      rcases links y ((link_congr hsame (Same.refl y)).2 hlink) with hy | hy
      · exact Or.inr hy
      · exact absurd ((hcongr hsame).1 hy) hnot
    · exact Or.inr (ih hx)

/-- **No cycle without a reported link.** A cycle would finish a file before itself. -/
theorem Settled.acyclic (h : Settled g reported order)
    (hcongr : ∀ {x x' y}, x.Same x' → (reported x y ↔ reported x' y)) (hx : x.Listed order) :
    ¬Relation.TransGen (fun a b => g.Link a b ∧ ¬reported a b) x x := by
  induction h with
  | nil => exact absurd hx (not_listed_nil x)
  | @cons file order links rest ih =>
    intro hcycle
    -- What is reached from an earlier file is an earlier file.
    have hstay : ∀ {a b}, a.Listed order →
        Relation.ReflTransGen (fun a b => g.Link a b ∧ ¬reported a b) a b → b.Listed order := by
      intro a b ha hab
      induction hab with
      | refl => exact ha
      | tail _ hstep hlisted => exact rest.closed hcongr hlisted hstep.1 hstep.2
    by_cases hlisted : x.Listed order
    · exact ih hlisted hcycle
    · -- The cycle starts at the last file; its first step leads to an earlier one, and
      -- from there on back.
      have hsame : file.Same x := (listed_cons.1 hx).resolve_right hlisted
      obtain ⟨z, ⟨hlink, hnot⟩, hback⟩ := (Relation.TransGen.head'_iff).1 hcycle
      have hz : z.Listed order := by
        rcases links z ((link_congr hsame (Same.refl z)).2 hlink) with hz | hz
        · exact hz
        · exact absurd ((hcongr hsame).1 hz) hnot
      exact hlisted (hstay hz hback)

/-! ### Keys -/

/-- Cycles over files without bars have the same key only if they have the same files. -/
theorem mem_of_key_eq {c c' : Cycle} (hne : c.files ≠ []) (hne' : c'.files ≠ [])
    (hbar : ∀ f ∈ c.files, '|' ∉ f.chars) (hbar' : ∀ f ∈ c'.files, '|' ∉ f.chars)
    (hkey : c.key = c'.key) (spelling : String) :
    spelling ∈ c.files.map (·.spelling) ↔ spelling ∈ c'.files.map (·.spelling) := by
  -- The parts of the key are read back by cutting it at the bars.
  have hparts : ∀ {c : Cycle}, c.files ≠ [] → (∀ f ∈ c.files, '|' ∉ f.chars) →
      (c.key.split '|').toList.map (·.copy)
        = ((c.files.map (·.spelling)).mergeSort fun a b => decide (a ≤ b)).eraseDups := by
    intro c hne hbar
    rw [Cycle.key, show "|" = String.singleton '|' from rfl, String.toList_split_intercalate,
      if_neg]
    · intro hnil
      obtain ⟨f, hf⟩ := List.exists_mem_of_ne_nil _ hne
      have hmem : f.spelling ∈
          ((c.files.map (·.spelling)).mergeSort fun a b => decide (a ≤ b)).eraseDups := by
        rw [List.mem_eraseDups, List.mem_mergeSort]
        exact List.mem_map_of_mem hf
      rw [hnil] at hmem
      exact absurd hmem List.not_mem_nil
    · intro part hpart
      rw [List.mem_eraseDups, List.mem_mergeSort] at hpart
      obtain ⟨f, hf, rfl⟩ := List.mem_map.1 hpart
      exact hbar f hf
  have heq := hparts hne hbar
  rw [hkey, hparts hne' hbar'] at heq
  have hmem : ∀ l : List String, spelling ∈ (l.mergeSort fun a b => decide (a ≤ b)).eraseDups ↔
      spelling ∈ l := by
    intro l
    rw [List.mem_eraseDups, List.mem_mergeSort]
  rw [← hmem, ← heq, hmem]

/-! ### What is found -/

/-- `c` goes around `body`, which is given backwards, and a link leads from its end to `dep`, where
    it begins. -/
structure Loop (g : Graph) (c : Cycle) (body : List Path) (dep : Path) : Prop where
  files : c.files = body.reverse ++ [dep]
  start : ∃ inner first, body = inner ++ [first] ∧ first.Same dep
  distinct : Distinct body
  linked : body.IsChain fun a b => g.Link b a
  closing : ∀ last ∈ body.head?, g.Link last dep

variable {c : Cycle} {body : List Path} {dep : Path}

/-- A loop has a last file, which closes it. -/
theorem Loop.exists_head (h : g.Loop c body dep) : ∃ last rest, body = last :: rest := by
  obtain ⟨inner, first, rfl, -⟩ := h.start
  exact List.exists_cons_of_ne_nil (by simp)

/-- A loop is closed by the link from its last file to its first. -/
theorem Loop.closedBy {last : Path} {rest : List Path} (h : g.Loop c (last :: rest) dep) :
    c.ClosedBy last dep := by
  refine ⟨rest.reverse, last, dep, ?_, Same.refl last, Same.refl dep⟩
  rw [h.files, List.reverse_cons, List.append_assoc]
  rfl

/-- The files of a loop are those of its body. -/
theorem Loop.listed_files (h : g.Loop c body dep) : x.Listed c.files ↔ x.Listed body := by
  obtain ⟨inner, first, rfl, hfirst⟩ := h.start
  rw [h.files, listed_append, listed_reverse, or_iff_left_iff_imp, listed_cons]
  rintro (hdep | hnil)
  · exact listed_append.2 (Or.inr (listed_cons.2 (Or.inl (hfirst.trans hdep))))
  · exact absurd hnil (not_listed_nil x)

/-- A file of a linked stack leads to the file on top of it. -/
theorem reaches_top {top : Path} {below : List Path}
    (h : (top :: below).IsChain fun a b => g.Link b a) (hx : x ∈ top :: below) :
    Relation.ReflTransGen g.Link x top := by
  induction below generalizing top with
  | nil =>
    obtain rfl := List.mem_singleton.1 hx
    exact .refl
  | cons next below ih =>
    rcases List.mem_cons.1 hx with rfl | hx
    · exact .refl
    · obtain ⟨hlink, hrest⟩ := List.isChain_cons_cons.1 h
      exact (ih hrest hx).tail hlink

/-- A cycle that is found is a cycle. -/
theorem Loop.cyclic (h : g.Loop c body dep) : Relation.TransGen g.Link dep dep := by
  obtain ⟨last, rest, rfl⟩ := h.exists_head
  obtain ⟨inner, first, hbody, hfirst⟩ := h.start
  have hmem : first ∈ last :: rest := by rw [hbody]; simp
  have hcycle : Relation.TransGen g.Link first dep :=
    Relation.TransGen.tail' (reaches_top h.linked hmem) (h.closing last rfl)
  -- The cycle begins at another spelling of the file where it ends.
  obtain ⟨z, hlink, hback⟩ := (Relation.TransGen.head'_iff).1 hcycle
  exact Relation.TransGen.head' ((link_congr hfirst (Same.refl z)).1 hlink) hback

/-- The files of a loop are analysed. -/
theorem Loop.contains (h : g.Loop c body dep) (hx : x ∈ c.files) : g.contains x = true := by
  obtain ⟨last, rest, rfl⟩ := h.exists_head
  have hclosing := h.closing last rfl
  rw [h.files, List.mem_append, List.mem_reverse, List.mem_singleton] at hx
  rcases hx with hx | rfl
  · -- A file below the top has a link, and so has the top.
    rcases (Relation.ReflTransGen.cases_head (reaches_top h.linked hx)) with rfl | ⟨z, hlink, -⟩
    · exact hclosing.1
    · exact hlink.1
  · exact hclosing.2.1

/-- The loop goes on through a file on the stack that is not where it starts. -/
theorem loopFrom_cons {top : Path} {stack : List Path} (h : ¬top.Same dep) :
    loopFrom (top :: stack) dep = loopFrom stack dep ++ [top] := by
  simp [loopFrom, h]

/-- The part of a stack from `dep` on, where `dep` is on the stack. -/
theorem loopFrom_eq {stack : List Path} (h : dep.Listed stack) :
    ∃ inner first below, stack = inner ++ first :: below ∧ first.Same dep ∧
      loopFrom stack dep = (inner ++ [first]).reverse := by
  induction stack with
  | nil => exact absurd h (not_listed_nil dep)
  | cons top stack ih =>
    by_cases htop : top.Same dep
    · exact ⟨[], top, stack, rfl, htop, by simp [loopFrom, htop]⟩
    · obtain ⟨inner, first, below, rfl, hfirst, heq⟩ := ih ((listed_cons.1 h).resolve_left htop)
      refine ⟨top :: inner, first, below, rfl, hfirst, ?_⟩
      rw [loopFrom_cons htop, heq, List.cons_append, List.reverse_cons]

/-- The files that are found to go around when a link leads from the top of a stack to `dep`. -/
theorem loop_of_stack {top : Path} {below : List Path} (hdistinct : Distinct (top :: below))
    (hlinked : (top :: below).IsChain fun a b => g.Link b a) (hlink : g.Link top dep)
    (hdep : dep.Listed (top :: below)) :
    ∃ body, body <+: top :: below ∧ g.Loop ⟨loopFrom (top :: below) dep ++ [dep]⟩ body dep := by
  obtain ⟨inner, first, rest, hstack, hfirst, hloop⟩ := loopFrom_eq hdep
  have hfront : inner ++ [first] <+: top :: below := ⟨rest, by rw [hstack]; simp⟩
  refine ⟨inner ++ [first], hfront, ?_⟩
  constructor
  case files => rw [hloop]
  case start => exact ⟨inner, first, rfl, hfirst⟩
  case distinct => exact List.Pairwise.sublist hfront.sublist hdistinct
  case linked => exact List.IsChain.prefix hlinked hfront
  case closing =>
    -- The body ends on top of the stack, where the link starts.
    intro last hlast
    obtain ⟨rest', hrest⟩ := hfront
    rw [← List.head?_append_of_ne_nil _ (by simp), hrest] at hlast
    cases hlast
    exact hlink

/-- A distinct list and a beginning of it that lists the same files. -/
theorem eq_of_isPrefix {front whole : List Path} (hfront : front <+: whole)
    (hdistinct : Distinct whole) (h : ∀ x : Path, x.Listed whole → x.Listed front) :
    front = whole := by
  obtain ⟨rest, rfl⟩ := hfront
  cases rest with
  | nil => rw [List.append_nil]
  | cons next rest =>
    have hnext : next.Listed front :=
      h next (listed_append.2 (Or.inr (listed_of_mem List.mem_cons_self)))
    exact absurd (listed_of_mem List.mem_cons_self) ((distinct_append.1 hdistinct).2.2 next hnext)

/-- Two beginnings of a distinct list that list the same files. -/
theorem prefix_unique {a b : List Path} {whole : List Path} (hdistinct : Distinct whole)
    (ha : a <+: whole) (hb : b <+: whole) (h : ∀ x : Path, x.Listed a ↔ x.Listed b) : a = b := by
  rcases List.prefix_or_prefix_of_prefix ha hb with hab | hba
  · exact eq_of_isPrefix hab (List.Pairwise.sublist hb.sublist hdistinct) fun x => (h x).2
  · exact (eq_of_isPrefix hba (List.Pairwise.sublist ha.sublist hdistinct) fun x => (h x).1).symm

/-- Cycles that are found with one key go around the same files. -/
theorem Loop.listed_of_key_eq {c' : Cycle} {body' : List Path} {dep' : Path} (hbar : g.Unbarred)
    (h : g.Loop c body dep) (h' : g.Loop c' body' dep') (hkey : c.key = c'.key) (x : Path) :
    x.Listed c.files ↔ x.Listed c'.files := by
  have hspelling := mem_of_key_eq (by rw [h.files]; simp) (by rw [h'.files]; simp)
    (fun f hf => hbar.not_mem (h.contains hf)) (fun f hf => hbar.not_mem (h'.contains hf)) hkey
  -- The key speaks of spellings, and a path is determined by its spelling.
  have hmem : ∀ f : Path, f ∈ c.files ↔ f ∈ c'.files := by
    have hinjective : Function.Injective Path.spelling := fun _ _ => Path.ext_spelling
    intro f
    rw [← List.mem_map_of_injective hinjective, hspelling, List.mem_map_of_injective hinjective]
  unfold Listed
  simp only [hmem]

/-! ### Where the search stands -/

/-- A cycle was found, and if no bars are in the way one that `x` and `y` close. -/
def Reported (g : Graph) (s : CycleSearch) (x y : Path) : Prop :=
  s.found ≠ [] ∧ (g.Unbarred → ∃ c ∈ s.found, c.ClosedBy x y)

/-- What is reported stays reported. -/
theorem Reported.mono {s s' : CycleSearch} (hfound : s.found <:+ s'.found) (h : g.Reported s x y) :
    g.Reported s' x y := by
  refine ⟨fun hnil => h.1 ?_, fun hbar => ?_⟩
  · rw [hnil] at hfound
    exact List.suffix_nil.1 hfound
  · obtain ⟨c, hc, hclosed⟩ := h.2 hbar
    exact ⟨c, hfound.subset hc, hclosed⟩

/-- The closing link does not hang on how its ends are spelled. -/
theorem Cycle.ClosedBy.congr {x' y' : Path} (h : c.ClosedBy x y) (hx : x.Same x') (hy : y.Same y') :
    c.ClosedBy x' y' := by
  obtain ⟨front, u, v, hfiles, hu, hv⟩ := h
  exact ⟨front, u, v, hfiles, hu.trans hx, hv.trans hy⟩

/-- Neither does being reported. -/
theorem Reported.congr {s : CycleSearch} {x' y' : Path} (h : g.Reported s x y) (hx : x.Same x')
    (hy : y.Same y') : g.Reported s x' y' := by
  refine ⟨h.1, fun hbar => ?_⟩
  obtain ⟨c, hc, hclosed⟩ := h.2 hbar
  exact ⟨c, hc, hclosed.congr hx hy⟩

/-- The search stands at the top of `stack`, with the files in `order` finished. -/
structure Standing (g : Graph) (s : CycleSearch) (stack order : List Path) : Prop where
  distinct : Distinct (stack ++ order)
  visited_iff : ∀ x : Path, s.visited.contains x = true ↔ x.Listed (stack ++ order)
  analysed : ∀ x ∈ stack ++ order, g.contains x = true
  linked : stack.IsChain fun a b => g.Link b a
  settled : Settled g (g.Reported s) order
  keys_eq : s.keys = s.found.map (·.key)
  -- The last file of a cycle that was found is finished, or the cycle is still on the stack.
  loops : ∀ c ∈ s.found, ∃ body dep, g.Loop c body dep ∧
    ((∃ last rest, body = last :: rest ∧ last.Listed order) ∨ body <:+: stack)

variable {s : CycleSearch} {stack : List Path} {file : Path} {trail : List Path}

/-- The search starts with nothing visited and nothing found. -/
theorem standing_start (g : Graph) : g.Standing .start [] [] where
  distinct := List.Pairwise.nil
  visited_iff x := by simp [CycleSearch.start]
  analysed x hx := absurd hx List.not_mem_nil
  linked := List.IsChain.nil
  settled := .nil
  keys_eq := rfl
  loops c hc := absurd hc List.not_mem_nil

/-- A file that was not visited enters the stack. -/
theorem Standing.push (h : g.Standing s stack order) (hnew : ¬s.visited.contains dep = true)
    (hdep : g.contains dep = true) (hlink : ∀ top ∈ stack.head?, g.Link top dep) :
    g.Standing (s.visit dep) (dep :: stack) order where
  distinct := by
    refine List.pairwise_cons.2 ⟨fun q hq hsame => hnew ?_, h.distinct⟩
    exact (h.visited_iff dep).2 ⟨q, hq, hsame.symm⟩
  visited_iff x := by
    rw [CycleSearch.visit, PathSet.contains_add, List.cons_append, listed_cons, ← h.visited_iff]
    simp
  analysed x hx := by
    rcases List.mem_cons.1 hx with rfl | hx
    · exact hdep
    · exact h.analysed x hx
  linked := List.isChain_cons.2 ⟨hlink, h.linked⟩
  settled := h.settled
  keys_eq := h.keys_eq
  loops c hc := by
    -- A loop that lies on the stack still does, one place further down.
    obtain ⟨body, dep', hloop, hplace⟩ := h.loops c hc
    exact ⟨body, dep', hloop, hplace.imp_right fun hinfix => List.infix_cons hinfix⟩

/-- All the imports of the top file were looked at, and it leaves the stack. -/
theorem Standing.finish (h : g.Standing s (file :: trail) order)
    (hlinks : ∀ y, g.Link file y → y.Listed order ∨ g.Reported s file y) :
    g.Standing s trail (file :: order) where
  distinct := by
    have hperm : List.Perm (file :: trail ++ order) (trail ++ file :: order) := by
      rw [List.cons_append]
      exact List.perm_middle.symm
    exact (hperm.pairwise_iff fun hne hsame => hne hsame.symm).1 h.distinct
  visited_iff x := by
    rw [h.visited_iff, List.cons_append, listed_cons, listed_append, listed_append, listed_cons]
    tauto
  analysed x hx := by
    refine h.analysed x ?_
    rw [List.mem_append, List.mem_cons] at hx
    rw [List.cons_append, List.mem_cons, List.mem_append]
    tauto
  linked := h.linked.tail
  settled := .cons hlinks h.settled
  keys_eq := h.keys_eq
  loops c hc := by
    obtain ⟨body, dep, hloop, hplace⟩ := h.loops c hc
    refine ⟨body, dep, hloop, ?_⟩
    rcases hplace with ⟨last, rest, rfl, hlast⟩ | hinfix
    · exact Or.inl ⟨last, rest, rfl, listed_cons.2 (Or.inr hlast)⟩
    · rcases List.infix_cons_iff.1 hinfix with hfront | hinfix
      · -- The cycle ends in the file that is finished now.
        obtain ⟨last, rest, rfl⟩ := hloop.exists_head
        obtain ⟨rfl, -⟩ := List.cons_prefix_cons.1 hfront
        exact Or.inl ⟨last, rest, rfl, listed_cons.2 (Or.inl (Same.refl last))⟩
      · exact Or.inr hinfix

/-- A cycle that was found before goes around the files of the one that is met now: the two have the
    same last step. -/
theorem Standing.closed_before {body : List Path} {c' : Cycle}
    (h : g.Standing s (file :: trail) order) (hfront : body <+: file :: trail)
    (hloop : g.Loop c body dep) (hc' : c' ∈ s.found)
    (hfiles : ∀ x : Path, x.Listed c.files ↔ x.Listed c'.files) : c'.ClosedBy file dep := by
  obtain ⟨body', dep', hloop', hplace⟩ := h.loops c' hc'
  have hsame : ∀ x : Path, x.Listed body ↔ x.Listed body' := by
    intro x
    rw [← hloop.listed_files, ← hloop'.listed_files]
    exact hfiles x
  obtain ⟨hstack, -, hapart⟩ := distinct_append.1 h.distinct
  obtain ⟨last, rest, rfl⟩ := hloop.exists_head
  obtain ⟨rfl, hrest⟩ := List.cons_prefix_cons.1 hfront
  have hfront' : body' <+: last :: trail := by
    rcases hplace with ⟨last', rest', rfl, hlast'⟩ | hinfix
    · -- The files of the cycle are on the stack, so none of them is finished.
      obtain ⟨q, hq, hqs⟩ := (hsame last').2 (listed_of_mem List.mem_cons_self)
      exact absurd hlast' (hapart last' ⟨q, hfront.subset hq, hqs⟩)
    · rcases List.infix_cons_iff.1 hinfix with hfront' | hinfix'
      · exact hfront'
      · -- The file on top is on the other cycle too, so that one is not below it.
        obtain ⟨q, hq, hqs⟩ := (hsame last).1 (listed_of_mem List.mem_cons_self)
        exact absurd hqs.symm ((List.pairwise_cons.1 hstack).1 q (hinfix'.subset hq))
  obtain rfl := prefix_unique hstack hfront hfront' hsame
  -- Both cycles begin at the file at the bottom.
  obtain ⟨inner, first, hbody, hfirst⟩ := hloop.start
  obtain ⟨inner', first', hbody', hfirst'⟩ := hloop'.start
  rw [hbody] at hbody'
  obtain ⟨-, hfirsts⟩ := List.append_inj' hbody' rfl
  cases hfirsts
  exact hloop'.closedBy.congr (Same.refl last) (hfirst'.symm.trans hfirst)

/-- A link from the top file leads back into the stack. -/
theorem Standing.record (h : g.Standing s (file :: trail) order) (hlink : g.Link file dep)
    (hdep : dep.Listed (file :: trail)) :
    let s' := s.record ⟨loopFrom (file :: trail) dep ++ [dep]⟩
    g.Standing s' (file :: trail) order ∧ s.found <:+ s'.found ∧ g.Reported s' file dep := by
  obtain ⟨body, hfront, hloop⟩ := loop_of_stack (distinct_append.1 h.distinct).1 h.linked hlink hdep
  generalize (⟨loopFrom (file :: trail) dep ++ [dep]⟩ : Cycle) = c at hloop ⊢
  intro s'
  by_cases hkey : c.key ∈ s.keys
  · -- Nothing is recorded, so an earlier cycle has to account for the link.
    have hs' : s' = s := if_pos (List.contains_iff_mem.2 hkey)
    rw [hs']
    refine ⟨h, List.suffix_rfl, ?_, fun hbar => ?_⟩
    all_goals
      rw [h.keys_eq] at hkey
      obtain ⟨c', hc', hkey⟩ := List.mem_map.1 hkey
    · exact List.ne_nil_of_mem hc'
    · obtain ⟨body', dep', hloop', -⟩ := h.loops c' hc'
      exact ⟨c', hc',
        h.closed_before hfront hloop hc' (hloop.listed_of_key_eq hbar hloop' hkey.symm)⟩
  · have hs' : s' = { s with keys := c.key :: s.keys, found := c :: s.found } :=
      if_neg (by rwa [List.contains_iff_mem])
    have hfound : s.found <:+ s'.found := by
      rw [hs']
      exact List.suffix_cons c s.found
    refine ⟨?_, hfound, ?_, fun _ => ?_⟩
    · constructor
      case distinct => exact h.distinct
      case visited_iff => rw [hs']; exact h.visited_iff
      case analysed => exact h.analysed
      case linked => exact h.linked
      case settled => exact h.settled.mono fun _ _ => Reported.mono hfound
      case keys_eq => rw [hs', List.map_cons, h.keys_eq]
      case loops =>
        intro c' hc'
        rw [hs'] at hc'
        rcases List.mem_cons.1 hc' with rfl | hc'
        · exact ⟨body, dep, hloop, Or.inr hfront.isInfix⟩
        · exact h.loops c' hc'
    · rw [hs']
      exact List.cons_ne_nil c s.found
    · obtain ⟨last, rest, rfl⟩ := hloop.exists_head
      obtain ⟨rfl, -⟩ := List.cons_prefix_cons.1 hfront
      rw [hs']
      exact ⟨c, List.mem_cons_self, hloop.closedBy⟩

/-- The stack never has more files than were analysed. -/
theorem Standing.length_le (h : g.Standing s stack order) : stack.length ≤ g.size := by
  rw [size, ← PathMap.length_paths]
  refine length_le_of_distinct (distinct_append.1 h.distinct).1 fun x hx => ?_
  obtain ⟨q, hq, hqx⟩ := hx
  rw [PathMap.listed_paths]
  exact (g.contains_congr hqx).symm.trans (h.analysed q (List.mem_append_left order hq))

/-! ### The whole search -/

/-- From `s` to `s'` files were finished and cycles found, and nothing was lost. -/
structure Onward (g : Graph) (stack : List Path) (s : CycleSearch) (order : List Path)
    (s' : CycleSearch) (order' : List Path) : Prop where
  standing : g.Standing s' stack order'
  finished : order <:+ order'
  found : s.found <:+ s'.found

/-- Doing nothing is progress too. -/
theorem Onward.refl (h : g.Standing s stack order) : g.Onward stack s order s order :=
  ⟨h, List.suffix_rfl, List.suffix_rfl⟩

/-- Progress can be chained. -/
theorem Onward.trans {s' s'' : CycleSearch} {order' order'' : List Path}
    (h : g.Onward stack s order s' order') (h' : g.Onward stack s' order' s'' order'') :
    g.Onward stack s order s'' order'' :=
  ⟨h'.standing, h.finished.trans h'.finished, h.found.trans h'.found⟩

/-- A path that is listed at the end of a list is listed in it. -/
theorem listed_of_suffix {ps qs : List Path} (h : ps <:+ qs) (hx : x.Listed ps) : x.Listed qs := by
  obtain ⟨q, hq, hqx⟩ := hx
  exact ⟨q, h.subset hq, hqx⟩

/-- What each step of a fold settles is settled after the fold, if no later step undoes it. -/
theorem foldl_onward (step : CycleSearch → Path → CycleSearch)
    (done : CycleSearch → List Path → Path → Prop)
    (hkeep : ∀ {s order s' order' p}, g.Onward stack s order s' order' → done s order p →
      done s' order' p) (ps : List Path)
    (hstep : ∀ p ∈ ps, ∀ {s order}, g.Standing s stack order →
      ∃ order', g.Onward stack s order (step s p) order' ∧ done (step s p) order' p)
    (h : g.Standing s stack order) :
    ∃ order', g.Onward stack s order (ps.foldl step s) order' ∧
      ∀ p ∈ ps, done (ps.foldl step s) order' p := by
  induction ps generalizing s order with
  | nil => exact ⟨order, .refl h, fun p hp => absurd hp List.not_mem_nil⟩
  | cons p ps ih =>
    obtain ⟨order₁, hfirst, hp⟩ := hstep p List.mem_cons_self h
    obtain ⟨order₂, hrest, hps⟩ :=
      ih (fun q hq => hstep q (List.mem_cons_of_mem p hq)) hfirst.standing
    refine ⟨order₂, hfirst.trans hrest, fun q hq => ?_⟩
    rcases List.mem_cons.1 hq with rfl | hq
    · exact hkeep hrest hp
    · exact hps q hq

/-- The search after one import of the file on top of the stack. -/
def lookAt (g : Graph) (fuel : Nat) (stack : List Path) (s : CycleSearch) (dep : Path) :
    CycleSearch :=
  if !s.visited.contains dep then g.searchCycles fuel dep stack (s.visit dep)
  else if stack.any fun q => decide (q.Same dep) then s.record ⟨loopFrom stack dep ++ [dep]⟩
  else s

/-- One round of the search looks at each known dependency of the file. -/
theorem searchCycles_succ (g : Graph) (fuel : Nat) (file : Path) (trail : List Path)
    (s : CycleSearch) : g.searchCycles (fuel + 1) file trail s =
      (g.knownDependencies file).foldl (g.lookAt fuel (file :: trail)) s :=
  rfl

/-- The search with `fuel` finishes the file it starts from, whatever the stack below. -/
def Finishes (g : Graph) (fuel : Nat) : Prop :=
  ∀ {file : Path} {trail : List Path} {s : CycleSearch} {order : List Path},
    g.Standing s (file :: trail) order → g.size ≤ fuel + trail.length →
    ∃ order', g.Onward trail s order (g.searchCycles fuel file trail s) order' ∧ file.Listed order'

/-- The file that an import leads to is finished after it was looked at, or the import closed a
    cycle. -/
theorem lookAt_onward {fuel : Nat} (hfinishes : g.Finishes fuel)
    (hfuel : g.size ≤ fuel + 1 + trail.length) (hlink : g.Link file dep)
    (h : g.Standing s (file :: trail) order) :
    ∃ order', g.Onward (file :: trail) s order (g.lookAt fuel (file :: trail) s dep) order' ∧
      (dep.Listed order' ∨ g.Reported (g.lookAt fuel (file :: trail) s dep) file dep) := by
  unfold lookAt
  -- The import leads to a new file, to a file on the stack or to a finished one.
  split
  case isTrue hnew =>
    have hpush : g.Standing (s.visit dep) (dep :: file :: trail) order := by
      refine h.push (by simpa using hnew) hlink.2.1 fun top htop => ?_
      cases htop
      exact hlink
    obtain ⟨order', honward, hlisted⟩ := hfinishes hpush (by rw [List.length_cons]; omega)
    exact ⟨order', ⟨honward.standing, honward.finished, honward.found⟩, Or.inl hlisted⟩
  case isFalse hold =>
    have hlisted := (h.visited_iff dep).1 (by simpa using hold)
    by_cases hstack : dep.Listed (file :: trail)
    · rw [if_pos (by simpa [Listed] using hstack)]
      obtain ⟨hstanding, hfound, hreported⟩ := h.record hlink hstack
      exact ⟨order, ⟨hstanding, List.suffix_rfl, hfound⟩, Or.inr hreported⟩
    · rw [if_neg (by simpa [Listed] using hstack)]
      exact ⟨order, .refl h, Or.inl ((listed_append.1 hlisted).resolve_left hstack)⟩

/-- With enough fuel, the search of a file finishes that file. -/
theorem searchCycles_finishes (g : Graph) (fuel : Nat) : g.Finishes fuel := by
  induction fuel with
  | zero =>
    intro file trail s order h hfuel
    -- Then the stack would be longer than the number of files.
    have hlength := h.length_le
    rw [List.length_cons] at hlength
    omega
  | succ fuel ih =>
    intro file trail s order h hfuel
    have hfile : g.contains file = true := h.analysed file (by simp)
    rw [searchCycles_succ]
    -- Looking at the imports one by one leaves the stack as it is; then the file itself is
    -- finished.
    obtain ⟨order', honward, hdone⟩ := foldl_onward (g.lookAt fuel (file :: trail))
      (fun s order dep => dep.Listed order ∨ g.Reported s file dep)
      (fun honward hdone =>
        hdone.imp (listed_of_suffix honward.finished) (Reported.mono honward.found))
      (g.knownDependencies file)
      (fun dep hdep => lookAt_onward ih hfuel (link_of_mem_knownDependencies hfile hdep)) h
    refine ⟨file :: order', ⟨honward.standing.finish fun y hy => ?_, ?_, honward.found⟩, ?_⟩
    · obtain ⟨dep, hdep, hsame⟩ := listed_knownDependencies.2 ⟨hy.2.2, hy.2.1⟩
      exact (hdone dep hdep).imp (listed_congr hsame).1 (·.congr (Same.refl file) hsame)
    · exact honward.finished.trans (List.suffix_cons file order')
    · exact listed_cons.2 (Or.inl (Same.refl file))

/-- After the search from a file, that file is finished. -/
theorem searchFrom_onward {p : Path} (hp : g.contains p = true) (h : g.Standing s [] order) :
    ∃ order', g.Onward [] s order (g.searchFrom s p) order' ∧ p.Listed order' := by
  unfold searchFrom
  split
  case isTrue hold => exact ⟨order, .refl h, (h.visited_iff p).1 hold⟩
  case isFalse hnew =>
    have hpush := h.push hnew hp fun top htop => absurd htop (by simp)
    obtain ⟨order', honward, hlisted⟩ := g.searchCycles_finishes g.size hpush (by simp)
    exact ⟨order', ⟨honward.standing, honward.finished, honward.found⟩, hlisted⟩

/-- The files of the graph are those that it contains. -/
theorem listed_files : x.Listed (g.files.map (·.path)) ↔ g.contains x = true := by
  constructor
  · rintro ⟨p, hp, hsame⟩
    obtain ⟨node, hnode, rfl⟩ := List.mem_map.1 hp
    obtain ⟨y, hy⟩ := PathMap.mem_values.1 hnode
    rw [← g.contains_congr hsame, g.contains_congr (g.keyed y node hy)]
    exact PathMap.contains_iff_exists_get?.2 ⟨node, hy⟩
  · intro hx
    obtain ⟨node, hnode⟩ := PathMap.contains_iff_exists_get?.1 hx
    have hmem : node ∈ g.files := PathMap.mem_values.2 ⟨x, hnode⟩
    exact ⟨node.path, List.mem_map_of_mem hmem, g.keyed x node hnode⟩

/-- The analysed files are in the order of their paths, each once. -/
theorem increasing_files (g : Graph) : (g.files.map (·.path)).Pairwise Before := by
  have hkeys : (g.files.map (·.path)).map (·.components) = g.nodes.paths.map (·.components) := by
    rw [files, PathMap.values, PathMap.paths, List.map_map, List.map_map, List.map_map]
    refine List.map_congr_left fun entry hentry => ?_
    have hget : g.nodes.get? entry.1 = some entry.2 := by
      rw [PathMap.get?, PathMap.mem_toList.1 hentry]
      rfl
    exact g.keyed entry.1 entry.2 hget
  have hordered := Std.ExtTreeMap.ordered_keys (t := g.nodes.table)
  rwa [← PathMap.map_components_paths, ← hkeys, List.pairwise_map] at hordered

/-- Known dependencies are visited in increasing order. -/
theorem increasing_knownDependencies (g : Graph) (p : Path) :
    (g.knownDependencies p).Pairwise Before := by
  unfold knownDependencies dependenciesOf
  apply List.Pairwise.filter
  cases g.dependenciesOf? p with
  | none => exact List.Pairwise.nil
  | some set => exact set.increasing_paths

/-- After the search every analysed file is finished. -/
theorem exists_standing_cycles (g : Graph) :
    ∃ s order, g.Standing s [] order ∧ s.found.reverse = g.cycles ∧
      ∀ x : Path, g.contains x = true → x.Listed order := by
  obtain ⟨order, honward, hdone⟩ := foldl_onward g.searchFrom (fun _ order p => p.Listed order)
    (fun honward hdone => listed_of_suffix honward.finished hdone) (g.files.map (·.path))
    (fun p hp => searchFrom_onward (listed_files.1 (listed_of_mem hp))) g.standing_start
  refine ⟨_, order, honward.standing, rfl, fun x hx => ?_⟩
  obtain ⟨p, hp, hsame⟩ := listed_files.2 hx
  exact (listed_congr hsame).1 (hdone p hp)

/-! ### Every cycle is met -/

/-- An import between analysed files that is not the last step of a found cycle. -/
def OpenLink (g : Graph) (a b : Path) : Prop :=
  g.Link a b ∧ ¬∃ c ∈ g.cycles, c.ClosedBy a b

/-- What is found goes around. -/
theorem exists_loop_of_mem_cycles (hc : c ∈ g.cycles) : ∃ body dep, g.Loop c body dep := by
  obtain ⟨s, order, hstanding, hcycles, -⟩ := g.exists_standing_cycles
  rw [← hcycles, List.mem_reverse] at hc
  obtain ⟨body, dep, hloop, -⟩ := hstanding.loops c hc
  exact ⟨body, dep, hloop⟩

/-- Where a cycle is reported, links lead back to some file. -/
theorem exists_cycle_of_mem_cycles (hc : c ∈ g.cycles) : ∃ a, Relation.TransGen g.Link a a := by
  obtain ⟨body, dep, hloop⟩ := exists_loop_of_mem_cycles hc
  exact ⟨dep, hloop.cyclic⟩

/-- A cycle begins at an analysed file. -/
theorem contains_of_transGen {R : Path → Path → Prop} (himp : ∀ a b, R a b → g.Link a b)
    (h : Relation.TransGen R x y) : g.contains x = true := by
  obtain ⟨z, hlink, -⟩ := (Relation.TransGen.head'_iff).1 h
  exact (himp x z hlink).1

/-- Where none is reported, links lead back to no file. -/
theorem acyclic_of_cycles_eq_nil (h : g.cycles = []) : ¬Relation.TransGen g.Link x x := by
  obtain ⟨s, order, hstanding, hcycles, hlisted⟩ := g.exists_standing_cycles
  rw [h, List.reverse_eq_nil_iff] at hcycles
  have hnone : ∀ a b, ¬g.Reported s a b := fun a b hreported => hreported.1 hcycles
  intro hcycle
  have hx := hlisted x (contains_of_transGen (fun _ _ => id) hcycle)
  refine hstanding.settled.acyclic (fun _ => by simp [hnone]) hx ?_
  have hopen : g.Link ≤ fun a b => g.Link a b ∧ ¬g.Reported s a b :=
    fun a b hlink => ⟨hlink, hnone a b⟩
  exact Relation.TransGen.mono hopen x x hcycle

/-- Without the last steps of the found cycles, no cycle is left. -/
theorem acyclic_openLink (hbar : g.Unbarred) : ¬Relation.TransGen g.OpenLink x x := by
  obtain ⟨s, order, hstanding, hcycles, hlisted⟩ := g.exists_standing_cycles
  intro hcycle
  have hx := hlisted x (contains_of_transGen (fun _ _ => And.left) hcycle)
  refine hstanding.settled.acyclic (fun hsame => ?_) hx ?_
  · exact ⟨fun h => h.congr hsame (Same.refl _), fun h => h.congr hsame.symm (Same.refl _)⟩
  · have hopen : g.OpenLink ≤ fun a b => g.Link a b ∧ ¬g.Reported s a b := by
      intro a b hopen
      refine ⟨hopen.1, fun hreported => hopen.2 ?_⟩
      obtain ⟨c, hc, hclosed⟩ := hreported.2 hbar
      refine ⟨c, ?_, hclosed⟩
      rw [← hcycles, List.mem_reverse]
      exact hc
    exact Relation.TransGen.mono hopen x x hcycle

/-- Whether a link is open does not hang on how its ends are spelled. -/
theorem OpenLink.congr {x' y' : Path} (h : g.OpenLink x y) (hx : x.Same x') (hy : y.Same y') :
    g.OpenLink x' y' := by
  refine ⟨(link_congr hx hy).1 h.1, ?_⟩
  rintro ⟨c, hc, hclosed⟩
  exact h.2 ⟨c, hc, hclosed.congr hx.symm hy.symm⟩

/-- A walk along links that ends where it began. -/
structure ClosedWalk (g : Graph) (files : List Path) : Prop where
  linked : files.IsChain g.Link
  long : 2 ≤ files.length
  closed : ∀ first ∈ files.head?, ∀ last ∈ files.getLast?, last.Same first

/-- Every cycle has a step that is the last step of a found cycle. -/
theorem ClosedWalk.exists_closing {files : List Path} (hbar : g.Unbarred) (h : g.ClosedWalk files) :
    ∃ front a b back, files = front ++ a :: b :: back ∧ ∃ c ∈ g.cycles, c.ClosedBy a b := by
  by_contra hnone
  -- Otherwise the walk goes along open links only, which do not go around.
  have hopen : files.IsChain g.OpenLink := by
    rw [List.isChain_iff_forall_rel_of_append_cons_cons]
    intro a b front back hfiles
    refine ⟨List.isChain_iff_forall_rel_of_append_cons_cons.1 h.linked hfiles, fun hclosed => ?_⟩
    exact hnone ⟨front, a, b, back, hfiles, hclosed⟩
  match files, h, hopen with
  | [], h, _ => exact absurd h.long (by simp)
  | [first], h, _ => exact absurd h.long (by simp)
  | first :: next :: rest, h, hopen =>
    have hsame := h.closed first rfl _ (List.getLast?_eq_some_getLast (List.cons_ne_nil _ _))
    rw [List.getLast_cons (List.cons_ne_nil _ _)] at hsame
    obtain ⟨hstep, hrest⟩ := List.isChain_cons_cons.1 hopen
    have hwalk := List.relationReflTransGen_of_exists_isChain_cons rest hrest rfl
    -- The walk is a cycle of the spelling that it ends with.
    exact acyclic_openLink hbar
      (Relation.TransGen.head' (hstep.congr hsame.symm (Same.refl next)) hwalk)

/-- **Finding cycles.** In every graph, no cycle is found exactly when the imports between analysed
    files go around nowhere. If no analysed file has a bar in its path, every walk that ends where
    it began makes the last step of some found cycle, so without these steps nothing goes around. -/
theorem cycles_complete (g : Graph) :
    (g.cycles = [] ↔ ¬∃ a, Relation.TransGen g.Link a a) ∧
      (g.Unbarred →
        (∀ files, g.ClosedWalk files →
          ∃ front a b back, files = front ++ a :: b :: back ∧ ∃ c ∈ g.cycles, c.ClosedBy a b) ∧
        ¬∃ a, Relation.TransGen g.OpenLink a a) := by
  refine ⟨⟨?_, ?_⟩, fun hbar => ⟨fun files h => h.exists_closing hbar, ?_⟩⟩
  · rintro hnil ⟨a, hcycle⟩
    exact acyclic_of_cycles_eq_nil hnil hcycle
  · intro hacyclic
    exact List.eq_nil_iff_forall_not_mem.2 fun c hc => hacyclic (exists_cycle_of_mem_cycles hc)
  · rintro ⟨a, hcycle⟩
    exact acyclic_openLink hbar hcycle

namespace Sample

/-- Two files that import each other, and a third on a longer way from the one to the other. -/
def chorded : Graph :=
  .ofNodes (.ofString "/p")
    [fileAt "/p/a.ts" ["/p/b.ts", "/p/c.ts"], fileAt "/p/b.ts" ["/p/a.ts"],
      fileAt "/p/c.ts" ["/p/b.ts"]]

/-- The third file. -/
def bypass : Path :=
  .ofString "/p/c.ts"

/-- A link of the sample graph, as evaluation finds it. -/
theorem link_of_imports {a b : Path} (h : chorded.contains a = true ∧ chorded.contains b = true ∧
    (chorded.dependenciesOf a).contains b = true) : chorded.Link a b :=
  ⟨h.1, h.2.1, listed_dependenciesOf.1 (listed_of_mem (List.contains_iff_mem.1 h.2.2))⟩

/-- No file of the sample graph has a bar in its path. -/
theorem unbarred_chorded : chorded.Unbarred := by
  unfold Unbarred
  decide +kernel

/-- From the first file to the third one, to the second one and back. -/
theorem closedWalk_chorded : chorded.ClosedWalk
    [.ofString "/p/a.ts", bypass, .ofString "/p/b.ts", .ofString "/p/a.ts"] := by
  have hout : chorded.Link (.ofString "/p/a.ts") bypass := link_of_imports (by decide +kernel)
  have hacross : chorded.Link bypass (.ofString "/p/b.ts") := link_of_imports (by decide +kernel)
  have hback : chorded.Link (.ofString "/p/b.ts") (.ofString "/p/a.ts") :=
    link_of_imports (by decide +kernel)
  refine ⟨by simp [hout, hacross, hback], by simp, ?_⟩
  rintro first ⟨⟩ last ⟨⟩
  exact Same.refl _

/-- That walk goes around through a file that is on no found cycle, and still makes the last step of
    one. -/
theorem cycles_complete_chorded :
    chorded.Unbarred ∧
    chorded.ClosedWalk [.ofString "/p/a.ts", bypass, .ofString "/p/b.ts", .ofString "/p/a.ts"] ∧
    (∃ front a b back,
      [.ofString "/p/a.ts", bypass, .ofString "/p/b.ts", .ofString "/p/a.ts"]
        = front ++ a :: b :: back ∧ ∃ c ∈ chorded.cycles, c.ClosedBy a b) ∧
    ¬∃ a, Relation.TransGen chorded.OpenLink a a := by
  obtain ⟨hclosing, hopen⟩ := (cycles_complete chorded).2 unbarred_chorded
  exact ⟨unbarred_chorded, closedWalk_chorded, hclosing _ closedWalk_chorded, hopen⟩

end Sample

end BlastRadius.Graph
