import BlastRadius.Proofs.Cycles
import Mathlib.Data.List.Dedup
import Mathlib.Data.Finset.Card

namespace BlastRadius.Graph

/-!
# The cycles that are found are cycles, and no two have the same files

Every link is looked at once, when the file that it starts from is on top of the stack. A cycle is
found only when its last link is looked at, and a cycle that is found with the files of another one
has the same last link. So no two cycles have the same files, whatever their keys are.

* `Cycle.SimpleIn` — a walk along imports of analysed files that ends where it began and comes to no
  file twice before; `Loop.simpleIn` — what is found is such a walk.
* `Cycle.SameFiles`, `CycleSearch.Apart` — no two of the cycles found have the same files.
* `lookAt_apart` — looking at a link that was not looked at keeps them apart, and closes a new cycle
  only by this link or above the stack; hence so does the whole search (`searchCycles_apart`).
* `cycles_sound` — the cycles that are found, for every graph.
-/

open BlastRadius.Path

variable {g : Graph} {c : Cycle} {s : CycleSearch} {body trail order deps : List Path}
  {file dep x y : Path}

/-! ### What is found -/

/-- A walk along imports of analysed files that ends where it began, and comes to no file twice
    before. -/
structure Cycle.SimpleIn (c : Cycle) (g : Graph) : Prop where
  long : 2 ≤ c.files.length
  closed : ∃ first last, c.files.head? = some first ∧ c.files.getLast? = some last ∧ first.Same last
  distinct : Distinct c.files.dropLast
  analysed : ∀ x ∈ c.files.dropLast, g.contains x = true
  linked : c.files.IsChain fun x y => y.Listed (g.dependenciesOf x)

/-- Without its repeated last file, a loop is its body. -/
theorem Loop.dropLast_files (h : g.Loop c body dep) : c.files.dropLast = body.reverse := by
  rw [h.files, List.dropLast_concat]

/-- The body of a found cycle is linked backwards, and its top is linked to the file that closes the
    cycle. -/
theorem Loop.isChain_files (h : g.Loop c body dep) : c.files.IsChain g.Link := by
  rw [h.files, List.isChain_append]
  refine ⟨List.isChain_reverse.2 h.linked, List.IsChain.singleton dep,
    fun last hlast first hfirst => ?_⟩
  rw [List.getLast?_reverse] at hlast
  cases hfirst
  exact h.closing last hlast

/-- A loop is a simple cycle. -/
theorem Loop.simpleIn (h : g.Loop c body dep) : c.SimpleIn g := by
  obtain ⟨inner, first, hbody, hfirst⟩ := h.start
  constructor
  case long =>
    rw [h.files, hbody]
    simp
  case closed =>
    refine ⟨first, dep, ?_, ?_, hfirst⟩
    · rw [h.files, hbody]
      simp
    · rw [h.files, List.getLast?_concat]
  case distinct =>
    rw [h.dropLast_files]
    exact List.pairwise_reverse.2 (h.distinct.imp fun hne hsame => hne hsame.symm)
  case analysed =>
    intro x hx
    exact h.contains (List.mem_of_mem_dropLast hx)
  case linked => exact h.isChain_files.imp fun x y hlink => listed_dependenciesOf.2 hlink.2.2

/-- The length of a found cycle is the number of its files. -/
theorem Loop.length_eq (h : g.Loop c body dep) :
    c.length = (c.files.map (·.components)).toFinset.card := by
  have hfiles : (c.files.map (·.components)).toFinset = (body.map (·.components)).toFinset := by
    ext key
    rw [List.mem_toFinset, List.mem_toFinset, List.mem_map, List.mem_map]
    constructor
    · rintro ⟨x, hx, rfl⟩
      obtain ⟨y, hy, hsame⟩ := h.listed_files.1 (listed_of_mem hx)
      exact ⟨y, hy, hsame⟩
    · rintro ⟨x, hx, rfl⟩
      obtain ⟨y, hy, hsame⟩ := h.listed_files.2 (listed_of_mem hx)
      exact ⟨y, hy, hsame⟩
  rw [hfiles, List.toFinset_card_of_nodup (distinct_iff_nodup.1 h.distinct), List.length_map,
    Cycle.length, h.files, List.length_append, List.length_reverse, List.length_singleton,
    Nat.add_sub_cancel]

/-! ### Cycles with the same files -/

/-- Two cycles go around the same files. -/
def Cycle.SameFiles (c c' : Cycle) : Prop :=
  ∀ x : Path, x.Listed c.files ↔ x.Listed c'.files

/-- No two of the cycles found go around the same files. -/
def CycleSearch.Apart (s : CycleSearch) : Prop :=
  s.found.Pairwise fun c c' => ¬c.SameFiles c'

/-- No cycle found has its last step from `file` to one of `deps`. -/
def CycleSearch.Untaken (s : CycleSearch) (file : Path) (deps : List Path) : Prop :=
  ∀ c ∈ s.found, ∀ dep ∈ deps, ¬c.ClosedBy file dep

/-- A cycle has one last step. -/
theorem Cycle.ClosedBy.unique {x' y' : Path} (h : c.ClosedBy x y) (h' : c.ClosedBy x' y') :
    x.Same x' ∧ y.Same y' := by
  obtain ⟨front, u, v, hfiles, hu, hv⟩ := h
  obtain ⟨front', u', v', hfiles', hu', hv'⟩ := h'
  rw [hfiles] at hfiles'
  obtain ⟨-, hlast⟩ := List.append_inj' hfiles' rfl
  cases hlast
  exact ⟨hu.symm.trans hu', hv.symm.trans hv'⟩

/-- The last step of a found cycle starts from a visited file. -/
theorem Standing.visited_of_closedBy {stack : List Path} (h : g.Standing s stack order)
    (hc : c ∈ s.found) (hclosed : c.ClosedBy x y) : s.visited.contains x = true := by
  obtain ⟨body, dep, hloop, hplace⟩ := h.loops c hc
  obtain ⟨last, rest, rfl⟩ := hloop.exists_head
  have hlast : last.Same x := (hloop.closedBy.unique hclosed).1
  rw [h.visited_iff, ← listed_congr hlast, listed_append]
  rcases hplace with ⟨last', rest', hbody, hlisted⟩ | hinside
  · cases hbody
    exact Or.inr hlisted
  · exact Or.inl (listed_of_mem (hinside.subset List.mem_cons_self))

/-- A file that was not visited has no last step of a found cycle. -/
theorem Standing.untaken {stack : List Path} (h : g.Standing s stack order)
    (hnew : ¬s.visited.contains file = true) (deps : List Path) : s.Untaken file deps := by
  intro c hc dep _ hclosed
  exact hnew (h.visited_of_closedBy hc hclosed)

/-- A link that leads back into the stack, and was not looked at before, closes a cycle with new
    files. -/
theorem Standing.record_apart (h : g.Standing s (file :: trail) order) (hlink : g.Link file dep)
    (hdep : dep.Listed (file :: trail)) (hapart : s.Apart)
    (hnew : ∀ c ∈ s.found, ¬c.ClosedBy file dep) :
    let s' := s.record ⟨loopFrom (file :: trail) dep ++ [dep]⟩
    s'.Apart ∧ ∀ c ∈ s'.found, c ∈ s.found ∨ c.ClosedBy file dep := by
  obtain ⟨body, hfront, hloop⟩ := loop_of_stack (distinct_append.1 h.distinct).1 h.linked hlink hdep
  generalize (⟨loopFrom (file :: trail) dep ++ [dep]⟩ : Cycle) = c at hloop ⊢
  intro s'
  -- A cycle whose key is taken is dropped, and changes nothing.
  by_cases hkey : s.keys.contains c.key = true
  · have hs' : s' = s := if_pos hkey
    rw [hs']
    exact ⟨hapart, fun c' hc' => Or.inl hc'⟩
  · have hs' : s' = { s with keys := c.key :: s.keys, found := c :: s.found } := if_neg hkey
    rw [hs']
    refine ⟨List.pairwise_cons.2 ⟨fun c' hc' hfiles => ?_, hapart⟩, fun c' hc' => ?_⟩
    · -- A reported cycle of the same files would have been closed by this link before.
      exact hnew c' hc' (h.closed_before hfront hloop hc' hfiles)
    · rcases List.mem_cons.1 hc' with rfl | hc'
      · obtain ⟨last, rest, rfl⟩ := hloop.exists_head
        obtain ⟨rfl, -⟩ := List.cons_prefix_cons.1 hfront
        exact Or.inr hloop.closedBy
      · exact Or.inl hc'

/-! ### The whole search -/

/-- What was found since `s` has its last step from a file that is not listed. -/
def CycleSearch.ClosesOff (s s' : CycleSearch) (files : List Path) : Prop :=
  ∀ c ∈ s'.found, c ∈ s.found ∨ ∃ x y, c.ClosedBy x y ∧ ¬x.Listed files

/-- The search with `fuel` keeps the cycles found apart, and finds only cycles that close above
    `trail`. -/
def KeepsApart (g : Graph) (fuel : Nat) : Prop :=
  ∀ {file : Path} {trail : List Path} {s : CycleSearch} {order : List Path},
    g.Standing s (file :: trail) order → g.size ≤ fuel + trail.length → s.Apart →
    (∀ deps, s.Untaken file deps) →
    (g.searchCycles fuel file trail s).Apart ∧ s.ClosesOff (g.searchCycles fuel file trail s) trail

/-- **One link.** Looking at a link that was not looked at keeps the cycles apart. What is found has
    this link as its last step, or one that starts above the stack. -/
theorem lookAt_apart {fuel : Nat} (hkeeps : g.KeepsApart fuel)
    (hfuel : g.size ≤ fuel + 1 + trail.length) (hlink : g.Link file dep)
    (h : g.Standing s (file :: trail) order) (hapart : s.Apart)
    (hnew : ∀ c ∈ s.found, ¬c.ClosedBy file dep) : (g.lookAt fuel (file :: trail) s dep).Apart ∧
      ∀ c ∈ (g.lookAt fuel (file :: trail) s dep).found, c ∈ s.found ∨ c.ClosedBy file dep ∨
        ∃ x y, c.ClosedBy x y ∧ ¬x.Listed (file :: trail) := by
  unfold lookAt
  -- The link leads to a new file, to a file on the stack or to a finished one.
  split
  case isTrue hunvisited =>
    have hunvisited : ¬s.visited.contains dep = true := by simpa using hunvisited
    have hpush : g.Standing (s.visit dep) (dep :: file :: trail) order := by
      refine h.push hunvisited hlink.2.1 fun top htop => ?_
      cases htop
      exact hlink
    have hbound : g.size ≤ fuel + (file :: trail).length := by
      rw [List.length_cons]
      omega
    obtain ⟨hfound, hcloses⟩ := hkeeps hpush hbound hapart (h.untaken hunvisited)
    exact ⟨hfound, fun c hc => (hcloses c hc).imp_right Or.inr⟩
  case isFalse hvisited =>
    by_cases hstack : dep.Listed (file :: trail)
    · rw [if_pos (by simpa [Listed] using hstack)]
      obtain ⟨hfound, hclosed⟩ := h.record_apart hlink hstack hapart hnew
      exact ⟨hfound, fun c hc => (hclosed c hc).imp_right Or.inl⟩
    · rw [if_neg (by simpa [Listed] using hstack)]
      exact ⟨hapart, fun c hc => Or.inl hc⟩

/-- What is found when a link is looked at is closed by this link or above the stack, so not by a
    link that is still to come. -/
theorem lookAt_untaken {fuel : Nat} (hkeeps : g.KeepsApart fuel)
    (hfuel : g.size ≤ fuel + 1 + trail.length) (hlink : g.Link file dep)
    (h : g.Standing s (file :: trail) order) (hapart : s.Apart)
    (hother : ∀ dep' ∈ deps, ¬dep.Same dep') (huntaken : s.Untaken file (dep :: deps)) :
    (g.lookAt fuel (file :: trail) s dep).Untaken file deps := by
  intro c hc dep' hdep' hlater
  rcases (lookAt_apart hkeeps hfuel hlink h hapart fun c hc =>
    huntaken c hc dep List.mem_cons_self).2 c hc with hold | hthis | ⟨x, y, habove, hx⟩
  · exact huntaken c hold dep' (List.mem_cons_of_mem dep hdep') hlater
  · exact hother dep' hdep' (hthis.unique hlater).2
  · exact hx (listed_cons.2 (Or.inl (habove.unique hlater).1.symm))

/-- **The links of one file**, each looked at once. -/
theorem foldl_lookAt_apart {fuel : Nat} (hkeeps : g.KeepsApart fuel)
    (hfuel : g.size ≤ fuel + 1 + trail.length) (hdistinct : Distinct deps)
    (hlinks : ∀ dep ∈ deps, g.Link file dep) (h : g.Standing s (file :: trail) order)
    (hapart : s.Apart) (huntaken : s.Untaken file deps) :
    (deps.foldl (g.lookAt fuel (file :: trail)) s).Apart ∧
      s.ClosesOff (deps.foldl (g.lookAt fuel (file :: trail)) s) trail := by
  induction deps generalizing s order with
  | nil => exact ⟨hapart, fun c hc => Or.inl hc⟩
  | cons dep deps ih =>
    obtain ⟨hdep, hdeps⟩ := List.pairwise_cons.1 hdistinct
    have hlink := hlinks dep List.mem_cons_self
    obtain ⟨hfound, hclosed⟩ := lookAt_apart hkeeps hfuel hlink h hapart
      fun c hc => huntaken c hc dep List.mem_cons_self
    obtain ⟨order', honward, -⟩ := lookAt_onward (searchCycles_finishes g fuel) hfuel hlink h
    obtain ⟨hfound', hcloses⟩ :=
      ih hdeps (fun dep' hdep' => hlinks dep' (List.mem_cons_of_mem dep hdep'))
      honward.standing hfound (lookAt_untaken hkeeps hfuel hlink h hapart hdep huntaken)
    refine ⟨hfound', fun c hc => ?_⟩
    rcases hcloses c hc with hc | hlater
    · rcases hclosed c hc with hold | hthis | ⟨x, y, habove, hx⟩
      · exact Or.inl hold
      · -- The file on top of the stack is not below itself.
        have hfile : ¬file.Listed trail := by
          rintro ⟨q, hq, hsame⟩
          exact (List.pairwise_cons.1 (distinct_append.1 h.distinct).1).1 q hq hsame.symm
        exact Or.inr ⟨file, dep, hthis, hfile⟩
      · exact Or.inr ⟨x, y, habove, fun hlisted => hx (listed_cons.2 (Or.inr hlisted))⟩
    · exact Or.inr hlater

/-- No known dependency comes twice. -/
theorem distinct_knownDependencies (g : Graph) (p : Path) : Distinct (g.knownDependencies p) :=
  (g.increasing_knownDependencies p).imp fun hbefore => hbefore.not_same

/-- The search of a file keeps the reported cycles apart. -/
theorem searchCycles_apart (g : Graph) (fuel : Nat) : g.KeepsApart fuel := by
  induction fuel with
  | zero => exact fun _ _ hapart _ => ⟨hapart, fun c hc => Or.inl hc⟩
  | succ fuel ih =>
    intro file trail s order h hfuel hapart huntaken
    have hfile : g.contains file = true := h.analysed file (by simp)
    rw [searchCycles_succ]
    exact foldl_lookAt_apart ih hfuel (g.distinct_knownDependencies file)
      (fun dep hdep => link_of_mem_knownDependencies hfile hdep) h hapart (huntaken _)

/-- So does the search from one file. -/
theorem searchFrom_apart {p : Path} (hp : g.contains p = true) (h : g.Standing s [] order)
    (hapart : s.Apart) : (g.searchFrom s p).Apart := by
  unfold searchFrom
  split
  case isTrue => exact hapart
  case isFalse hnew =>
    have hpush := h.push hnew hp fun top htop => absurd htop (by simp)
    exact (g.searchCycles_apart g.size hpush (by simp) hapart (h.untaken hnew)).1

/-- So does the search from one file after the other. -/
theorem foldl_searchFrom_apart {roots : List Path} (hroots : ∀ p ∈ roots, g.contains p = true)
    (h : g.Standing s [] order) (hapart : s.Apart) : (roots.foldl g.searchFrom s).Apart := by
  induction roots generalizing s order with
  | nil => exact hapart
  | cons p roots ih =>
    have hp := hroots p List.mem_cons_self
    obtain ⟨order', honward, -⟩ := searchFrom_onward hp h
    exact ih (fun q hq => hroots q (List.mem_cons_of_mem p hq)) honward.standing
      (searchFrom_apart hp h hapart)

/-- No two cycles that are found go around the same files. -/
theorem pairwise_cycles (g : Graph) : g.cycles.Pairwise fun c c' => ¬c.SameFiles c' := by
  have hapart : ((g.files.map (·.path)).foldl g.searchFrom .start).Apart :=
    foldl_searchFrom_apart (fun p hp => listed_files.1 (listed_of_mem hp)) g.standing_start
      List.Pairwise.nil
  unfold cycles
  exact List.pairwise_reverse.2 (hapart.imp fun hne hfiles => hne fun x => (hfiles x).symm)

/-- **What is found.** In every graph, every cycle that is found has at least two files, of which
    the first is the last again; the others are different analysed files, and each imports the next.
    The length of the cycle is the number of its files. No two cycles that are found have the same
    files. -/
theorem cycles_sound (g : Graph) :
    (∀ c ∈ g.cycles, c.SimpleIn g ∧ c.length = (c.files.map (·.components)).toFinset.card) ∧
      g.cycles.Pairwise fun c c' => ¬c.SameFiles c' := by
  refine ⟨fun c hc => ?_, g.pairwise_cycles⟩
  obtain ⟨body, dep, hloop⟩ := exists_loop_of_mem_cycles hc
  exact ⟨hloop.simpleIn, hloop.length_eq⟩

end BlastRadius.Graph
