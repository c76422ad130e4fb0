import BlastRadius.Graph.Impact
import BlastRadius.Proofs.Adjacency
import Mathlib.Data.Set.Card
import Mathlib.Logic.Relation
import Mathlib.Order.Lattice.Nat

namespace BlastRadius.Graph

/-!
# Impact is reachability

The impact of a file is found by a breadth-first search through dependents. This file compares the
search with chains of imports:

* `Chain` — a file reaches another one through a number of imports; `distance` is the least such
  number.
* `Frontier` — where the search stands between two distances; `Frontier.step` for one file that
  leaves the queue, `Frontier.shift` for the change to the next distance.
* `Budget` — the search never has more files in its queue than there are steps left.
* `spread_spec` — what the search finds, by induction on its steps.
* `impact_reaches` — the impact of a file after every history of changes.
-/

open BlastRadius.Path

variable {g : Graph} {p x y : Path}

/-! ### Chains of imports -/

/-- `a` reaches `b` through `n` imports. -/
inductive Chain (g : Graph) : Nat → Path → Path → Prop where
  | here {a b : Path} (h : a.Same b) : Chain g 0 a b
  | step {n : Nat} {a b c : Path} (h : g.Imports a b) (rest : Chain g n b c) : Chain g (n + 1) a c

/-- The least number of imports through which `a` reaches `b`. -/
noncomputable def distance (g : Graph) (a b : Path) : Nat :=
  sInf {n | g.Chain n a b}

/-- `x` reaches `p` through `n` imports and through no fewer. -/
def AtDistance (g : Graph) (p : Path) (n : Nat) (x : Path) : Prop :=
  g.Chain n x p ∧ ∀ m < n, ¬g.Chain m x p

/-- There is a chain from a file to another one if they are the same or imports lead there. -/
theorem exists_chain_iff : (∃ n, g.Chain n x p) ↔ x.Same p ∨ Relation.TransGen g.Imports x p := by
  constructor
  · rintro ⟨n, h⟩
    induction h with
    | here h => exact Or.inl h
    | step h _ ih =>
      rcases ih with hsame | hrest
      · exact Or.inr (.single ((imports_congr (Same.refl _) hsame).1 h))
      · exact Or.inr (.head h hrest)
  · rintro (hsame | h)
    · exact ⟨0, .here hsame⟩
    · -- The first import of the walk is the first step of the chain.
      induction h using Relation.TransGen.head_induction_on with
      | single h => exact ⟨1, .step h (.here (Same.refl p))⟩
      | head h _ ih =>
        obtain ⟨n, hn⟩ := ih
        exact ⟨n + 1, .step h hn⟩

/-- Where there is a chain, there is a shortest one. -/
theorem exists_atDistance {n : Nat} (h : g.Chain n x p) : ∃ m ≤ n, g.AtDistance p m x := by
  classical
  have hex : ∃ n, g.Chain n x p := ⟨n, h⟩
  exact ⟨Nat.find hex, Nat.find_min' hex h, Nat.find_spec hex, fun m hm => Nat.find_min hex hm⟩

/-- A file at a distance has that distance. -/
theorem AtDistance.distance_eq {n : Nat} (h : g.AtDistance p n x) : g.distance x p = n := by
  have hle : g.distance x p ≤ n := Nat.sInf_le h.1
  have hmem : g.Chain (g.distance x p) x p := Nat.sInf_mem (s := {n | g.Chain n x p}) ⟨n, h.1⟩
  by_contra hne
  exact h.2 _ (by omega) hmem

/-- No file is at two distances. -/
theorem AtDistance.unique {m n : Nat} (h : g.AtDistance p m x) (h' : g.AtDistance p n x) :
    m = n := by
  rw [← h.distance_eq, ← h'.distance_eq]

/-- Only the file itself is at distance zero. -/
theorem atDistance_zero : g.AtDistance p 0 x ↔ x.Same p := by
  constructor
  · rintro ⟨⟨hsame⟩, -⟩
    exact hsame
  · intro hsame
    exact ⟨.here hsame, fun m hm => absurd hm (Nat.not_lt_zero m)⟩

/-- The next file on a shortest chain is one step nearer. -/
theorem AtDistance.next {n : Nat} (h : g.AtDistance p (n + 1) x) :
    ∃ y, g.Imports x y ∧ g.AtDistance p n y := by
  obtain ⟨hchain, hleast⟩ := h
  cases hchain with
  | step himp hrest =>
    exact ⟨_, himp, hrest, fun m hm hshort => hleast (m + 1) (by omega) (.step himp hshort)⟩

/-- A shortest chain passes through every smaller distance. -/
theorem AtDistance.between {m n : Nat} (hmn : m ≤ n) (h : g.AtDistance p n x) :
    ∃ y, g.AtDistance p m y := by
  induction n generalizing x with
  | zero =>
    obtain rfl : m = 0 := by omega
    exact ⟨x, h⟩
  | succ n ih =>
    by_cases heq : m = n + 1
    · exact ⟨x, heq ▸ h⟩
    · obtain ⟨y, -, hy⟩ := h.next
      exact ih (by omega) hy

/-- The files at distance one import the file, and are not that file. -/
theorem atDistance_one : g.AtDistance p 1 x ↔ g.Imports x p ∧ ¬x.Same p := by
  constructor
  · intro h
    obtain ⟨y, himp, hy⟩ := h.next
    have hxp : ¬x.Same p := fun hsame => h.2 0 (by omega) (.here hsame)
    exact ⟨(imports_congr (Same.refl x) (atDistance_zero.1 hy)).1 himp, hxp⟩
  · rintro ⟨himp, hxp⟩
    refine ⟨.step himp (.here (Same.refl p)), fun m hm hchain => ?_⟩
    obtain rfl : m = 0 := by omega
    cases hchain with
    | here hsame => exact hxp hsame

/-! ### Where the search stands -/

/-- The files that are met when `current` leaves the queue. -/
def fresh (g : Graph) (seen : PathSet) (current : Path) : List Path :=
  (g.dependentsOf current).filter (!seen.contains ·)

/-- What is fresh imports the current file and was not seen. -/
theorem listed_fresh {seen : PathSet} {current : Path} :
    x.Listed (g.fresh seen current) ↔ g.ImportedBy current x ∧ ¬seen.contains x = true := by
  unfold fresh
  rw [listed_filter (fun q hq => by rw [seen.contains_congr hq]), listed_dependentsOf]
  simp

/-- The queue holds the files `near` at distance `d` and then the files `far` behind them. All that
    is at most as far as `d` was seen, and so was whatever imports a file at distance `d` that left
    the queue. -/
structure Frontier (g : Graph) (p : Path) (d : Nat) (near far : List Path) (seen : PathSet) :
    Prop where
  near_at : ∀ x : Path, x.Listed near → g.AtDistance p d x
  far_at : ∀ x : Path, x.Listed far → g.AtDistance p (d + 1) x
  seen_iff : ∀ x : Path, seen.contains x = true ↔ (∃ n ≤ d, g.AtDistance p n x) ∨ x.Listed far
  reached : ∀ x y, g.AtDistance p d y → ¬y.Listed near → g.Imports x y → seen.contains x = true

variable {d : Nat} {near far : List Path} {seen : PathSet} {current : Path}

/-- What imports a near file and was not seen is one step farther. -/
theorem Frontier.fresh_at (hg : g.Consistent) (h : g.Frontier p d (current :: near) far seen)
    (hx : x.Listed (g.fresh seen current)) : g.AtDistance p (d + 1) x := by
  obtain ⟨himp, hunseen⟩ := listed_fresh.1 hx
  have hcurrent := h.near_at current (listed_cons.2 (Or.inl (Same.refl current)))
  -- A shorter chain would have been seen, since all that is at most as far as `d` was.
  refine ⟨.step ((hg.converse current x).1 himp) hcurrent.1, fun m hm hchain => hunseen ?_⟩
  obtain ⟨n, hn, hat⟩ := exists_atDistance hchain
  exact (h.seen_iff x).2 (Or.inl ⟨n, by omega, hat⟩)

/-- One near file leaves the queue. -/
theorem Frontier.step (hg : g.Consistent) (h : g.Frontier p d (current :: near) far seen) :
    g.Frontier p d near (far ++ g.fresh seen current)
      ((g.fresh seen current).foldl PathSet.add seen) where
  near_at x hx := h.near_at x (listed_cons.2 (Or.inr hx))
  far_at x hx := by
    rcases listed_append.1 hx with hx | hx
    · exact h.far_at x hx
    · exact h.fresh_at hg hx
  seen_iff x := by
    rw [PathSet.contains_foldl_add, h.seen_iff, listed_append, or_assoc]
  reached x y hy hnear himp := by
    rw [PathSet.contains_foldl_add, listed_fresh]
    by_cases hseen : seen.contains x = true
    · exact Or.inl hseen
    · -- Then `x` is met now if it imports the file that leaves, and was met before if not.
      by_cases hcur : current.Same y
      · exact Or.inr ⟨(hg.converse current x).2 ((imports_congr (Same.refl x) hcur).2 himp), hseen⟩
      · exact Or.inl (h.reached x y hy (by rw [listed_cons]; tauto) himp)

/-- When no near file is left, the far ones are all the files at their distance. -/
theorem Frontier.shift (h : g.Frontier p d [] far seen) : g.Frontier p (d + 1) far [] seen where
  near_at := h.far_at
  far_at x hx := absurd hx (not_listed_nil x)
  seen_iff x := by
    constructor
    · intro hseen
      rcases (h.seen_iff x).1 hseen with ⟨n, hn, hat⟩ | hfar
      · exact Or.inl ⟨n, by omega, hat⟩
      · exact Or.inl ⟨d + 1, le_refl _, h.far_at x hfar⟩
    · rintro (⟨n, hn, hat⟩ | hnil)
      · by_cases hle : n ≤ d
        · exact (h.seen_iff x).2 (Or.inl ⟨n, hle, hat⟩)
        · obtain rfl : n = d + 1 := by omega
          obtain ⟨y, himp, hy⟩ := hat.next
          exact h.reached x y hy (not_listed_nil y) himp
      · exact absurd hnil (not_listed_nil x)
  reached x y hy hfar himp := by
    -- A file at the next distance was seen from a file at this one, so it is in the queue.
    obtain ⟨z, hyz, hz⟩ := hy.next
    have hseen := h.reached y z hz (not_listed_nil z) hyz
    rcases (h.seen_iff y).1 hseen with ⟨n, hn, hat⟩ | hlisted
    · have := hat.unique hy
      omega
    · exact absurd hlisted hfar

/-- When the queue is empty, all that reaches `p` was seen. -/
theorem Frontier.complete (h : g.Frontier p d [] [] seen) {n : Nat} (hchain : g.Chain n x p) :
    seen.contains x = true := by
  obtain ⟨m, -, hat⟩ := exists_atDistance hchain
  by_cases hle : m ≤ d
  · exact (h.seen_iff x).2 (Or.inl ⟨m, hle, hat⟩)
  · -- A chain from farther away passes through the next distance, where the search found nothing.
    obtain ⟨y, hy⟩ := hat.between (show d + 1 ≤ m by omega)
    obtain ⟨z, hyz, hz⟩ := hy.next
    rcases (h.seen_iff y).1 (h.reached y z hz (not_listed_nil z) hyz) with ⟨n, hn, hat⟩ | hnil
    · have := hat.unique hy
      omega
    · exact absurd hnil (not_listed_nil y)

/-! ### The number of steps -/

/-- The entries of all the sets of dependents. -/
def importers (g : Graph) : List Path :=
  g.dependents.values.flatMap (·.paths)

/-- There are as many importers, with repetitions, as entries of dependents. -/
theorem length_importers (g : Graph) : g.importers.length = g.dependentEntries := by
  rw [importers, List.length_flatMap, dependentEntries, memberCount, ← List.sum_eq_foldr]
  simp only [PathMap.length_paths]

/-- A file that imports another one is among the importers. -/
theorem listed_importers (h : g.ImportedBy y x) : x.Listed g.importers := by
  obtain ⟨set, hset, hx⟩ := h
  obtain ⟨q, hq, hsame⟩ := PathMap.listed_paths.2 hx
  exact ⟨q, List.mem_flatMap.2 ⟨set, PathMap.mem_values.2 ⟨y, hset⟩, hq⟩, hsame⟩

/-- Together with the files `done` that left the queue, the queue has each importer at most once,
    and so many steps are left that every importer can leave the queue. -/
structure Budget (g : Graph) (fuel : Nat) (done queue : List Path) (seen : PathSet) : Prop where
  distinct : Distinct (done ++ queue)
  was_seen : ∀ x : Path, x.Listed (done ++ queue) → seen.contains x = true
  importer : ∀ x : Path, x.Listed (done ++ queue) → x.Listed g.importers
  enough : g.importers.length ≤ done.length + fuel

variable {fuel : Nat} {done queue : List Path}

/-- Without steps left the queue is empty. -/
theorem Budget.queue_eq_nil (h : g.Budget 0 done queue seen) : queue = [] := by
  -- All the importers left the queue already, each once.
  have hle := length_le_of_distinct h.distinct h.importer
  have henough := h.enough
  rw [List.length_append] at hle
  exact List.length_eq_zero_iff.1 (by omega)

/-- A file leaves the queue, and what it meets enters it. -/
theorem Budget.step (h : g.Budget (fuel + 1) done (current :: queue) seen) :
    g.Budget fuel (done ++ [current]) (queue ++ g.fresh seen current)
      ((g.fresh seen current).foldl PathSet.add seen) := by
  -- What is done and what is queued stay the same list, with the fresh files at its end.
  have hsplit : done ++ [current] ++ (queue ++ g.fresh seen current)
      = (done ++ current :: queue) ++ g.fresh seen current := by simp
  constructor
  case distinct =>
    rw [hsplit, distinct_append]
    refine ⟨h.distinct, (distinct_dependentsOf g current).filter _, fun x hx hfresh => ?_⟩
    exact (listed_fresh.1 hfresh).2 (h.was_seen x hx)
  case was_seen =>
    intro x hx
    rw [hsplit, listed_append] at hx
    rw [PathSet.contains_foldl_add]
    exact hx.imp_left (h.was_seen x)
  case importer =>
    intro x hx
    rw [hsplit, listed_append] at hx
    rcases hx with hx | hx
    · exact h.importer x hx
    · exact listed_importers (listed_fresh.1 hx).1
  case enough =>
    have henough := h.enough
    rw [List.length_append, List.length_singleton]
    omega

/-! ### What the search finds -/

/-- `found` lists what reaches `p` and was not seen, each file once, by distance and from `d` on. -/
structure Spread (g : Graph) (p : Path) (d : Nat) (seen : PathSet) (found : List Path) : Prop where
  distinct : Distinct found
  listed_iff : ∀ x : Path, x.Listed found ↔ ¬seen.contains x = true ∧ ∃ n, g.Chain n x p
  sorted : found.Pairwise fun x y => g.distance x p ≤ g.distance y p
  least : ∀ x ∈ found, d ≤ g.distance x p

/-- A spread from some distance on is one from any smaller distance on. -/
theorem Spread.of_le {d' : Nat} {found : List Path} (hd : d ≤ d') (h : g.Spread p d' seen found) :
    g.Spread p d seen found :=
  { h with least := fun x hx => le_trans hd (h.least x hx) }

/-- Behind an empty frontier nothing is left to find. -/
theorem Frontier.spread_nil (h : g.Frontier p d [] [] seen) : g.Spread p (d + 1) seen [] where
  distinct := List.Pairwise.nil
  listed_iff x := by
    constructor
    · intro hx
      exact absurd hx (not_listed_nil x)
    · rintro ⟨hunseen, n, hchain⟩
      exact absurd (h.complete hchain) hunseen
  sorted := List.Pairwise.nil
  least x hx := absurd hx List.not_mem_nil

/-- What one file meets comes before all that is met later. -/
theorem Frontier.spread_cons (hg : g.Consistent) (h : g.Frontier p d (current :: near) far seen)
    {found : List Path}
    (hfound : g.Spread p (d + 1) ((g.fresh seen current).foldl PathSet.add seen) found) :
    g.Spread p (d + 1) seen (g.fresh seen current ++ found) := by
  have hdist : ∀ x ∈ g.fresh seen current, g.distance x p = d + 1 := fun x hx =>
    (h.fresh_at hg (listed_of_mem hx)).distance_eq
  constructor
  case distinct =>
    rw [distinct_append]
    refine ⟨(distinct_dependentsOf g current).filter _, hfound.distinct, fun x hx hlater => ?_⟩
    exact ((hfound.listed_iff x).1 hlater).1 ((PathSet.contains_foldl_add ..).2 (Or.inr hx))
  case listed_iff =>
    intro x
    rw [listed_append, hfound.listed_iff, PathSet.contains_foldl_add]
    constructor
    · rintro (hx | ⟨hunseen, hchain⟩)
      · exact ⟨(listed_fresh.1 hx).2, d + 1, (h.fresh_at hg hx).1⟩
      · exact ⟨fun hseen => hunseen (Or.inl hseen), hchain⟩
    · rintro ⟨hunseen, hchain⟩
      by_cases hx : x.Listed (g.fresh seen current)
      · exact Or.inl hx
      · exact Or.inr ⟨fun hor => hor.elim hunseen hx, hchain⟩
  -- All fresh files are equally far, and what is found later is not nearer.
  case sorted =>
    rw [List.pairwise_append]
    refine ⟨?_, hfound.sorted, fun x hx y hy => ?_⟩
    · refine List.Pairwise.imp_of_mem ?_ (distinct_dependentsOf g current |>.filter _)
      intro x y hx hy _
      rw [hdist x hx, hdist y hy]
    · rw [hdist x hx]
      exact hfound.least y hy
  case least =>
    intro x hx
    rcases List.mem_append.1 hx with hx | hx
    · rw [hdist x hx]
    · exact hfound.least x hx

/-- One step of the search: what is fresh is found, and queued. -/
theorem spread_cons (g : Graph) (fuel : Nat) (current : Path) (queue : List Path) (seen : PathSet) :
    g.spread (fuel + 1) (current :: queue) seen = g.fresh seen current ++
      g.spread fuel (queue ++ g.fresh seen current)
        ((g.fresh seen current).foldl PathSet.add seen) := rfl

/-- Without a queue the search ends. -/
theorem spread_nil (g : Graph) (fuel : Nat) (seen : PathSet) : g.spread fuel [] seen = [] := by
  cases fuel with
  | zero => rfl
  | succ fuel => rfl

/-- **Breadth-first search.** From a frontier with steps enough, the search finds what reaches `p`
    and was not seen, in the order of distance. -/
theorem spread_spec (hg : g.Consistent) (hfrontier : g.Frontier p d near far seen)
    (hbudget : g.Budget fuel done (near ++ far) seen) :
    g.Spread p (d + 1) seen (g.spread fuel (near ++ far) seen) := by
  induction fuel generalizing d done near far seen with
  | zero =>
    obtain ⟨rfl, rfl⟩ := List.append_eq_nil_iff.1 hbudget.queue_eq_nil
    exact hfrontier.spread_nil
  | succ fuel ih =>
    -- The step for a queue that begins with a near file, at whatever distance that is.
    have step : ∀ {d : Nat} {current : Path} {near far : List Path},
        g.Frontier p d (current :: near) far seen →
        g.Budget (fuel + 1) done (current :: near ++ far) seen →
        g.Spread p (d + 1) seen (g.spread (fuel + 1) (current :: near ++ far) seen) := by
      intro d current near far hfrontier hbudget
      rw [List.cons_append] at hbudget ⊢
      have hrest := hbudget.step
      rw [List.append_assoc] at hrest
      rw [spread_cons, List.append_assoc]
      exact hfrontier.spread_cons hg (ih (hfrontier.step hg) hrest)
    cases near with
    | cons current near => exact step hfrontier hbudget
    | nil =>
      cases far with
      | nil =>
        rw [List.append_nil, spread_nil]
        exact hfrontier.spread_nil
      | cons current far =>
        -- The near files are used up, and the far ones become the near ones.
        have hnext : g.Spread p (d + 2) seen (g.spread (fuel + 1) (current :: far ++ []) seen) :=
          step hfrontier.shift (by rw [List.append_nil]; exact hbudget)
        rw [List.append_nil] at hnext
        exact hnext.of_le (by omega)

/-! ### The impact of a file -/

/-- The other files that import a file. -/
def directDependents (g : Graph) (p : Path) : List Path :=
  (g.dependentsOf p).filter fun dependent => ¬dependent.Same p

/-- The direct dependents import the file, and are not that file. -/
theorem listed_directDependents (hg : g.Consistent) :
    x.Listed (g.directDependents p) ↔ ¬x.Same p ∧ g.Imports x p := by
  -- The test does not depend on the spelling.
  have htest : ∀ q : Path, q.Same x → (decide ¬q.Same p) = (decide ¬x.Same p) := by
    intro q hq
    rw [decide_eq_decide, same_comm, same_comm (p := x)]
    exact not_congr ⟨fun h => h.trans hq, fun h => h.trans hq.symm⟩
  unfold directDependents
  rw [listed_filter htest, listed_dependentsOf, hg.converse, decide_eq_true_eq]
  exact and_comm

/-- The file itself and its direct dependents, which are not searched for. -/
def nearby (g : Graph) (p : Path) : PathSet :=
  (p :: g.directDependents p).foldl PathSet.add .empty

/-- The file and its direct dependents are seen at the start. -/
theorem contains_nearby :
    (g.nearby p).contains x = true ↔ x.Same p ∨ x.Listed (g.directDependents p) := by
  rw [nearby, PathSet.contains_foldl_add, listed_cons, PathMap.contains_empty, same_comm]
  simp

/-- The search starts between the first and the second distance. -/
theorem frontier_nearby (hg : g.Consistent) (p : Path) :
    g.Frontier p 1 (g.directDependents p) [] (g.nearby p) where
  near_at x hx := atDistance_one.2 ((listed_directDependents hg).1 hx).symm
  far_at x hx := absurd hx (not_listed_nil x)
  seen_iff x := by
    rw [contains_nearby, listed_directDependents hg]
    constructor
    · rintro (hsame | ⟨hne, himp⟩)
      · exact Or.inl ⟨0, by omega, atDistance_zero.2 hsame⟩
      · exact Or.inl ⟨1, le_refl 1, atDistance_one.2 ⟨himp, hne⟩⟩
    · rintro (⟨n, hn, hat⟩ | hnil)
      · by_cases hzero : n = 0
        · exact Or.inl (atDistance_zero.1 (hzero ▸ hat))
        · obtain rfl : n = 1 := by omega
          exact Or.inr (atDistance_one.1 hat).symm
      · exact absurd hnil (not_listed_nil x)
  -- No file at distance one has left the queue yet.
  reached x y hy hnot himp :=
    absurd ((listed_directDependents hg).2 (atDistance_one.1 hy).symm) hnot

/-- The search starts with enough fuel. -/
theorem budget_nearby (hg : g.Consistent) (p : Path) :
    g.Budget g.dependentEntries [] (g.directDependents p) (g.nearby p) where
  distinct := (distinct_dependentsOf g p).filter _
  was_seen x hx := contains_nearby.2 (Or.inr hx)
  importer x hx := by
    rw [List.nil_append, listed_directDependents hg, ← hg.converse] at hx
    exact listed_importers hx.2
  enough := by
    rw [length_importers]
    simp

/-- The files behind the direct dependents of a file. -/
def transitiveDependents (g : Graph) (p : Path) : List Path :=
  g.spread g.dependentEntries (g.directDependents p) (g.nearby p)

/-- The search finds what is two imports away or more. -/
theorem spread_transitiveDependents (hg : g.Consistent) (p : Path) :
    g.Spread p 2 (g.nearby p) (g.transitiveDependents p) := by
  have hbudget := budget_nearby hg p
  rw [← List.append_nil (g.directDependents p)] at hbudget
  have hspread := spread_spec hg (frontier_nearby hg p) hbudget
  rwa [List.append_nil] at hspread

/-- The transitive dependents reach the file by imports, but not directly. -/
theorem listed_transitiveDependents (hg : g.Consistent) :
    x.Listed (g.transitiveDependents p) ↔
      (¬x.Same p ∧ ¬x.Listed (g.directDependents p)) ∧ Relation.TransGen g.Imports x p := by
  rw [(spread_transitiveDependents hg p).listed_iff, contains_nearby, exists_chain_iff, not_or]
  tauto

/-- No dependent is found twice, neither as a direct nor as a transitive one. -/
theorem distinct_dependents (hg : g.Consistent) (p : Path) :
    Distinct (g.directDependents p ++ g.transitiveDependents p) := by
  rw [distinct_append]
  refine ⟨(distinct_dependentsOf g p).filter _, (spread_transitiveDependents hg p).distinct, ?_⟩
  intro x hx hx'
  exact ((listed_transitiveDependents hg).1 hx').1.2 hx

/-- The direct and the transitive dependents are the other files that reach a file. -/
theorem listed_dependents (hg : g.Consistent) :
    x.Listed (g.directDependents p) ∨ x.Listed (g.transitiveDependents p) ↔
      ¬x.Same p ∧ Relation.TransGen g.Imports x p := by
  rw [listed_transitiveDependents hg]
  constructor
  · rintro (hx | ⟨⟨hne, -⟩, hreach⟩)
    · obtain ⟨hne, himp⟩ := (listed_directDependents hg).1 hx
      exact ⟨hne, .single himp⟩
    · exact ⟨hne, hreach⟩
  · rintro ⟨hne, hreach⟩
    by_cases hx : x.Listed (g.directDependents p)
    · exact Or.inl hx
    · exact Or.inr ⟨⟨hne, hx⟩, hreach⟩

/-- The impact of an analysed file, part by part. -/
theorem impact?_of_node {node : FileNode} (h : g.nodes.get? p = some node) :
    g.impact? p = some {
      file := p
      direct := g.directDependents p
      transitive := g.transitiveDependents p
      criticalExports := node.exportNames.filter fun name =>
        criticalThreshold < g.userCount (g.directDependents p) p name } := by
  rw [impact?, h]
  rfl

/-- A file that is not analysed has no impact. -/
theorem impact?_of_not_contains (h : ¬g.contains p = true) : g.impact? p = none := by
  rw [contains, PathMap.contains_eq_isSome_get?, Option.not_isSome_iff_eq_none] at h
  rw [impact?, h]
  rfl

/-- The length of a list without repetitions is the size of the set of its paths. -/
theorem length_eq_ncard {ps : List Path} (hps : Distinct ps) {holds : Path → Prop}
    (hiff : ∀ x : Path, x.Listed ps ↔ holds x) :
    ps.length = {key | ∃ x : Path, x.components = key ∧ holds x}.ncard := by
  have hset : {key | ∃ x : Path, x.components = key ∧ holds x}
      = ((ps.map (·.components)).toFinset : Set (List Component)) := by
    ext key
    rw [Finset.mem_coe, List.mem_toFinset]
    constructor
    · rintro ⟨x, rfl, hx⟩
      exact listed_iff_mem_map.1 ((hiff x).2 hx)
    · intro hkey
      obtain ⟨q, hq, rfl⟩ := List.mem_map.1 hkey
      exact ⟨q, rfl, (hiff q).1 (listed_of_mem hq)⟩
  rw [hset, Set.ncard_coe_finset, List.toFinset_card_of_nodup (distinct_iff_nodup.1 hps),
    List.length_map]

/-- **Impact is reachability.** After every history of changes an analysed file has an impact. Its
    direct part lists the other files that import it; together with the transitive part it lists the
    other files that reach it, each once, and the transitive part is ordered by distance. A file
    that is not analysed has no impact. -/
theorem impact_reaches (root : Path) (edits : List Edit) (p : Path) :
    ((replay root edits).contains p = true →
      ∃ i, (replay root edits).impact? p = some i ∧
        Distinct i.direct ∧ Distinct i.transitive ∧
        (∀ f : Path, f.Listed i.direct → ¬f.Listed i.transitive) ∧
        ¬p.Listed i.direct ∧ ¬p.Listed i.transitive ∧
        (∀ f : Path, f.Listed i.direct ∨ f.Listed i.transitive ↔
          ¬f.Same p ∧ Relation.TransGen (replay root edits).Imports f p) ∧
        (∀ f : Path, f.Listed i.direct ↔ ¬f.Same p ∧ (replay root edits).Imports f p) ∧
        i.total = {key | ∃ f : Path, f.components = key ∧
          ¬f.Same p ∧ Relation.TransGen (replay root edits).Imports f p}.ncard ∧
        i.transitive.Pairwise fun f f' =>
          (replay root edits).distance f p ≤ (replay root edits).distance f' p) ∧
    (¬(replay root edits).contains p = true → (replay root edits).impact? p = none) := by
  have hg := consistent_replay root edits
  refine ⟨fun hp => ?_, impact?_of_not_contains⟩
  obtain ⟨node, hnode⟩ := PathMap.contains_iff_exists_get?.1 hp
  obtain ⟨hdirect, htransitive, hdisjoint⟩ := distinct_append.1 (distinct_dependents hg p)
  refine ⟨_, impact?_of_node hnode, hdirect, htransitive, hdisjoint, ?_, ?_,
    fun f => listed_dependents hg, fun f => listed_directDependents hg, ?_,
    (spread_transitiveDependents hg p).sorted⟩
  · intro h
    exact ((listed_directDependents hg).1 h).1 (Same.refl p)
  · intro h
    exact ((listed_transitiveDependents hg).1 h).1.1 (Same.refl p)
  · rw [Impact.total, ← List.length_append]
    exact length_eq_ncard (distinct_dependents hg p) fun f =>
      listed_append.trans (listed_dependents hg)

end BlastRadius.Graph
