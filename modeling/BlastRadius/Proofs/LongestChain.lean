import BlastRadius.Graph.Depth
import BlastRadius.Proofs.Cycles

namespace BlastRadius.Graph

/-!
# The longest chain

The search for the longest chain goes from every file along all chains that do not come back to a
file. It therefore goes along each simple chain once, and in order, so that the first of the longest
ones is also the least.

* `SimpleChain` — a chain of imports between analysed files in which no file is repeated.
* `chainOrder` — the order of chains, file by file.
* `trails` — the chains that the search goes along, and `foldl_deepenWithin`: it keeps the best of
  them.
* `SimpleChain.of_mem_trails`, `SimpleChain.exists_trail` — they are the simple chains;
  `increasing_trails` — in order; `trails_eq` — whatever the fuel, if it is enough.
* `foldl_better` — the best of some trails is the first of the longest.
* `maxDepth_longest` — the theorem.
-/

open BlastRadius.Path

variable {g : Graph} {x y file dep : Path}
  {files files' trail stack front rest : List Path} {fuel : Nat}

/-! ### Simple chains -/

/-- A chain of imports between analysed files in which no file is repeated. -/
structure SimpleChain (g : Graph) (files : List Path) : Prop where
  nonempty : files ≠ []
  analysed : ∀ x ∈ files, g.contains x = true
  linked : files.IsChain g.Link
  distinct : Distinct files

/-- Two chains lead along the same files. -/
def SameChain (files files' : List Path) : Prop :=
  files.map (·.components) = files'.map (·.components)

/-- The same chain has the same length. -/
theorem SameChain.length_eq (h : SameChain files files') : files.length = files'.length := by
  simpa using congrArg List.length h

/-- Being linked does not hang on the spelling. -/
theorem isChain_link_congr (h : SameChain files files') :
    files.IsChain g.Link ↔ files'.IsChain g.Link := by
  -- Whether there is a link between two files does not depend on how they are spelled.
  have hkeys : ∀ files : List Path, files.IsChain g.Link ↔
      (files.map (·.components)).IsChain fun a b => ∃ x y : Path, x.components = a ∧
        y.components = b ∧ g.Link x y := by
    intro files
    rw [List.isChain_map]
    apply Iff.of_eq
    congr! 1
    ext x y
    constructor
    · intro hxy
      exact ⟨x, y, rfl, rfl, hxy⟩
    · rintro ⟨x', y', hx, hy, hlink⟩
      exact (link_congr hx hy).1 hlink
  rw [hkeys files, hkeys files', h]

/-- Neither does being a simple chain. -/
theorem SimpleChain.congr (h : g.SimpleChain files) (halike : SameChain files files') :
    g.SimpleChain files' where
  nonempty := by
    rintro rfl
    exact h.nonempty (List.map_eq_nil_iff.1 halike)
  analysed x hx := by
    have hlisted : x.Listed files := by
      rw [listed_iff_mem_map, show files.map (·.components) = files'.map (·.components) from halike]
      exact List.mem_map_of_mem hx
    obtain ⟨y, hy, hsame⟩ := hlisted
    rw [← g.contains_congr hsame]
    exact h.analysed y hy
  linked := (isChain_link_congr halike).1 h.linked
  distinct := by
    rw [distinct_iff_nodup, ← show files.map (·.components) = files'.map (·.components) from halike]
    exact distinct_iff_nodup.1 h.distinct

/-- An analysed file is a chain by itself. -/
theorem simpleChain_singleton (hx : g.contains x = true) : g.SimpleChain [x] where
  nonempty := List.cons_ne_nil x []
  analysed := by simpa using hx
  linked := List.isChain_singleton x
  distinct := List.pairwise_singleton _ x

/-- A simple chain goes on with a file that the last one imports and that is not on it. -/
theorem SimpleChain.concat (h : g.SimpleChain (front ++ [file])) (hlink : g.Link file dep)
    (hnew : ¬dep.Listed (front ++ [file])) : g.SimpleChain (front ++ [file] ++ [dep]) where
  nonempty := by simp
  analysed := by
    intro x hx
    rcases List.mem_append.1 hx with hx | hx
    · exact h.analysed x hx
    · rw [List.mem_singleton.1 hx]
      exact hlink.2.1
  linked := by
    rw [List.isChain_append]
    refine ⟨h.linked, List.isChain_singleton dep, ?_⟩
    intro last hlast next hnext
    rw [List.getLast?_concat, Option.mem_some_iff] at hlast
    rw [List.head?_cons, Option.mem_some_iff] at hnext
    rw [← hlast, ← hnext]
    exact hlink
  distinct := by
    rw [distinct_append]
    refine ⟨h.distinct, List.pairwise_singleton _ dep, ?_⟩
    rintro p hp ⟨q, hq, hsame⟩
    rw [List.mem_singleton.1 hq] at hsame
    exact hnew ((listed_congr hsame).2 hp)

/-- The graph has as many files as its size says. -/
theorem length_files (g : Graph) : (g.files.map (·.path)).length = g.size := by
  rw [List.length_map, files, PathMap.length_values]
  rfl

/-- A simple chain has no more files than the graph. -/
theorem SimpleChain.length_le (h : g.SimpleChain files) : files.length ≤ g.size := by
  have hanalysed : ∀ x : Path, x.Listed files → x.Listed (g.files.map (·.path)) := by
    rintro x ⟨y, hy, hsame⟩
    rw [listed_files, ← g.contains_congr hsame]
    exact h.analysed y hy
  rw [← length_files]
  exact length_le_of_distinct h.distinct hanalysed

/-! ### The order of chains -/

/-- The order of chains: file by file, and a chain before those that go on from it. -/
def chainOrder (files files' : List Path) : Ordering :=
  compare (files.map (·.components)) (files'.map (·.components))

/-- Chains are compared from their start on. -/
theorem chainOrder_cons (x y : Path) (files files' : List Path) :
    chainOrder (x :: files) (y :: files')
      = (compare x.components y.components).then (chainOrder files files') :=
  List.compare_cons_cons

/-- A chain compares equal to itself. -/
theorem chainOrder_self (files : List Path) : chainOrder files files = .eq := by
  have hself : compare (files.map (·.components)) (files.map (·.components)) = .eq :=
    Std.ReflCmp.compare_self
  exact hself

/-- A common start does not count. -/
theorem chainOrder_append (front files files' : List Path) :
    chainOrder (front ++ files) (front ++ files') = chainOrder files files' := by
  induction front with
  | nil => rfl
  | cons x front ih =>
    have hself : compare x.components x.components = .eq := Std.ReflCmp.compare_self
    rw [List.cons_append, List.cons_append, chainOrder_cons, hself, Ordering.eq_then, ih]

/-- A chain comes before one that goes on from it. -/
theorem chainOrder_longer (front : List Path) (x : Path) (files : List Path) :
    chainOrder front (front ++ x :: files) = .lt := by
  have happend := chainOrder_append front [] (x :: files)
  rw [List.append_nil] at happend
  rw [happend]
  rfl

/-- Where two chains part, their order is that of the files there. -/
theorem chainOrder_part (h : x.Before y) (front files files' : List Path) :
    chainOrder (front ++ x :: files) (front ++ y :: files') = .lt := by
  rw [chainOrder_append, chainOrder_cons, show compare x.components y.components = .lt from h]
  rfl

/-- The order does not hang on the spelling. -/
theorem chainOrder_congr {other : List Path} (h : SameChain files files') :
    chainOrder other files = chainOrder other files' := by
  rw [chainOrder, chainOrder, show files.map (·.components) = files'.map (·.components) from h]

/-! ### What the search goes along -/

/-- The trails that go on from `file` at the end of a trail, in the order of the search. All of them
    are given backwards, and at most `fuel` files are to come. -/
def extensions (g : Graph) : (fuel : Nat) → (file : Path) → (trail : List Path) → List (List Path)
  | 0, _, _ => []
  | fuel + 1, file, trail =>
    (g.knownDependencies file).flatMap fun dep =>
      if (file :: trail).any fun q => decide (q.Same dep) then []
      else (dep :: file :: trail) :: g.extensions fuel dep (file :: trail)

/-- The trails that go on from a stack with one of the imports of its last file. -/
def branch (g : Graph) (fuel : Nat) (stack : List Path) (dep : Path) : List (List Path) :=
  if stack.any fun q =>
    decide (q.Same dep) then [] else (dep :: stack) :: g.extensions fuel dep stack

/-- The extensions of a trail, one branch for each known dependency. -/
theorem extensions_succ (g : Graph) (fuel : Nat) (file : Path) (trail : List Path) :
    g.extensions (fuel + 1) file trail
      = (g.knownDependencies file).flatMap (g.branch fuel (file :: trail)) := rfl

/-- The test finds what is on the stack. -/
theorem any_same_iff : (stack.any fun q => decide (q.Same dep)) = true ↔ dep.Listed stack := by
  simp [Listed]

/-- A branch has the dependency itself, and what extends it. -/
theorem mem_branch {t : List Path} :
    t ∈ g.branch fuel stack dep ↔
      ¬dep.Listed stack ∧ (t = dep :: stack ∨ t ∈ g.extensions fuel dep stack) := by
  unfold branch
  by_cases h : dep.Listed stack
  · simp [any_same_iff.2 h, h]
  · rw [if_neg (fun hany => h (any_same_iff.1 hany)), List.mem_cons]
    simp [h]

/-- The search keeps the best of the trails that it goes along. -/
theorem deepen_eq_foldl (g : Graph) (fuel : Nat) (file : Path) (trail : List Path) (best : Depth) :
    g.deepen fuel file trail best = (g.extensions fuel file trail).foldl Depth.better best := by
  induction fuel generalizing file trail best with
  | zero => rfl
  | succ fuel ih =>
    rw [deepen, extensions, List.foldl_flatMap]
    congr 1
    funext best dep
    split
    · rfl
    · rw [ih, List.foldl_cons]

/-- What goes on from a trail begins with it. -/
theorem exists_append_of_mem_extensions {t : List Path} (h : t ∈ g.extensions fuel file trail) :
    ∃ dep more, t.reverse = (file :: trail).reverse ++ dep :: more := by
  induction fuel generalizing file trail with
  | zero => exact absurd h List.not_mem_nil
  | succ fuel ih =>
    rw [extensions_succ, List.mem_flatMap] at h
    obtain ⟨dep, -, hbranch⟩ := h
    obtain ⟨-, rfl | hmem⟩ := mem_branch.1 hbranch
    · exact ⟨dep, [], by simp⟩
    · obtain ⟨next, more, hmore⟩ := ih hmem
      exact ⟨dep, next :: more, by rw [hmore]; simp⟩

/-- What a branch has begins with the stack and the dependency. -/
theorem exists_append_of_mem_branch {t : List Path} (h : t ∈ g.branch fuel stack dep) :
    ∃ more, t.reverse = stack.reverse ++ dep :: more := by
  obtain ⟨-, rfl | hmem⟩ := mem_branch.1 h
  · exact ⟨[], by simp⟩
  · obtain ⟨next, more, hmore⟩ := exists_append_of_mem_extensions hmem
    exact ⟨next :: more, by rw [hmore]; simp⟩

/-- The branches with some files are in the order of the files. -/
theorem increasing_branches {deps : List Path} (hdeps : deps.Pairwise Before)
    (hlater : ∀ dep,
      (g.extensions fuel dep stack).Pairwise fun t t' => chainOrder t.reverse t'.reverse = .lt) :
    (deps.flatMap (g.branch fuel stack)).Pairwise
      fun t t' => chainOrder t.reverse t'.reverse = .lt := by
  rw [List.pairwise_flatMap]
  constructor
  · intro dep _
    unfold branch
    split
    · exact List.Pairwise.nil
    · rw [List.pairwise_cons]
      refine ⟨fun t ht => ?_, hlater dep⟩
      -- A trail comes before all that go on from it.
      obtain ⟨next, more, hmore⟩ := exists_append_of_mem_extensions ht
      rw [hmore]
      exact chainOrder_longer _ next more
  · apply hdeps.imp
    intro dep dep' hbefore t ht t' ht'
    obtain ⟨more, hmore⟩ := exists_append_of_mem_branch ht
    obtain ⟨more', hmore'⟩ := exists_append_of_mem_branch ht'
    rw [hmore, hmore']
    exact chainOrder_part hbefore _ more more'

/-- The search goes along the chains in order. -/
theorem increasing_extensions (g : Graph) (fuel : Nat) (file : Path) (trail : List Path) :
    (g.extensions fuel file trail).Pairwise fun t t' => chainOrder t.reverse t'.reverse = .lt := by
  induction fuel generalizing file trail with
  | zero => exact List.Pairwise.nil
  | succ fuel ih =>
    rw [extensions_succ]
    exact increasing_branches (g.increasing_knownDependencies file) fun dep =>
      ih dep (file :: trail)

/-! ### They are the simple chains -/

/-- One more file on a simple chain. -/
theorem SimpleChain.push (h : g.SimpleChain (file :: trail).reverse)
    (hdep : dep ∈ g.knownDependencies file) (hnew : ¬dep.Listed (file :: trail)) :
    g.SimpleChain (dep :: file :: trail).reverse := by
  have hfile : g.contains file = true := h.analysed file (by simp)
  rw [List.reverse_cons] at h
  rw [List.reverse_cons, List.reverse_cons]
  apply h.concat (link_of_mem_knownDependencies hfile hdep)
  rwa [← List.reverse_cons, listed_reverse]

/-- **Only simple chains.** What extends a simple chain is one. -/
theorem SimpleChain.of_mem_extensions {t : List Path} (h : g.SimpleChain (file :: trail).reverse)
    (ht : t ∈ g.extensions fuel file trail) : g.SimpleChain t.reverse := by
  induction fuel generalizing file trail with
  | zero => exact absurd ht List.not_mem_nil
  | succ fuel ih =>
    rw [extensions_succ, List.mem_flatMap] at ht
    obtain ⟨dep, hdep, hbranch⟩ := ht
    obtain ⟨hnew, rfl | hmem⟩ := mem_branch.1 hbranch
    · exact h.push hdep hnew
    · exact ih (h.push hdep hnew) hmem

/-- **All simple chains.** Up to spelling the search goes along every simple chain that goes on from
    a trail. -/
theorem SimpleChain.exists_extension (h : g.SimpleChain ((file :: trail).reverse ++ rest))
    (hne : rest ≠ []) (hfuel : rest.length ≤ fuel) :
    ∃ t ∈ g.extensions fuel file trail, SameChain t.reverse ((file :: trail).reverse ++ rest) := by
  induction rest generalizing file trail fuel with
  | nil => exact absurd rfl hne
  | cons x rest ih =>
    obtain ⟨fuel, rfl⟩ :=
      Nat.exists_eq_succ_of_ne_zero (Nat.ne_of_gt (Nat.lt_of_lt_of_le (Nat.succ_pos _) hfuel))
    -- The next file is among the imports of the last one, in the spelling that the graph has.
    have hlink : g.Link file x := by
      have hchain := h.linked
      rw [List.reverse_cons, List.append_assoc, List.singleton_append] at hchain
      exact (List.isChain_cons_cons.1 (List.isChain_append.1 hchain).2.1).1
    obtain ⟨dep, hdep, hsame⟩ := listed_knownDependencies.2 ⟨hlink.2.2, hlink.2.1⟩
    have hnew : ¬dep.Listed (file :: trail) := by
      rw [listed_congr hsame, ← listed_reverse]
      intro hlisted
      exact (distinct_append.1 h.distinct).2.2 x hlisted (listed_of_mem List.mem_cons_self)
    have halike : SameChain ((file :: trail).reverse ++ x :: rest)
        ((dep :: file :: trail).reverse ++ rest) := by
      simp [SameChain, show dep.components = x.components from hsame]
    have hbranch : ∀ t, t = dep :: file :: trail ∨ t ∈ g.extensions fuel dep (file :: trail) →
        t ∈ g.extensions (fuel + 1) file trail := by
      intro t ht
      rw [extensions_succ, List.mem_flatMap]
      exact ⟨dep, hdep, mem_branch.2 ⟨hnew, ht⟩⟩
    cases rest with
    | nil =>
      refine ⟨_, hbranch _ (Or.inl rfl), ?_⟩
      rw [List.append_nil] at halike
      exact halike.symm
    | cons y rest =>
      obtain ⟨t, ht, htalike⟩ :=
        ih (h.congr halike) (List.cons_ne_nil y rest) (by simpa using hfuel)
      exact ⟨t, hbranch t (Or.inr ht), htalike.trans halike.symm⟩

/-- With enough fuel one more changes nothing: a trail with all the files of the graph does not go
    on. -/
theorem SimpleChain.extensions_succ_eq (h : g.SimpleChain (file :: trail).reverse)
    (hfuel : g.size ≤ fuel + trail.length + 1) :
    g.extensions (fuel + 1) file trail = g.extensions fuel file trail := by
  induction fuel generalizing file trail with
  | zero =>
    show g.extensions 1 file trail = []
    rw [List.eq_nil_iff_forall_not_mem]
    intro t ht
    -- Without fuel left, the trail already has every file of the graph on it.
    have hle := (h.of_mem_extensions ht).length_le
    obtain ⟨dep, more, hmore⟩ := exists_append_of_mem_extensions ht
    have hlength := congrArg List.length hmore
    simp only [List.length_reverse, List.length_append, List.length_cons] at hlength hle
    omega
  | succ fuel ih =>
    rw [extensions_succ, extensions_succ]
    apply List.flatMap_congr
    intro dep hdep
    unfold branch
    split
    · rfl
    · next hnew =>
      rw [ih (h.push hdep fun hlisted => hnew (any_same_iff.2 hlisted))
        (by rw [List.length_cons]; omega)]

/-! ### The search from every file -/

/-- The trails that the search goes along from all the files, one of which is each file by
    itself. -/
def trails (g : Graph) (fuel : Nat) : List (List Path) :=
  (g.files.map (·.path)).flatMap fun p => [p] :: g.extensions fuel p []

/-- The search from a file with any fuel. -/
def deepenWithin (g : Graph) (fuel : Nat) (best : Depth) (p : Path) : Depth :=
  g.deepen fuel p [] (if best.path.isEmpty then { best with path := [p] } else best)

/-- The longest chain that is found with any fuel. -/
def maxDepthWithin (g : Graph) (fuel : Nat) : Depth :=
  (g.files.map (·.path)).foldl (g.deepenWithin fuel) ⟨0, []⟩

/-- The longest chain is searched with the size of the graph for fuel. -/
theorem maxDepth_eq (g : Graph) : g.maxDepth = g.maxDepthWithin g.size := rfl

/-- A trail starts at a file, and extends it. -/
theorem mem_trails {t : List Path} :
    t ∈ g.trails fuel ↔ ∃ p ∈ g.files.map (·.path), t = [p] ∨ t ∈ g.extensions fuel p [] := by
  rw [trails, List.mem_flatMap]
  simp only [List.mem_cons]

/-- A file of the graph is a chain by itself. -/
theorem simpleChain_file (hx : x ∈ g.files.map (·.path)) : g.SimpleChain [x].reverse :=
  simpleChain_singleton (listed_files.1 (listed_of_mem hx))

/-- Every trail is a simple chain. -/
theorem SimpleChain.of_mem_trails {t : List Path} (ht : t ∈ g.trails fuel) :
    g.SimpleChain t.reverse := by
  obtain ⟨p, hp, rfl | hmem⟩ := mem_trails.1 ht
  · exact simpleChain_file hp
  · exact (simpleChain_file hp).of_mem_extensions hmem

/-- With enough fuel, every simple chain is a trail. -/
theorem SimpleChain.exists_trail (h : g.SimpleChain files) (hfuel : g.size ≤ fuel) :
    ∃ t ∈ g.trails fuel, SameChain t.reverse files := by
  obtain ⟨x, rest, rfl⟩ := List.exists_cons_of_ne_nil h.nonempty
  obtain ⟨p, hp, hsame⟩ := listed_files.2 (h.analysed x List.mem_cons_self)
  have halike : SameChain (x :: rest) (p :: rest) := by
    simp [SameChain, show p.components = x.components from hsame]
  cases rest with
  | nil => exact ⟨[p], mem_trails.2 ⟨p, hp, Or.inl rfl⟩, halike.symm⟩
  | cons y rest =>
    have hlength := h.length_le
    rw [List.length_cons] at hlength
    have hchain : g.SimpleChain ([p].reverse ++ y :: rest) := h.congr halike
    obtain ⟨t, ht, htalike⟩ := hchain.exists_extension (List.cons_ne_nil y rest)
      (show (y :: rest).length ≤ fuel by omega)
    exact ⟨t, mem_trails.2 ⟨p, hp, Or.inr ht⟩, htalike.trans halike.symm⟩

/-- The trails from all the files are the branches from an empty stack. -/
theorem trails_eq_flatMap (g : Graph) (fuel : Nat) :
    g.trails fuel = (g.files.map (·.path)).flatMap (g.branch fuel []) := rfl

/-- The trails are listed in the order of chains. -/
theorem increasing_trails (g : Graph) (fuel : Nat) :
    (g.trails fuel).Pairwise fun t t' => chainOrder t.reverse t'.reverse = .lt := by
  rw [trails_eq_flatMap]
  exact increasing_branches g.increasing_files fun p => g.increasing_extensions fuel p []

/-- More fuel than the size of the graph finds no more trails. -/
theorem trails_eq (hfuel : g.size ≤ fuel) : g.trails fuel = g.trails g.size := by
  induction fuel, hfuel using Nat.le_induction with
  | base => rfl
  | succ fuel hle ih =>
    rw [← ih, trails, trails]
    apply List.flatMap_congr
    intro p hp
    rw [(simpleChain_file hp).extensions_succ_eq (by rw [List.length_nil]; omega)]

/-! ### The best of some trails -/

/-- A trail as a chain with its number of steps. -/
def chainOf (trail : List Path) : Depth :=
  ⟨trail.length - 1, trail.reverse⟩

/-- A trail is better only if it is longer. -/
theorem better_eq (best : Depth) (trail : List Path) :
    best.better trail = if best.depth < trail.length - 1 then chainOf trail else best := rfl

/-- **The best of some trails** is the first of the longest. -/
theorem foldl_better (first : List Path) (others : List (List Path)) :
    ∃ front longest back, first :: others = front ++ longest :: back ∧
      others.foldl Depth.better (chainOf first) = chainOf longest ∧
      (∀ t ∈ front, t.length - 1 < longest.length - 1) ∧
      ∀ t ∈ back, t.length - 1 ≤ longest.length - 1 := by
  -- The induction is on the last trail, which is the best if it is longer than all before it.
  induction others using List.reverseRecOn with
  | nil => exact ⟨[], first, [], rfl, rfl, by simp, by simp⟩
  | append_singleton others last ih =>
    obtain ⟨front, longest, back, hsplit, hbest, hfront, hback⟩ := ih
    rw [List.foldl_concat, hbest, better_eq]
    by_cases hlonger : longest.length - 1 < last.length - 1
    · refine ⟨first :: others, last, [], by simp, if_pos hlonger, ?_, by simp⟩
      rw [hsplit]
      intro t ht
      rcases List.mem_append.1 ht with ht | ht
      · exact Nat.lt_trans (hfront t ht) hlonger
      · rcases List.mem_cons.1 ht with rfl | ht
        · exact hlonger
        · exact Nat.lt_of_le_of_lt (hback t ht) hlonger
    · refine ⟨front, longest, back ++ [last], ?_, if_neg hlonger, hfront, ?_⟩
      · rw [← List.cons_append, hsplit]
        simp
      · intro t ht
        rcases List.mem_append.1 ht with ht | ht
        · exact hback t ht
        · rw [List.mem_singleton.1 ht]
          omega

/-- Once a chain is found there is one. -/
theorem foldl_better_path_ne_nil {best : Depth} (h : best.path ≠ []) (ts : List (List Path)) :
    (ts.foldl Depth.better best).path ≠ [] := by
  induction ts generalizing best with
  | nil => exact h
  | cons t ts ih =>
    apply ih
    rw [better_eq]
    split
    · next hlonger =>
      have hlength : 0 < t.length := by omega
      simpa [chainOf] using List.ne_nil_of_length_pos hlength
    · exact h

/-- Once a chain is found, the search from some files keeps the best of their trails. -/
theorem foldl_deepenWithin {best : Depth} (h : best.path ≠ []) (roots : List Path) :
    roots.foldl (g.deepenWithin fuel) best
      = (roots.flatMap fun p => [p] :: g.extensions fuel p []).foldl Depth.better best := by
  induction roots generalizing best with
  | nil => rfl
  | cons p roots ih =>
    have hfirst : g.deepenWithin fuel best p
        = (g.extensions fuel p []).foldl Depth.better best := by
      rw [deepenWithin, if_neg (by simpa using h), deepen_eq_foldl]
    -- A file by itself is no longer than any chain.
    have hself : best.better [p] = best := by
      rw [better_eq]
      exact if_neg (by simp)
    rw [List.foldl_cons, hfirst, ih (foldl_better_path_ne_nil h _), List.flatMap_cons,
      List.foldl_append, List.foldl_cons, hself]

/-- The search keeps the best of all the trails. -/
theorem maxDepthWithin_eq {first : List Path} {others : List (List Path)}
    (h : g.trails fuel = first :: others) :
    g.maxDepthWithin fuel = others.foldl Depth.better (chainOf first) := by
  unfold trails at h
  unfold maxDepthWithin
  cases hroots : g.files.map (·.path) with
  | nil =>
    rw [hroots] at h
    cases h
  | cons p roots =>
    rw [hroots, List.flatMap_cons, List.cons_append, List.cons.injEq] at h
    obtain ⟨rfl, rfl⟩ := h
    -- The first root is the first chain, whatever follows has to be longer.
    have hfirst : g.deepenWithin fuel ⟨0, []⟩ p
        = (g.extensions fuel p []).foldl Depth.better (chainOf [p]) := by
      rw [deepenWithin, deepen_eq_foldl]
      rfl
    have hne : (chainOf [p]).path ≠ [] := List.cons_ne_nil p []
    rw [List.foldl_cons, hfirst, foldl_deepenWithin (foldl_better_path_ne_nil hne _),
      List.foldl_append]

/-! ### The theorem -/

/-- A chain is simple, no simple one has more steps, and of those with as many it is the least. -/
structure LongestIn (g : Graph) (found : Depth) : Prop where
  simple : g.SimpleChain found.path
  depth : found.depth = found.path.length - 1
  longest : ∀ files, g.SimpleChain files → files.length - 1 ≤ found.depth
  least : ∀ files, g.SimpleChain files → files.length - 1 = found.depth →
    (chainOrder found.path files).isLE = true

/-- The first of the longest trails is the longest chain. -/
theorem longestIn_chainOf {before after : List (List Path)} {longest : List Path}
    (hsplit : g.trails g.size = before ++ longest :: after)
    (hbefore : ∀ t ∈ before, t.length - 1 < longest.length - 1)
    (hafter : ∀ t ∈ after, t.length - 1 ≤ longest.length - 1) : g.LongestIn (chainOf longest) where
  simple := SimpleChain.of_mem_trails (show longest ∈ g.trails g.size by rw [hsplit]; simp)
  depth := by simp [chainOf]
  longest files hfiles := by
    obtain ⟨t, ht, halike⟩ := hfiles.exists_trail (Nat.le_refl g.size)
    rw [← halike.length_eq, List.length_reverse]
    rw [hsplit, List.mem_append, List.mem_cons] at ht
    rcases ht with ht | rfl | ht
    · exact Nat.le_of_lt (hbefore t ht)
    · exact Nat.le_refl _
    · exact hafter t ht
  least files hfiles hlength := by
    obtain ⟨t, ht, halike⟩ := hfiles.exists_trail (Nat.le_refl g.size)
    rw [← halike.length_eq, List.length_reverse] at hlength
    rw [← chainOrder_congr halike]
    rw [hsplit, List.mem_append, List.mem_cons] at ht
    rcases ht with ht | rfl | ht
    · -- The trails before it are shorter.
      exact absurd hlength (Nat.ne_of_lt (hbefore t ht))
    · rw [show (chainOf t).path = t.reverse from rfl, chainOrder_self]
      rfl
    · have hordered := g.increasing_trails g.size
      rw [hsplit, List.pairwise_append] at hordered
      have hlt : chainOrder longest.reverse t.reverse = .lt :=
        (List.pairwise_cons.1 hordered.2.1).1 t ht
      rw [show (chainOf longest).path = longest.reverse from rfl, hlt]
      rfl

/-- **The longest chain.** In a graph with files the search finds a simple chain of imports between
    them such that no simple chain has more steps, and the least one of those with as many; in a
    graph without files it finds nothing. It comes to its end by itself: more fuel does not change
    what is found. -/
theorem maxDepth_longest (g : Graph) :
    (g.size ≠ 0 → g.LongestIn g.maxDepth) ∧ (g.size = 0 → g.maxDepth = ⟨0, []⟩) ∧
      ∀ fuel, g.size ≤ fuel → g.maxDepthWithin fuel = g.maxDepth := by
  have hroots := g.length_files
  by_cases hsize : g.size = 0
  · rw [hsize, List.length_eq_zero_iff] at hroots
    have hnone : ∀ fuel, g.maxDepthWithin fuel = ⟨0, []⟩ := by
      intro fuel
      rw [maxDepthWithin, hroots]
      rfl
    refine ⟨fun hne => absurd hsize hne, fun _ => hnone g.size, fun fuel _ => ?_⟩
    rw [hnone fuel]
    exact (hnone g.size).symm
  · obtain ⟨p, roots, hcons⟩ :=
      List.exists_cons_of_length_pos (Nat.lt_of_lt_of_eq (Nat.pos_of_ne_zero hsize) hroots.symm)
    obtain ⟨first, others, htrails⟩ : ∃ first others, g.trails g.size = first :: others := by
      rw [trails, hcons, List.flatMap_cons]
      exact ⟨_, _, rfl⟩
    refine ⟨fun _ => ?_, fun h => absurd h hsize, fun fuel hfuel => ?_⟩
    · -- The first of the longest trails wins, and trails are in order.
      obtain ⟨before, longest, after, hsplit, hbest, hbefore, hafter⟩ := foldl_better first others
      rw [maxDepth_eq, maxDepthWithin_eq htrails, hbest]
      exact longestIn_chainOf (htrails.trans hsplit) hbefore hafter
    · rw [maxDepth_eq, maxDepthWithin_eq htrails,
        maxDepthWithin_eq ((trails_eq hfuel).trans htrails)]

end BlastRadius.Graph
