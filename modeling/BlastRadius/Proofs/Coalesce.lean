import BlastRadius.Change.Window
import BlastRadius.Proofs.PathMap
import Mathlib.Data.List.Induction

namespace BlastRadius

/-!
# What is pending

Changes that are collected are held under their paths, so that of the changes of one path the last
is pending. Paths are taken as they are: two paths that lead to one file stay apart.

* `lastChange?` — the last of some changes that passes a test.
* `Pending.pushAll`, `Pending.Delivers` — collecting changes, and the batch in which they are
  delivered.
* `Pending.get?_pushAll` — what is pending for a path.
* `Pending.Delivers.mem_iff`, `Pending.Delivers.ordered` — a batch has the last change of every
  path, once, and in the order of the paths.
-/

open BlastRadius.Path

/-- The last of some changes that passes a test. -/
def lastChange? (test : Change → Bool) (changes : List Change) : Option Change :=
  (changes.filter test).getLast?

section
variable {test : Change → Bool} {changes : List Change} {c : Change}

/-- The last change is looked for from the end. -/
theorem lastChange?_concat (test : Change → Bool) (changes : List Change) (c : Change) :
    lastChange? test (changes ++ [c]) = if test c then some c else lastChange? test changes := by
  unfold lastChange?
  rw [List.filter_append]
  by_cases hc : test c = true
  · simp [hc]
  · simp [hc]

/-- The last change is one of them, and passes the test. -/
theorem test_of_lastChange? (h : lastChange? test changes = some c) : c ∈ changes ∧ test c = true :=
  List.mem_filter.1 (List.mem_of_getLast? h)

/-- Behind the last change that passes a test there is none that does. -/
theorem lastChange?_eq_some_iff :
    lastChange? test changes = some c ↔
      test c = true ∧ ∃ before after, changes = before ++ c :: after ∧
        ∀ c' ∈ after, ¬test c' = true := by
  unfold lastChange?
  rw [List.getLast?_filter, List.find?_eq_some_iff_append]
  refine and_congr_right fun _ => ⟨?_, ?_⟩
  · rintro ⟨after, before, heq, hafter⟩
    refine ⟨before.reverse, after.reverse, ?_, by simpa using hafter⟩
    rw [← List.reverse_reverse changes, heq]
    simp
  · rintro ⟨before, after, rfl, hafter⟩
    exact ⟨after.reverse, before.reverse, by simp, by simpa using hafter⟩

/-- There is a last change where one passes the test. -/
theorem exists_lastChange? (hc : c ∈ changes) (htest : test c = true) :
    ∃ last, lastChange? test changes = some last := by
  have hne : changes.filter test ≠ [] := List.ne_nil_of_mem (List.mem_filter.2 ⟨hc, htest⟩)
  exact ⟨_, List.getLast?_eq_some_getLast hne⟩

/-- Tests that agree on the changes have the same last change. -/
theorem lastChange?_congr {test' : Change → Bool} (h : ∀ c ∈ changes, test c = test' c) :
    lastChange? test changes = lastChange? test' changes :=
  congrArg List.getLast? (List.filter_congr h)

end

namespace Pending

variable {window : Nat} {arrivals : List (Change × Nat)} {batch : List Change}

/-- Some changes arrive, each with the time when it does. -/
def pushAll (p : Pending) (arrivals : List (Change × Nat)) : Pending :=
  arrivals.foldl (fun p arrival => p.push arrival.1 arrival.2) p

/-- What is pending for a path is the last of its changes. -/
theorem get?_pushAll (window : Nat) (arrivals : List (Change × Nat)) (x : Path) :
    ((empty window).pushAll arrivals).changes.get? x
      = lastChange? (fun c => c.path.Same x) (arrivals.map (·.1)) := by
  induction arrivals using List.reverseRecOn with
  | nil => exact PathMap.get?_empty x
  | append_singleton arrivals arrival ih =>
    rw [pushAll, List.foldl_concat, List.map_append, List.map_singleton, lastChange?_concat, ← ih]
    show PathMap.get? (PathMap.insert _ arrival.1.path arrival.1) x = _
    rw [PathMap.get?_insert]
    simp only [decide_eq_true_eq]
    rfl

/-- The batches in which pending changes can be delivered: as soon as they have settled, or all of
    them at the end. -/
inductive Delivers (p : Pending) : List Change → Prop where
  | settled {deadline now : Nat} (hdeadline : p.deadline? = some deadline) (hnow : deadline ≤ now) :
      Delivers p (p.takeReady now).1
  | flushed : Delivers p p.flush.1

/-- A delivery has all pending changes. -/
theorem Delivers.eq_values {p : Pending} (h : p.Delivers batch) : batch = p.changes.values := by
  cases h with
  | settled hdeadline hnow =>
    rw [takeReady, hdeadline]
    dsimp only
    rw [if_pos hnow]
    rfl
  | flushed => rfl

/-- **What a batch holds.** The last change of every path. -/
theorem Delivers.mem_iff (h : ((empty window).pushAll arrivals).Delivers batch) {c : Change} :
    c ∈ batch ↔ lastChange? (fun c' => c'.path.Same c.path) (arrivals.map (·.1)) = some c := by
  rw [h.eq_values, PathMap.mem_values]
  simp only [get?_pushAll]
  constructor
  · rintro ⟨x, hx⟩
    -- The change stands under some spelling of its path.
    have hsame : c.path.Same x := by simpa using (test_of_lastChange? hx).2
    rw [← hx]
    refine lastChange?_congr fun c' _ => ?_
    rw [decide_eq_decide]
    exact ⟨fun h' => h'.trans hsame, fun h' => h'.trans hsame.symm⟩
  · intro hc
    exact ⟨c.path, hc⟩

/-- **The order of a batch.** Its changes stand in the order of their paths, and not in that of
    their arrival. -/
theorem Delivers.ordered (h : ((empty window).pushAll arrivals).Delivers batch) :
    batch.Pairwise fun c c' => c'.path.precedes c.path = false := by
  rw [h.eq_values]
  -- Each pending change is kept under its own path, so the keys give the order.
  have hentry : ∀ entry ∈ ((empty window).pushAll arrivals).changes.toList,
      entry.2.path.Same entry.1 := by
    intro entry hentry
    have hget : ((empty window).pushAll arrivals).changes.get? entry.1 = some entry.2 := by
      rw [PathMap.get?, PathMap.mem_toList.1 hentry]
      rfl
    rw [get?_pushAll] at hget
    simpa using (test_of_lastChange? hget).2
  have hpaths := ((empty window).pushAll arrivals).changes.ordered_paths
  rw [PathMap.paths, List.pairwise_map] at hpaths
  rw [PathMap.values, List.pairwise_map]
  refine hpaths.imp_of_mem fun {a b} ha hb hab => ?_
  rwa [precedes, show a.2.path.components = a.1.components from hentry a ha,
    show b.2.path.components = b.1.components from hentry b hb]

/-- No two changes of a batch are of one path. -/
theorem Delivers.distinct (h : ((empty window).pushAll arrivals).Delivers batch) :
    batch.Pairwise fun c c' => ¬c.path.Same c'.path := by
  refine h.ordered.imp fun {c c'} hprecedes hsame => ?_
  rw [precedes, show c.path.components = c'.path.components from hsame,
    Std.LawfulEqOrd.compare_eq_iff_eq.2 rfl] at hprecedes
  cases hprecedes

end Pending

end BlastRadius
