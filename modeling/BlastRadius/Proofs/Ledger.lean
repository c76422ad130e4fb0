import BlastRadius.Proofs.Runs

namespace BlastRadius

/-!
# The ledger of pending changes

Collecting and draining may follow each other in any way and at any times, even times that go back.
This file keeps a ledger beside the pending changes, the changes that have arrived since the last
drain with the times at which they did, and says that the ledger determines everything about them.

* `Call`, `Pending.call`, `Pending.calls` — what can be asked of pending changes, one call and a row
  of them.
* `Settled`, `Call.entered`, `ledger` — when the changes of a ledger have settled, and the ledger
  after a row of calls.
* `Pending.call_pushAll`, `Pending.calls_eq_pushAll` — one call, and a row of calls, as the ledger
  has it.
* `Pending.ledger_accounts` — what is pending, what a drain answers and when one takes place, after
  any calls.
-/

open BlastRadius.Path

/-- What can be asked of pending changes. -/
inductive Call where
  | push (change : Change) (now : Nat)
  | takeReady (now : Nat)
  | flush
deriving DecidableEq

/-- One call: the changes that it answers with, and what is pending after it. -/
def Pending.call (p : Pending) : Call → List Change × Pending
  | .push change now => ([], p.push change now)
  | .takeReady now => p.takeReady now
  | .flush => p.flush

/-- What is pending after a row of calls. -/
def Pending.calls (window : Nat) (calls : List Call) : Pending :=
  calls.foldl (fun p call => (p.call call).2) (.empty window)

/-! ### The ledger -/

/-- Some arrivals have settled by `now` when the last of them is a window ago. -/
def Settled (window : Nat) (arrivals : List (Change × Nat)) (now : Nat) : Prop :=
  ∃ last ∈ arrivals.getLast?, last.2 + window ≤ now

instance (window : Nat) (arrivals : List (Change × Nat)) (now : Nat) :
    Decidable (Settled window arrivals now) :=
  inferInstanceAs (Decidable (∃ last ∈ arrivals.getLast?, last.2 + window ≤ now))

/-- The ledger when a call is entered into it: an arrival is put last, a drain clears it. -/
def Call.entered (window : Nat) (arrivals : List (Change × Nat)) : Call → List (Change × Nat)
  | .push change now => arrivals ++ [(change, now)]
  | .takeReady now => if Settled window arrivals now then [] else arrivals
  | .flush => []

/-- What has arrived since the last drain, and when. -/
def ledger (window : Nat) (calls : List Call) : List (Change × Nat) :=
  calls.foldl (fun arrivals call => call.entered window arrivals) []

/-! ### What is pending, by the ledger -/

/-- The paths of coalesced changes are in order, each once. -/
theorem increasing_coalesce (changes : List Change) :
    ((coalesce changes).map (·.path)).Pairwise Before := by
  rw [List.pairwise_map]
  refine (ordered_coalesce changes).imp fun {c c'} h => ?_
  have hgt : compare c'.path.components c.path.components = .gt := by
    simpa [precedes] using h
  exact Std.OrientedCmp.lt_of_gt hgt

namespace Pending

variable {window : Nat} {arrivals : List (Change × Nat)}

/-- Pushing keeps the window. -/
theorem window_pushAll (p : Pending) (arrivals : List (Change × Nat)) :
    (p.pushAll arrivals).window = p.window := by
  induction arrivals generalizing p with
  | nil => rfl
  | cons arrival arrivals ih => exact ih (p.push arrival.1 arrival.2)

/-- The last arrival is pushed last. -/
theorem pushAll_concat (p : Pending) (arrivals : List (Change × Nat)) (change : Change)
    (now : Nat) :
    p.pushAll (arrivals ++ [(change, now)]) = (p.pushAll arrivals).push change now := by
  rw [pushAll, List.foldl_concat]
  rfl

/-- The time kept is that of the last arrival, whether or not it is the latest time. -/
theorem lastEvent_pushAll (window : Nat) (arrivals : List (Change × Nat)) :
    ((empty window).pushAll arrivals).lastEvent = arrivals.getLast?.map (·.2) := by
  induction arrivals using List.reverseRecOn with
  | nil => rfl
  | append_singleton arrivals arrival _ =>
    rw [pushAll_concat]
    simp [push]

/-- As many changes are pending as the batch has. -/
theorem size_pushAll (window : Nat) (arrivals : List (Change × Nat)) :
    ((empty window).pushAll arrivals).size = (coalesce (arrivals.map (·.1))).length := by
  rw [← coalesce_eq_values window, PathMap.length_values]
  rfl

/-- Nothing is pending exactly where nothing arrived. -/
theorem isEmpty_pushAll : ((empty window).pushAll arrivals).isEmpty = true ↔ arrivals = [] := by
  rw [isEmpty, beq_iff_eq, size_pushAll, List.length_eq_zero_iff, coalesce_eq_nil,
    List.map_eq_nil_iff]

/-- The deadline is a window behind the last arrival. -/
theorem deadline?_pushAll (window : Nat) (arrivals : List (Change × Nat)) :
    ((empty window).pushAll arrivals).deadline? = arrivals.getLast?.map (·.2 + window) := by
  unfold deadline?
  split
  · next hempty => simp [isEmpty_pushAll.1 hempty]
  · rw [lastEvent_pushAll, window_pushAll, Option.map_map]
    rfl

/-- Flushing hands out the batch, and leaves nothing. -/
theorem flush_pushAll (window : Nat) (arrivals : List (Change × Nat)) :
    ((empty window).pushAll arrivals).flush = (coalesce (arrivals.map (·.1)), empty window) := by
  rw [flush, coalesce_eq_values, window_pushAll]
  rfl

/-- A drain waits until the last arrival is a window ago. -/
theorem takeReady_pushAll (window : Nat) (arrivals : List (Change × Nat)) (now : Nat) :
    ((empty window).pushAll arrivals).takeReady now
      = if Settled window arrivals now then (coalesce (arrivals.map (·.1)), empty window)
        else ([], (empty window).pushAll arrivals) := by
  rw [takeReady, deadline?_pushAll, ← flush_pushAll]
  cases hlast : arrivals.getLast? with
  | none =>
    have hnot : ¬Settled window arrivals now := by simp [Settled, hlast]
    simp [hnot]
  | some last =>
    have hiff : Settled window arrivals now ↔ last.2 + window ≤ now := by simp [Settled, hlast]
    simp [hiff]

/-- **One call.** Whatever it is, what is pending stays what the ledger says. -/
theorem call_pushAll (window : Nat) (arrivals : List (Change × Nat)) (call : Call) :
    (((empty window).pushAll arrivals).call call).2
      = (empty window).pushAll (call.entered window arrivals) := by
  cases call with
  | push change now => exact (pushAll_concat _ arrivals change now).symm
  | takeReady now =>
    show (takeReady _ now).2 = pushAll _ (if Settled window arrivals now then [] else arrivals)
    rw [takeReady_pushAll]
    split <;> rfl
  | flush =>
    show (flush _).2 = _
    rw [flush_pushAll]
    rfl

/-- **A row of calls.** What is pending is what the ledger has, pushed one by one. -/
theorem calls_eq_pushAll (window : Nat) (calls : List Call) :
    Pending.calls window calls = (empty window).pushAll (ledger window calls) := by
  induction calls using List.reverseRecOn with
  | nil => rfl
  | append_singleton calls call ih =>
    rw [Pending.calls, ledger, List.foldl_concat, List.foldl_concat]
    show ((Pending.calls window calls).call call).2 = _
    rw [ih, call_pushAll]
    rfl

/-- **The ledger accounts for everything.** After any calls at any times, with `batch` for the last
    change of every path in the ledger:

    * a path has the last of its changes pending, and nothing else is pending;
    * `batch` stands in the order of the paths, so it has one change of each;
    * a flush answers `batch` and leaves nothing;
    * so does taking what is ready, when the last arrival is a window ago; otherwise it answers
      nothing and changes nothing;
    * the changes are due a window after the last arrival, and not due when there are none. -/
theorem ledger_accounts (window : Nat) (calls : List Call) :
    let p := Pending.calls window calls
    let arrivals := ledger window calls
    let batch := coalesce (arrivals.map (·.1))
    (∀ x, p.changes.get? x = lastChange? (fun c => c.path.Same x) (arrivals.map (·.1))) ∧
    p.changes.values = batch ∧ p.size = batch.length ∧ (p.isEmpty = true ↔ arrivals = []) ∧
    (∀ c, c ∈ batch ↔ lastChange? (fun c' => c'.path.Same c.path) (arrivals.map (·.1)) = some c) ∧
    (batch.map (·.path)).Pairwise Before ∧
    p.flush = (batch, .empty window) ∧
    (∀ now, p.takeReady now
      = if Settled window arrivals now then (batch, .empty window) else ([], p)) ∧
    p.deadline? = arrivals.getLast?.map (·.2 + window) ∧
    (p.deadline?.isSome = true ↔ arrivals ≠ []) := by
  intro p arrivals batch
  -- Only the arrivals since the last delivery count, so the rest is about pushing alone.
  have hp : p = (empty window).pushAll arrivals := calls_eq_pushAll window calls
  have hdeadline : p.deadline? = arrivals.getLast?.map (·.2 + window) := by
    rw [hp, deadline?_pushAll]
  refine ⟨?_, ?_, ?_, ?_, fun c => mem_coalesce, increasing_coalesce _, ?_, ?_, hdeadline, ?_⟩
  · rw [hp]
    exact get?_pushAll window arrivals
  · rw [hp, coalesce_eq_values]
  · rw [hp, size_pushAll]
  · rw [hp, isEmpty_pushAll]
  · rw [hp, flush_pushAll]
  · intro now
    rw [hp, takeReady_pushAll]
  · rw [hdeadline, Option.isSome_map, List.getLast?_isSome]

end Pending

end BlastRadius
