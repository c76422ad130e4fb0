import BlastRadius.Change.Stream
import BlastRadius.Proofs.Coalesce
import Mathlib.Data.List.Pairwise
import Mathlib.Data.List.Permutation
import Mathlib.Data.List.Sort
import Mathlib.Data.List.SplitBy

namespace BlastRadius

/-!
# Batches are runs

A stream of changes falls into runs: events that follow each other faster than the window. This file
says that the loop that follows a stream delivers exactly its runs, each coalesced, whatever the
timing.

* `runs`, `coalesce` — the runs of a stream, and the last change of every path in the order of the
  paths.
* `coalesce_eq_values` — what is pending after some arrivals is what they coalesce to.
* `Following.Holding` — between two turns of the loop: what has arrived since the last delivery, and
  when the last of it did. `wait_of_lt`, `wait_of_gt` and `Holding.receive` are the turns.
* `Following.batches_follow` — the loop from any turn on.
* `followed_in_runs` — the whole stream, for both ways to end it.
-/

open BlastRadius.Path

/-! ### Coalescing -/

/-- The last change of every path, in the order of the paths. -/
def coalesce (changes : List Change) : List Change :=
  (changes.pwFilter fun c c' => ¬c.path.Same c'.path).mergeSort fun c c' => c.path.precedes c'.path

section
variable {changes : List Change} {c : Change} {test : Change → Bool}

/-- The first change is the last one where no later one passes. -/
theorem lastChange?_cons (test : Change → Bool) (c : Change) (changes : List Change) :
    lastChange? test (c :: changes)
      = (lastChange? test changes).or (if test c then some c else none) := by
  unfold lastChange?
  by_cases hc : test c = true
  · simp [hc, List.getLast?_cons]
  · simp [hc]

/-- Later changes come before earlier ones. -/
theorem lastChange?_append (test : Change → Bool) (changes later : List Change) :
    lastChange? test (changes ++ later)
      = (lastChange? test later).or (lastChange? test changes) := by
  unfold lastChange?
  rw [List.filter_append, List.getLast?_append]

/-- A change stays in front of others unless one of them is of its path. -/
theorem pwFilter_cons (first : Change) (later : List Change) :
    (first :: later).pwFilter (fun c c' => ¬c.path.Same c'.path)
      = if ∀ c ∈ later,
        ¬first.path.Same c.path then first :: later.pwFilter fun c c' =>
          ¬c.path.Same c'.path else later.pwFilter fun c c' => ¬c.path.Same c'.path := by
  have hkept := List.forall_mem_pwFilter (R := fun c c' : Change => ¬c.path.Same c'.path)
    (fun {x y z} hxz => not_and_or.1 fun h => hxz (h.1.trans h.2)) first later
  split
  · next h => exact List.pwFilter_cons_of_pos (hkept.2 h)
  · next h => exact List.pwFilter_cons_of_neg fun h' => h (hkept.1 h')

/-- A change stays when it is the last one of its path. -/
theorem mem_coalesce :
    c ∈ coalesce changes ↔ lastChange? (fun c' => c'.path.Same c.path) changes = some c := by
  unfold coalesce
  rw [List.mem_mergeSort]
  induction changes with
  | nil => simp [lastChange?]
  | cons first later ih =>
    rw [pwFilter_cons, lastChange?_cons]
    by_cases hsame : first.path.Same c.path
    · -- The first change counts when nothing later is of the path, and is then the only one.
      split
      · next hlast =>
        have hnone : lastChange? (fun c' => c'.path.Same c.path) later = none := by
          refine Option.eq_none_iff_forall_ne_some.2 fun c' hc' => ?_
          have hmem := test_of_lastChange? hc'
          exact hlast c' hmem.1 (hsame.trans (of_decide_eq_true hmem.2).symm)
        simp [hnone, hsame, ih, eq_comm]
      · next hlater =>
        push Not at hlater
        obtain ⟨c', hc', hpath⟩ := hlater
        obtain ⟨last, hlast⟩ :
          ∃ last, lastChange? (fun c' => c'.path.Same c.path) later = some last :=
          exists_lastChange? hc' (decide_eq_true (hpath.symm.trans hsame))
        simp [ih, hlast]
    · have hne : c ≠ first := by
        rintro rfl
        exact hsame rfl
      split
      · simp [ih, hsame, hne]
      · simp [ih, hsame]

/-- Coalesced changes stand in the order of their paths, no two of them for one path. -/
theorem ordered_coalesce (changes : List Change) :
    (coalesce changes).Pairwise fun c c' => c'.path.precedes c.path = false := by
  have hsorted : (coalesce changes).Pairwise fun c c' => c.path.precedes c'.path = true :=
    List.pairwise_mergeSort
      (fun c c' c'' => precedes_trans (p := c.path) (q := c'.path) (r := c''.path))
      (fun c c' => precedes_total c.path c'.path) _
  have hdistinct : (coalesce changes).Pairwise fun c c' => ¬c.path.Same c'.path := by
    refine (List.mergeSort_perm _ _).symm.pairwise (List.pairwise_pwFilter _) ?_
    intro c c' h h'
    exact h h'.symm
  refine hsorted.imp₂ (fun c c' hle hne => ?_) hdistinct
  rw [Bool.eq_false_iff]
  intro hge
  exact hne (same_of_precedes hle hge)

/-- The last of some changes always stays. -/
theorem coalesce_eq_nil : coalesce changes = [] ↔ changes = [] := by
  constructor
  · intro h
    rcases List.eq_nil_or_concat changes with hnil | ⟨front, c, rfl⟩
    · exact hnil
    · have hc : c ∈ coalesce (front ++ [c]) := by
        rw [mem_coalesce, lastChange?_concat]
        exact if_pos (decide_eq_true (Same.refl _))
      rw [List.concat_eq_append] at h
      rw [h] at hc
      cases hc
  · rintro rfl
    simp [coalesce]

/-- Among changes in the order of their paths there is only one of each path, so it is the last
    one. -/
theorem lastChange?_of_ordered (h : changes.Pairwise fun c c' => c'.path.precedes c.path = false)
    (x : Path) :
    lastChange? (fun c' => c'.path.Same x) changes = some c ↔ c ∈ changes ∧ c.path.Same x := by
  constructor
  · intro hc
    have hmem := test_of_lastChange? hc
    exact ⟨hmem.1, of_decide_eq_true hmem.2⟩
  · rintro ⟨hmem, hsame⟩
    obtain ⟨before, after, rfl⟩ := List.append_of_mem hmem
    rw [lastChange?_eq_some_iff]
    refine ⟨decide_eq_true hsame, before, after, rfl, fun c' hc' htest => ?_⟩
    have hpath : c'.path.Same c.path := (of_decide_eq_true htest).trans hsame.symm
    have hfalse := (List.pairwise_cons.1 (List.pairwise_append.1 h).2.1).1 c' hc'
    rw [precedes, show c'.path.components = c.path.components from hpath,
      Std.LawfulEqOrd.compare_eq_iff_eq.2 rfl] at hfalse
    cases hfalse

/-- Coalescing keeps the last change of every path. -/
theorem lastChange?_coalesce (changes : List Change) (x : Path) :
    lastChange? (fun c => c.path.Same x) (coalesce changes)
      = lastChange? (fun c => c.path.Same x) changes := by
  refine Option.ext fun c => ?_
  rw [lastChange?_of_ordered (ordered_coalesce changes), mem_coalesce]
  constructor
  · rintro ⟨hlast, hsame⟩
    rw [← hlast]
    exact lastChange?_congr fun c' _ =>
      decide_eq_decide.2 ⟨fun h => h.trans hsame.symm, fun h => h.trans hsame⟩
  · intro hlast
    have hsame : c.path.Same x := of_decide_eq_true (test_of_lastChange? hlast).2
    refine ⟨?_, hsame⟩
    rw [← hlast]
    exact lastChange?_congr fun c' _ =>
      decide_eq_decide.2 ⟨fun h => h.trans hsame, fun h => h.trans hsame.symm⟩

/-- **What is pending.** The changes that have arrived, coalesced. -/
theorem coalesce_eq_values (window : Nat) (arrivals : List (Change × Nat)) :
    ((Pending.empty window).pushAll arrivals).changes.values = coalesce (arrivals.map (·.1)) := by
  have hirrefl : Std.Irrefl fun c c' : Change => c'.path.precedes c.path = false :=
    ⟨fun c h => by simpa [h] using precedes_total c.path c.path⟩
  have hantisymm : Std.Antisymm fun c c' : Change => c'.path.precedes c.path = false :=
    ⟨fun c c' h h' => by simpa [h, h'] using precedes_total c.path c'.path⟩
  have hbatch : ((Pending.empty window).pushAll arrivals).Delivers
      ((Pending.empty window).pushAll arrivals).changes.values := .flushed
  refine hbatch.ordered.eq_of_mem_iff (ordered_coalesce _) fun c => ?_
  rw [hbatch.mem_iff, mem_coalesce]

end

/-! ### Runs -/

/-- The runs of a stream: its longest parts in which every event but the first follows the one
    before it within the window. -/
def runs (window : Nat) (events : List Event) : List (List Event) :=
  events.splitBy fun _ event => event.gap < window

/-- The batch that some events make up. -/
def batchOfRun (events : List Event) : List Change :=
  coalesce (events.map (·.change))

/-- Only the empty run has an empty batch. -/
theorem batchOfRun_eq_nil {events : List Event} : batchOfRun events = [] ↔ events = [] := by
  rw [batchOfRun, coalesce_eq_nil, List.map_eq_nil_iff]

/-- The batches that the runs of a stream make up. -/
def coalescedRuns (window : Nat) (events : List Event) : List (List Change) :=
  (runs window events).map batchOfRun

/-- Events that all but the first follow within the window. -/
def Unbroken (window : Nat) (held : List Event) : Prop :=
  held.IsChain fun _ event => event.gap < window

section
variable {window : Nat} {held events : List Event} {event : Event}

/-- Events without a long gap are one run. -/
theorem coalescedRuns_of_unbroken (hne : held ≠ []) (h : Unbroken window held) :
    coalescedRuns window held = [batchOfRun held] := by
  rw [coalescedRuns, runs, List.splitBy_of_isChain hne (by simpa [Unbroken] using h)]
  rfl

/-- A gap as long as the window ends a run. -/
theorem coalescedRuns_append (hne : held ≠ []) (h : Unbroken window held)
    (hgap : ¬event.gap < window) :
    coalescedRuns window (held ++ event :: events)
      = batchOfRun held :: coalescedRuns window (event :: events) := by
  have hsplit : runs window (held ++ event :: events)
      = runs window held ++ runs window (event :: events) :=
    List.splitBy_append_cons events fun _ _ => by simpa using hgap
  have hheld := coalescedRuns_of_unbroken hne h
  unfold coalescedRuns at hheld ⊢
  rw [hsplit, List.map_append, hheld]
  rfl

/-- Where there are events there is a run. -/
theorem coalescedRuns_ne_nil (window : Nat) (event : Event) (events : List Event) :
    coalescedRuns window (event :: events) ≠ [] := by
  simp [coalescedRuns, runs]

/-- No batch of a run is empty. -/
theorem ne_nil_of_mem_coalescedRuns {batch : List Change}
    (h : batch ∈ coalescedRuns window events) : batch ≠ [] := by
  obtain ⟨run, hrun, rfl⟩ := List.mem_map.1 h
  exact fun hnil => List.ne_nil_of_mem_splitBy hrun (batchOfRun_eq_nil.1 hnil)

/-- Nothing that is last of its path is lost. -/
theorem lastChange?_coalescedRuns (window : Nat) (events : List Event) (x : Path) :
    lastChange? (fun c => c.path.Same x) (coalescedRuns window events).flatten
      = lastChange? (fun c => c.path.Same x) (events.map (·.change)) := by
  have hruns : ∀ parts : List (List Event),
      lastChange? (fun c => c.path.Same x) (parts.map batchOfRun).flatten
        = lastChange? (fun c => c.path.Same x) (parts.flatten.map (·.change)) := by
    intro parts
    induction parts with
    | nil => rfl
    | cons run parts ih =>
      simp only [List.map_cons, List.flatten_cons, List.map_append]
      rw [lastChange?_append, lastChange?_append, ih, batchOfRun, lastChange?_coalesce]
  rw [coalescedRuns, hruns, runs, List.flatten_splitBy]

end

/-! ### The loop -/

/-- What is delivered of a stream, by how it ends: a last run that has not settled when the stream
    ends may be dropped. -/
def deliveries (window : Nat) (ending : Ending) (closing : Nat) (events : List Event) :
    List (List Change) :=
  match ending with
  | .deliver => coalescedRuns window events
  | .drop => if closing
    < window then (coalescedRuns window events).dropLast else coalescedRuns window events

/-- Only batches of runs are delivered, in their order. -/
theorem deliveries_sublist (window : Nat) (ending : Ending) (closing : Nat) (events : List Event) :
    (deliveries window ending closing events).Sublist (coalescedRuns window events) := by
  unfold deliveries
  cases ending with
  | deliver => exact List.Sublist.refl _
  | drop =>
    dsimp only
    split
    · exact List.dropLast_sublist _
    · exact List.Sublist.refl _

/-- A long gap delivers the run in front of it. -/
theorem deliveries_append {window : Nat} {ending : Ending} {closing : Nat}
    {held events : List Event} {event : Event} (hne : held ≠ []) (h : Unbroken window held)
    (hgap : ¬event.gap < window) :
    deliveries window ending closing (held ++ event :: events)
      = batchOfRun held :: deliveries window ending closing (event :: events) := by
  have hmore := coalescedRuns_ne_nil window event events
  unfold deliveries
  rw [coalescedRuns_append hne h hgap, List.dropLast_cons_of_ne_nil hmore]
  cases ending with
  | deliver => rfl
  | drop =>
    dsimp only
    split <;> rfl

namespace Following

variable {timerFirst : Nat → Bool} {window closing now : Nat} {ending : Ending} {f : Following}
  {held events : List Event} {event : Event}

/-- **The count is right.** Every turn of the loop keeps it so. -/
def Counted (f : Following) : Prop :=
  f.delivered = f.batches.length

/-- Delivering counts the batch. -/
theorem Counted.deliver (h : f.Counted) (batch : List Change) : (f.deliver batch).Counted := by
  show f.delivered + 1 = (f.batches ++ [batch]).length
  rw [show f.delivered = f.batches.length from h]
  simp

/-- So does a timer. -/
theorem Counted.fire (h : f.Counted) (now : Nat) : (f.fire now).Counted := by
  unfold Following.fire
  dsimp only
  split
  · exact h
  · exact Counted.deliver (f := { f with pending := (f.pending.takeReady now).2 }) h _

/-- So does waiting. -/
theorem Counted.wait (h : f.Counted) (time : Nat) : (f.wait timerFirst time).Counted := by
  unfold Following.wait
  split
  · split
    · exact h.fire _
    · exact h
  · exact h

/-- So does closing. -/
theorem Counted.close (h : f.Counted) (ending : Ending) : (f.close ending).Counted := by
  unfold Following.close
  split
  · exact h
  · cases ending with
    | drop => exact h
    | deliver => exact Counted.deliver (f := { f with pending := f.pending.flush.2 }) h _

/-- So does following all events. -/
theorem Counted.follow (h : f.Counted) (ending : Ending) (closing now : Nat) (events : List Event) :
    (f.follow timerFirst ending closing now events).Counted := by
  induction events generalizing f now with
  | nil => exact (h.wait _).close ending
  | cons event events ih =>
    exact ih (f := (f.wait timerFirst _).receive event.change _) (h.wait _) _

/-- Between two turns of the loop, `held` is what has arrived since the last delivery, the last of
    it at `now`. -/
structure Holding (f : Following) (window : Nat) (held : List Event) (now : Nat) : Prop where
  window_eq : f.pending.window = window
  changes_eq : ∃ arrivals : List (Change × Nat), arrivals.map (·.1) = held.map (·.change) ∧
    f.pending.changes = ((Pending.empty window).pushAll arrivals).changes
  lastEvent_eq : held ≠ [] → f.pending.lastEvent = some now

/-- At first nothing is held. -/
theorem holding_nil (hpending : f.pending = .empty window) (now : Nat) :
    f.Holding window [] now where
  window_eq := by rw [hpending]; rfl
  changes_eq := ⟨[], rfl, by rw [hpending]; rfl⟩
  lastEvent_eq h := absurd rfl h

/-- A received event is held. -/
theorem Holding.receive (h : f.Holding window held now) (event : Event) (time : Nat) :
    (f.receive event.change time).Holding window (held ++ [event]) time where
  window_eq := h.window_eq
  changes_eq := by
    obtain ⟨arrivals, hmap, hchanges⟩ := h.changes_eq
    refine ⟨arrivals ++ [(event.change, time)], by simp [hmap], ?_⟩
    rw [Pending.pushAll, List.foldl_concat]
    show f.pending.changes.insert _ _ = PathMap.insert _ _ _
    rw [hchanges]
    rfl
  lastEvent_eq _ := rfl

/-- What is pending is the batch of what is held. -/
theorem Holding.values (h : f.Holding window held now) :
    f.pending.changes.values = batchOfRun held := by
  obtain ⟨arrivals, hmap, hchanges⟩ := h.changes_eq
  rw [hchanges, coalesce_eq_values, hmap, batchOfRun]

/-- Nothing is pending exactly where nothing is held. -/
theorem Holding.isEmpty_iff (h : f.Holding window held now) :
    f.pending.isEmpty = true ↔ held = [] := by
  have hsize : f.pending.changes.values.length = f.pending.size := by
    rw [PathMap.values, List.length_map, PathMap.length_toList]
    rfl
  rw [Pending.isEmpty, beq_iff_eq, ← hsize, h.values, List.length_eq_zero_iff, batchOfRun_eq_nil]

/-- The deadline is a window behind the last event. -/
theorem Holding.deadline? (h : f.Holding window held now) (hne : held ≠ []) :
    f.pending.deadline? = some (now + window) := by
  have hempty : ¬f.pending.isEmpty = true := fun hempty => hne (h.isEmpty_iff.1 hempty)
  rw [Pending.deadline?, if_neg hempty, h.lastEvent_eq hne, h.window_eq]
  rfl

/-- With nothing held there is no timer to go off. -/
theorem Holding.wait_nil (h : f.Holding window [] now) (time : Nat) :
    f.wait timerFirst time = f := by
  rw [wait, Pending.deadline?, if_pos (h.isEmpty_iff.2 rfl)]

/-- What arrives within the window comes before the timer. -/
theorem Holding.wait_of_lt (h : f.Holding window held now) (hne : held ≠ []) {gap : Nat}
    (hgap : gap < window) : f.wait timerFirst (now + gap) = f := by
  rw [wait, h.deadline? hne]
  dsimp only
  rw [if_neg (by omega)]

/-- After the window the timer comes first, delivers all that is held, and leaves nothing to wait
    for. -/
theorem Holding.wait_of_gt (h : f.Holding window held now) (hne : held ≠ []) {gap : Nat}
    (hgap : window < gap) :
    f.wait timerFirst (now + gap)
      = ⟨.empty window, f.batches ++ [batchOfRun held], f.delivered + 1⟩ := by
  have hready : f.pending.takeReady (now + window) = (batchOfRun held, .empty window) := by
    rw [Pending.takeReady, h.deadline? hne]
    dsimp only
    rw [if_pos le_rfl, Pending.flush, h.values, h.window_eq]
  have hsome : (batchOfRun held).isEmpty = false := by
    rw [List.isEmpty_eq_false_iff]
    exact fun hnil => hne (batchOfRun_eq_nil.1 hnil)
  rw [wait, h.deadline? hne]
  dsimp only
  rw [if_pos (by omega), fire, hready]
  dsimp only
  rw [hsome]
  rfl

/-- A stream that ends with nothing held. -/
theorem Holding.close_nil (h : f.Holding window [] now) (ending : Ending) : f.close ending = f := by
  unfold close
  rw [if_pos (h.isEmpty_iff.2 rfl)]

/-- A stream that ends with something held delivers it or drops it. -/
theorem Holding.batches_close (h : f.Holding window held now) (hne : held ≠ []) (ending : Ending) :
    (f.close ending).batches
      = match ending with
        | .deliver => f.batches ++ [batchOfRun held]
        | .drop => f.batches := by
  have hempty : ¬f.pending.isEmpty = true := fun hempty => hne (h.isEmpty_iff.1 hempty)
  unfold close
  rw [if_neg hempty]
  cases ending with
  | drop => rfl
  | deliver =>
    rw [← h.values]
    rfl

/-- The end of a stream: what is held is delivered by the timer if there is time, or else as
    `ending` says. -/
theorem Holding.batches_end (h : f.Holding window held now) (hne : held ≠ [])
    (hrun : Unbroken window held) (hclosing : closing ≠ window) :
    ((f.wait timerFirst (now + closing)).close ending).batches
      = f.batches ++ deliveries window ending closing held := by
  unfold deliveries
  rw [coalescedRuns_of_unbroken hne hrun]
  rcases lt_or_gt_of_ne hclosing with hlt | hgt
  · rw [h.wait_of_lt hne hlt, h.batches_close hne, if_pos hlt]
    cases ending with
    | deliver => rfl
    | drop => exact (List.append_nil _).symm
  · have hnil : Holding ⟨.empty window, f.batches ++ [batchOfRun held], f.delivered + 1⟩
        window [] now :=
      holding_nil rfl now
    rw [h.wait_of_gt hne hgt, hnil.close_nil, if_neg (by omega)]
    cases ending <;> rfl

/-- **The loop from any turn on.** What is held goes on as a run with the events to come. -/
theorem Holding.batches_follow (h : f.Holding window held now) (hne : held ≠ [])
    (hrun : Unbroken window held) (hgaps : ∀ event ∈ events, event.gap ≠ window)
    (hclosing : closing ≠ window) :
    (f.follow timerFirst ending closing now events).batches
      = f.batches ++ deliveries window ending closing (held ++ events) := by
  induction events generalizing f held now with
  | nil =>
    rw [List.append_nil]
    exact h.batches_end hne hrun hclosing
  | cons event events ih =>
    have hgaps' : ∀ event ∈ events, event.gap ≠ window :=
      fun e he => hgaps e (List.mem_cons_of_mem _ he)
    rcases lt_or_gt_of_ne (hgaps event List.mem_cons_self) with hlt | hgt
    · -- The event joins the run.
      have hrun' : Unbroken window (held ++ [event]) := by
        refine List.isChain_append.2 ⟨hrun, List.isChain_singleton _, ?_⟩
        intro _ _ event' hevent'
        obtain rfl : event = event' := by simpa using hevent'
        exact hlt
      have hturn := h.receive event (now + event.gap)
      rw [follow, h.wait_of_lt hne hlt, ih hturn (by simp) hrun' hgaps', List.append_assoc]
      rfl
    · -- The timer delivers the run, and the event starts the next one.
      have hnil : Holding ⟨.empty window, f.batches ++ [batchOfRun held], f.delivered + 1⟩
          window [] now :=
        holding_nil rfl now
      have hturn := hnil.receive event (now + event.gap)
      rw [follow, h.wait_of_gt hne hgt, ih hturn (by simp) (List.isChain_singleton _) hgaps',
        deliveries_append hne hrun (by omega)]
      show (f.batches ++ [batchOfRun held]) ++ _ = _
      rw [List.append_assoc]
      rfl

end Following

/-- The loop over a whole stream. -/
theorem batches_followed {timerFirst : Nat → Bool} {window closing : Nat} {events : List Event}
    (ending : Ending) (hgaps : ∀ event ∈ events.tail, event.gap ≠ window)
    (hclosing : closing ≠ window) :
    (followed timerFirst window ending closing events).batches
      = deliveries window ending closing events := by
  have hstart : (Following.start window).Holding window [] 0 := Following.holding_nil rfl 0
  rw [followed]
  cases events with
  | nil =>
    rw [Following.follow, hstart.wait_nil, hstart.close_nil]
    cases ending <;> simp [deliveries, coalescedRuns, runs, Following.start]
  | cons event events =>
    rw [List.tail_cons] at hgaps
    have hturn := hstart.receive event (0 + event.gap)
    rw [Following.follow, hstart.wait_nil,
      hturn.batches_follow (by simp) (List.isChain_singleton _) hgaps hclosing]
    rfl

/-- **A stream is delivered in runs.** Let no event follow the one before it, and the end the last
    event, after exactly the length of the window. A loop that delivers what is pending at the end
    then delivers the coalesced runs of the stream in order; one that drops it delivers them without
    the last if the end comes within the window, and all of them otherwise. Both count their
    batches, none of which is empty, and the last change of every path is the last one delivered of
    it. -/
theorem followed_in_runs (timerFirst : Nat → Bool) (window closing : Nat) (events : List Event)
    (hgaps : ∀ event ∈ events.tail, event.gap ≠ window) (hclosing : closing ≠ window) :
    (followed timerFirst window .deliver closing events).batches = coalescedRuns window events ∧
    (closing < window →
      (followed timerFirst window .drop closing events).batches
        = (coalescedRuns window events).dropLast) ∧
    (window < closing →
      (followed timerFirst window .drop closing events).batches = coalescedRuns window events) ∧
    (∀ ending, (followed timerFirst window ending closing events).delivered
        = (followed timerFirst window ending closing events).batches.length ∧
      ∀ batch ∈ (followed timerFirst window ending closing events).batches, batch ≠ []) ∧
    ∀ x : Path, lastChange? (fun c => c.path.Same x)
        (followed timerFirst window .deliver closing events).batches.flatten
      = lastChange? (fun c => c.path.Same x) (events.map (·.change)) := by
  have hbatches : ∀ ending, (followed timerFirst window ending closing events).batches
      = deliveries window ending closing events :=
        fun ending => batches_followed ending hgaps hclosing
  refine ⟨hbatches .deliver, ?_, ?_, ?_, ?_⟩
  · intro hlt
    rw [hbatches, deliveries, if_pos hlt]
  · intro hgt
    rw [hbatches, deliveries, if_neg (by omega)]
  · intro ending
    refine ⟨?_, ?_⟩
    · have hstart : (Following.start window).Counted := rfl
      exact hstart.follow ending closing 0 events
    · intro batch hbatch
      rw [hbatches] at hbatch
      exact ne_nil_of_mem_coalescedRuns
        ((deliveries_sublist window ending closing events).subset hbatch)
  · intro x
    rw [hbatches]
    exact lastChange?_coalescedRuns window events x

namespace Sample

/-- Two files change in a burst, one of them under two spellings, and then again after a pause. -/
def burst : List Event :=
  [⟨7, .created, .ofString "/p/b.ts"⟩, ⟨20, .modified, .ofString "/p/a.ts"⟩,
    ⟨30, .deleted, .ofString "/p/./b.ts"⟩, ⟨90, .created, .ofString "/p/b.ts"⟩]

/-- The burst is one batch. The stream ends too early for the change after it, which is delivered or
    dropped. -/
theorem followed_in_runs_burst :
    (∀ event ∈ burst.tail, event.gap ≠ 50) ∧ 20 ≠ 50 ∧ 20 < 50 ∧
    (followed (fun time => time % 2 == 0) 50 .deliver 20 burst).batches =
      [[⟨.modified, .ofString "/p/a.ts"⟩, ⟨.deleted, .ofString "/p/./b.ts"⟩],
        [⟨.created, .ofString "/p/b.ts"⟩]] ∧
    (followed (fun time => time % 2 == 0) 50 .drop 20 burst).batches =
      [[⟨.modified, .ofString "/p/a.ts"⟩, ⟨.deleted, .ofString "/p/./b.ts"⟩]] := by
  have hgaps : ∀ event ∈ burst.tail, event.gap ≠ 50 := by decide
  have hruns : coalescedRuns 50 burst =
      [[⟨.modified, .ofString "/p/a.ts"⟩, ⟨.deleted, .ofString "/p/./b.ts"⟩],
        [⟨.created, .ofString "/p/b.ts"⟩]] := by cbv
  obtain ⟨hdelivered, hdropped, -⟩ :=
    followed_in_runs (fun time => time % 2 == 0) 50 20 burst hgaps (by decide)
  refine ⟨hgaps, by decide, by decide, hdelivered.trans hruns, (hdropped (by decide)).trans ?_⟩
  rw [hruns]
  rfl

end Sample

end BlastRadius
