import BlastRadius.Change.Window

namespace BlastRadius

/-!
# Streams of changes

A stream of changes is followed by a loop that waits for the next change and for the pending ones to
settle, whichever comes first, and delivers every batch as soon as it has settled.

* `Event` — a change, and how long after the last one it arrives.
* `Pending.settle` — what is delivered before a point in time.
* `Following` — the loop between two of its turns; `wait`, `receive` and `close` are what it can do.
* `followed`, `batches` — what comes of a whole stream.
-/

/-- A change that arrives `gap` milliseconds after the one before it. -/
structure Event where
  gap : Nat
  change : Change
deriving DecidableEq

/-- What happens to changes that are pending when the stream ends. -/
inductive Ending where
  /-- They are dropped. -/
  | drop
  /-- They are delivered as the last batch. -/
  | deliver
deriving DecidableEq, Repr

/-- A batch, unless it is empty. -/
def batchOf (changes : List Change) : List (List Change) :=
  if changes.isEmpty then [] else [changes]

/-- The batches that settle by `now`, and what is pending then. -/
def Pending.settle (p : Pending) (now : Nat) : List (List Change) × Pending :=
  let (ready, p) := p.takeReady now
  (batchOf ready, p)

/-- A stream while it is followed: what is pending, the batches delivered so far, and the count of
    them. -/
structure Following where
  pending : Pending
  batches : List (List Change)
  delivered : Nat

namespace Following

/-- Before anything arrives. -/
def start (window : Nat) : Following :=
  ⟨.empty window, [], 0⟩

/-- A batch is delivered and counted. -/
def deliver (f : Following) (batch : List Change) : Following :=
  { f with batches := f.batches ++ [batch], delivered := f.delivered + 1 }

/-- The timer goes off: what has settled by `now` is delivered, if anything has. -/
def fire (f : Following) (now : Nat) : Following :=
  let (ready, pending) := f.pending.takeReady now
  let f := { f with pending }
  if ready.isEmpty then f else f.deliver ready

/-- The wait for what arrives at `time`. The timer goes off if its time is before that. When both
    fall on one point in time either may come first, and `timerFirst` says which. -/
def wait (timerFirst : Nat → Bool) (f : Following) (time : Nat) : Following :=
  match f.pending.deadline? with
  | some deadline =>
    if deadline < time ∨ deadline = time ∧ timerFirst time = true then f.fire deadline else f
  | none => f

/-- A change arrives. -/
def receive (f : Following) (change : Change) (now : Nat) : Following :=
  { f with pending := f.pending.push change now }

/-- The stream ends. -/
def close (ending : Ending) (f : Following) : Following :=
  if f.pending.isEmpty then f
  else
    match ending with
    | .drop => f
    | .deliver =>
      let (rest, pending) := f.pending.flush
      { f with pending }.deliver rest

/-- The loop from `now` on: the events still to come arrive one after another, and the stream ends
    `closing` milliseconds after the last one. -/
def follow (timerFirst : Nat → Bool) (ending : Ending) (closing : Nat) (f : Following) (now : Nat) :
    List Event → Following
  | [] => (f.wait timerFirst (now + closing)).close ending
  | event :: events =>
    let time := now + event.gap
    ((f.wait timerFirst time).receive event.change time).follow timerFirst ending
      closing time events

end Following

/-- What comes of a stream of changes. -/
def followed (timerFirst : Nat → Bool) (window : Nat) (ending : Ending) (closing : Nat)
    (events : List Event) : Following :=
  (Following.start window).follow timerFirst ending closing 0 events

/-- The batches in which a stream of changes is delivered, where the timer goes first. -/
def batches (window : Nat) (ending : Ending) (closing : Nat) (events : List Event) :
    List (List Change) :=
  (followed (fun _ => true) window ending closing events).batches

end BlastRadius
