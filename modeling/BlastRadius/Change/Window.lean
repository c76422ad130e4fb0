import BlastRadius.Change.Basic
import BlastRadius.Path.Map

namespace BlastRadius

/-!
# Pending changes

Changes are collected until none has arrived for a while. For each path only the last change counts.

* `Pending` — the changes collected, and when the last one arrived.
* `Pending.push`, `Pending.takeReady`, `Pending.flush` — collecting and draining.
-/

/-- The changes collected so far. They settle when none arrives for the length of the window. -/
structure Pending where
  /-- Milliseconds of quiet. -/
  window : Nat
  changes : PathMap Change
  lastEvent : Option Nat

namespace Pending

/-- Nothing collected. -/
def empty (window : Nat) : Pending :=
  ⟨window, .empty, none⟩

/-- A change that arrives at `now`, instead of an earlier one of the same path. -/
def push (p : Pending) (change : Change) (now : Nat) : Pending :=
  { p with changes := p.changes.insert change.path change, lastEvent := some now }

/-- The number of changes. -/
def size (p : Pending) : Nat :=
  p.changes.size

/-- Whether there is no change. -/
def isEmpty (p : Pending) : Bool :=
  p.size == 0

/-- When the changes settle, if there are any. -/
def deadline? (p : Pending) : Option Nat :=
  if p.isEmpty then none else p.lastEvent.map (· + p.window)

/-- All the changes in the order of their paths, and what is pending without them. -/
def flush (p : Pending) : List Change × Pending :=
  (p.changes.values, .empty p.window)

/-- All the changes if they have settled by `now`, and what is pending then. -/
def takeReady (p : Pending) (now : Nat) : List Change × Pending :=
  match p.deadline? with
  | some deadline => if deadline ≤ now then p.flush else ([], p)
  | none => ([], p)

end Pending

end BlastRadius
