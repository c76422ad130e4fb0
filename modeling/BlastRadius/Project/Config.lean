import BlastRadius.Graph.Snapshot

namespace BlastRadius.Project

/-!
# Configuration of an analysis

* `Config` — the settings, each with a default.
* `Config.read` — settings from JSON.
-/

open Json Json.Tree

/-- The settings of an analysis. -/
structure Config where
  /-- How many files are analysed at a time. -/
  workers : Nat := 4
  /-- How many files are handed over at a time. -/
  batchSize : Nat := 200
  /-- Milliseconds of quiet before changes are applied. -/
  debounceMs : Nat := 200
  useCache : Bool := true
  /-- Where analyses are kept on disk. -/
  cacheDir : Option Path := none
deriving DecidableEq

/-- Settings from the tree of a JSON text. Missing ones have their default. -/
def config? (t : Tree) : Option Config := do
  let fallback : Config := {}
  match ← t.record? ["workers", "batchSize", "debounceMs", "useCache", "cacheDir"] 0 with
  | [workers, batchSize, debounceMs, useCache, cacheDir] =>
    return {
      workers := ← orDefault nat? fallback.workers workers
      batchSize := ← orDefault nat? fallback.batchSize batchSize
      debounceMs := ← orDefault nat? fallback.debounceMs debounceMs
      useCache := ← orDefault bool? fallback.useCache useCache
      cacheDir := ← orDefault (nullable? Graph.path?) fallback.cacheDir cacheDir }
  | _ => none

/-- Settings from a JSON text. -/
def Config.read? (s : List Char) : Option Config :=
  (tree? s).bind config?

end BlastRadius.Project
