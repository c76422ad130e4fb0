import BlastRadius.Path.Basic

namespace BlastRadius.Path

/-!
# Normal paths

A normal path has no `.`, and `..` only at the beginning of a relative path.

* `collapse` — the components of the normal path.
* `normalize` — the normal path, in its plainest spelling.
-/

/-- One component on top of a stack of normal ones. `..` takes a name off, and stays at the root. -/
def collapseStep (stack : List Component) (c : Component) : List Component :=
  match c, stack with
  | .here, stack => stack
  | .up, .name _ :: stack => stack
  | .up, .root :: stack => .root :: stack
  | c, stack => c :: stack

/-- The components of the normal path. -/
def collapse (cs : List Component) : List Component :=
  (cs.foldl collapseStep []).reverse

/-- The path with the given components, in its plainest spelling. -/
def ofComponents (cs : List Component) : Path :=
  ofChars (Component.spell cs)

/-- The normal path that says the same as `p` where no directory is a link. -/
def normalize (p : Path) : Path :=
  ofComponents (collapse p.components)

end BlastRadius.Path
