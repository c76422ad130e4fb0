import BlastRadius.Digest.Word
import BlastRadius.Path.Basic
import BlastRadius.Text.Utf8

namespace BlastRadius.Path

/-!
# Imprints of paths

An imprint stands for a path where the path itself is not kept. The names of the path run together
in it, so that only a word for their lengths tells where one ends: paths with the same components
have the same imprint, and a few with different components have the same one too.

* `names` — the bytes of the names in a path.
* `imprint` — the imprint of a path.
-/

open Text Digest

/-- The bytes of the names in a path. The root has no name. -/
def names (p : Path) : List (List UInt8) :=
  (p.components.filter (· ≠ .root)).map fun c => utf8 c.text

/-- The names of a path run together, and a word for their lengths. -/
def imprint (p : Path) : List UInt8 :=
  p.names.flatten ++ littleEndian (mixLengths (p.names.map List.length))

/-- Paths with the same components have the same imprint. -/
theorem imprint_eq_of_same {p q : Path} (h : p.Same q) : p.imprint = q.imprint := by
  have hnames : p.names = q.names := by rw [names, names, show p.components = q.components from h]
  rw [imprint, imprint, hnames]

end BlastRadius.Path
