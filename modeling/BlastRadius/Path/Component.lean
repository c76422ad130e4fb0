import BlastRadius.Text.Blank

namespace BlastRadius

/-!
# Components of a path

Two spellings name the same path when they have the same components: separators may be repeated, one
may stand at the end, and `.` counts only at the beginning.

* `Component` — the root, the current directory, the parent directory, or a name.
* `Component.ofText` — the components of a spelling.
* The order of components is lawful, so component lists can be keys of ordered maps.
-/

open Text

/-- A component of a path. -/
inductive Component where
  /-- The root directory. -/
  | root
  /-- The directory that a relative path starts from, written `.`. -/
  | here
  /-- The directory above, written `..`. -/
  | up
  /-- A name in a directory. -/
  | name (text : String)
deriving DecidableEq, Repr, Hashable

namespace Component

/-- The root comes first, then `.`, then `..`, then names. -/
def rank : Component → Nat
  | .root => 0
  | .here => 1
  | .up => 2
  | .name _ => 3

/-- The text of a name. -/
def label : Component → String
  | .name text => text
  | _ => ""

/-- Components are ordered by rank, and names by their code points. -/
instance : Ord Component where
  compare := compareLex (compareOn rank) (compareOn label)

/-- The order of components is transitive, as those of ranks and labels are. -/
instance : Std.TransOrd Component :=
  inferInstanceAs (Std.TransCmp (compareLex (compareOn rank) (compareOn label)))

/-- Rank and label make up a component. -/
theorem eq_of_rank_of_label {a b : Component} (hrank : a.rank = b.rank)
    (hlabel : a.label = b.label) : a = b := by
  cases a <;> cases b <;> simp_all [rank, label]

/-- Components that compare as equal are equal. -/
instance : Std.LawfulEqOrd Component where
  compare_self {a} := by
    show compareLex (compareOn rank) (compareOn label) a a = .eq
    exact Std.ReflCmp.compare_self
  eq_of_compare {a b} h := by
    have h : compareLex (compareOn rank) (compareOn label) a b = .eq := h
    obtain ⟨hrank, hlabel⟩ := compareLex_eq_eq.1 h
    exact eq_of_rank_of_label (Std.LawfulEqOrd.eq_of_compare hrank)
      (Std.LawfulEqOrd.eq_of_compare hlabel)

/-! ### Reading components -/

/-- The segments of a text: its pieces between separators. -/
def segments (s : List Char) : List (List Char) :=
  pieces (· == '/') s

/-- Whether a segment says nothing: it is empty, or a single dot. -/
def isIdle (segment : List Char) : Bool :=
  segment.isEmpty || segment == ['.']

/-- The component that a segment behind the first says, if it says one. -/
def ofSegment? (segment : List Char) : Option Component :=
  if isIdle segment then none
  else if segment = ['.', '.'] then some .up
  else some (.name (String.ofList segment))

/-- The components of a spelling. -/
def ofText (s : List Char) : List Component :=
  match s, segments s with
  | '/' :: _, segs => .root :: segs.filterMap ofSegment?
  | _, ['.'] :: segs => .here :: segs.filterMap ofSegment?
  | _, segs => segs.filterMap ofSegment?

/-! ### Writing components -/

/-- The text of one component behind the first. -/
def text : Component → List Char
  | .root => []
  | .here => ['.']
  | .up => ['.', '.']
  | .name text => text.toList

/-- Segments with separators between them. -/
def joined : List (List Char) → List Char
  | [] => []
  | [segment] => segment
  | segment :: segs => segment ++ '/' :: joined segs

/-- The plainest spelling of a list of components. -/
def spell : List Component → List Char
  | .root :: cs => '/' :: joined (cs.map text)
  | cs => joined (cs.map text)

end Component

end BlastRadius
