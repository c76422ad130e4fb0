import BlastRadius.Path.Component

namespace BlastRadius

/-!
# Paths

A path keeps the spelling that it was made with, and is compared by its components.

* `Path` — a spelling with its components.
* `Path.join`, `Path.parent?`, `Path.relativeTo?` — composing and cutting.
* `Path.fileName?`, `Path.extension?`, `Path.withExtension` — the last component.
* `Path.Same`, `Path.precedes` — equality and order by components.
-/

open Text

/-- A path: a spelling, and the components that it says. -/
structure Path where
  spelling : String
  components : List Component
  components_eq : components = Component.ofText spelling.toList
deriving DecidableEq

namespace Path

/-- The path with a given spelling. -/
def ofString (s : String) : Path :=
  ⟨s, Component.ofText s.toList, rfl⟩

/-- The path with a given spelling. -/
def ofChars (s : List Char) : Path :=
  ofString (String.ofList s)

instance : Inhabited Path := ⟨ofString ""⟩

instance : Repr Path := ⟨fun p _ => repr p.spelling⟩

/-- The characters of the spelling. -/
def chars (p : Path) : List Char :=
  p.spelling.toList

/-- A path is determined by its spelling. -/
@[ext] theorem ext_spelling {p q : Path} (h : p.spelling = q.spelling) : p = q := by
  cases p with
  | mk s cs hp =>
    cases q with
    | mk t ds hq => subst hp hq; cases h; rfl

/-- A path is spelled as it was given. -/
@[simp] theorem spelling_ofString (s : String) : (ofString s).spelling = s := rfl

/-- Two paths are the same when they have the same components. -/
def Same (p q : Path) : Prop :=
  p.components = q.components

instance (p q : Path) : Decidable (p.Same q) :=
  inferInstanceAs (Decidable (p.components = q.components))

/-- The order of paths: component by component. -/
def precedes (p q : Path) : Bool :=
  (compare p.components q.components).isLE

/-- Whether a path starts at the root. -/
def isAbsolute (p : Path) : Bool :=
  p.chars.head? == some '/'

/-! ### Composing -/

/-- `q` seen from `p`. An absolute `q` stands for itself, and an empty one adds a separator. -/
def join (p q : Path) : Path :=
  if q.isAbsolute || p.chars.isEmpty then q
  else if p.chars.getLast? = some '/' then ofString (p.spelling ++ q.spelling)
  else ofString (p.spelling ++ "/" ++ q.spelling)

/-- The path that a text names, seen from `p`. -/
def child (p : Path) (s : String) : Path :=
  p.join (ofString s)

/-- The path with a text at the end of its spelling. -/
def append (p : Path) (s : String) : Path :=
  ofString (p.spelling ++ s)

/-! ### Cutting -/

/-- A spelling in two parts: the root or the leading dot, and the segments behind it. -/
structure Cut where
  front : List Char
  segments : List (List Char)

/-- The two parts of a spelling. -/
def cut (p : Path) : Cut :=
  match p.chars with
  | '/' :: s => ⟨['/'], Component.segments s⟩
  | '.' :: s =>
    match s with
    | [] => ⟨['.'], []⟩
    | '/' :: _ => ⟨['.'], Component.segments s⟩
    | _ => ⟨[], Component.segments p.chars⟩
  | s => ⟨[], Component.segments s⟩

/-- Segments without those at the end that say nothing. -/
def trimSegments (segs : List (List Char)) : List (List Char) :=
  (segs.reverse.dropWhile Component.isIdle).reverse

/-- The spelling that two parts make up. -/
def Cut.text (c : Cut) : List Char :=
  c.front ++ Component.joined c.segments

/-- The path without its last component. The root has no parent, and neither has the empty path. -/
def parent? (p : Path) : Option Path :=
  let c := p.cut
  let segs := trimSegments c.segments
  if segs.isEmpty then
    if c.front = ['.'] then some (ofString "") else none
  else some (ofChars (Cut.text ⟨c.front, trimSegments segs.dropLast⟩))

/-- Segments behind the first `n` components that they say. -/
def dropComponents : (n : Nat) → List (List Char) → List (List Char)
  | 0, segs => segs
  | _ + 1, [] => []
  | n + 1, seg :: segs =>
    if Component.isIdle seg then dropComponents (n + 1) segs else dropComponents n segs

/-- What is left of a spelling behind the first `n` components. -/
def afterComponents (p : Path) (n : Nat) : Path :=
  let c := p.cut
  match n with
  | 0 => ofChars (Cut.text ⟨c.front, trimSegments c.segments⟩)
  | n + 1 =>
    let segs :=
      if c.front.isEmpty then dropComponents (n + 1) c.segments else dropComponents n c.segments
    ofChars (Component.joined (trimSegments (segs.dropWhile Component.isIdle)))

/-- What is left of `p` behind the components of `base`, when it begins with them. -/
def relativeTo? (p base : Path) : Option Path :=
  if base.components.isPrefixOf p.components then some (p.afterComponents base.components.length)
  else none

/-- Whether `p` begins with the components of `base`. -/
def isUnder (p base : Path) : Bool :=
  base.components.isPrefixOf p.components

/-! ### The last component -/

/-- The name at the end of a path. -/
def fileName? (p : Path) : Option String :=
  match p.components.getLast? with
  | some (.name text) => some text
  | _ => none

/-- The stem and the extension of a name: the text before and behind its last dot. A dot at the
    beginning does not set an extension apart. -/
def splitExtension (text : List Char) : List Char × Option (List Char) :=
  let last := text.reverse.takeWhile (· != '.')
  match text.reverse.drop last.length with
  | [] => (text, none)
  | [_] => (text, none)
  | _ :: stem => (stem.reverse, some last.reverse)

/-- What stands behind the last dot of the file name. -/
def extension? (p : Path) : Option String := do
  let file ← p.fileName?
  let last ← (splitExtension file.toList).2
  return String.ofList last

/-- The path whose file name has another extension. A path without file name stays. -/
def renameExtension (p : Path) (extension : String) : Path :=
  match p.fileName? with
  | none => p
  | some file =>
    let c := p.cut
    let renamed := (splitExtension file.toList).1 ++ '.' :: extension.toList
    ofChars (Cut.text ⟨c.front, (trimSegments c.segments).dropLast ++ [renamed]⟩)

/-- The path with another extension. The one it has is first cut off the end of the spelling, so
    that `..js` becomes `..`, which is no file name and stays. -/
def withExtension (p : Path) (extension : String) : Path :=
  match p.extension? with
  | none => p.renameExtension extension
  | some own => (ofChars (p.chars.take (p.chars.length - own.length))).renameExtension extension

end Path

end BlastRadius
