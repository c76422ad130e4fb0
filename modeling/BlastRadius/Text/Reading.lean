import BlastRadius.Text.Blank
import BlastRadius.Text.Word

namespace BlastRadius.Text

/-!
# Readings of a text

A pattern may read a text in several ways. A `Reading` lists them all, the preferred one first, so
that the order of alternatives decides between two ways to read the same text.

* `Reading` — what a pattern yields and leaves, for every way it reads a beginning of a text.
* `name`, `blanks`, `optional`, `oneOf` — the building blocks.
* `atWordStarts` — the non-overlapping places where a pattern reads something, from left to right.
-/

/-- All the ways in which a pattern reads a beginning of a text, the preferred one first: what it
    yields, and the text that is left. -/
def Reading (α : Type) : Type :=
  List Char → List (α × List Char)

namespace Reading

variable {α β : Type}

/-- One reading after another: each reading of the first part is gone on from, in order of
    preference. -/
instance : Monad Reading where
  pure a := fun s => [(a, s)]
  bind p f := fun s => (p s).flatMap fun ar => f ar.1 ar.2

/-- The preferred reading. -/
def first? (p : Reading α) (s : List Char) : Option (α × List Char) :=
  (p s).head?

/-- Any one character of a class. -/
def one (accepts : Char → Bool) : Reading Char
  | [] => []
  | c :: s => if accepts c then [(c, s)] else []

/-- The given text. -/
def text (t : String) : Reading Unit := fun s =>
  match stripPrefix? t.toList s with
  | some rest => [((), rest)]
  | none => []

/-- The texts that are left behind characters of a class, the shortest first and then those in
    `longer`. -/
def rests (accepts : Char → Bool) (longer : List (List Char)) : List Char → List (List Char)
  | [] => [] :: longer
  | c :: s => if accepts c then rests accepts ((c :: s) :: longer) s else (c :: s) :: longer

/-- As many characters of a class as there are, or fewer: the longest choice is preferred. -/
def many (accepts : Char → Bool) : Reading Unit := fun s =>
  (rests accepts [] s).map fun rest => ((), rest)

/-- All the characters of a class that come next. -/
def all (accepts : Char → Bool) : Reading (List Char) := fun s =>
  [(s.takeWhile accepts, s.dropWhile accepts)]

/-- All the blanks that come next. What is read after them never starts with a blank, so fewer
    blanks would not help. -/
def blanks : Reading Unit := fun s =>
  [((), s.dropWhile isBlank)]

/-- All the blanks that come next, at least one. -/
def blanks1 : Reading Unit := fun s =>
  match s with
  | [] => []
  | c :: s => if isBlank c then [((), s.dropWhile isBlank)] else []

/-- `p` if it reads anything, else nothing. -/
def optional (p : Reading α) : Reading (Option α) := fun s =>
  ((p s).map fun ar => (some ar.1, ar.2)) ++ [(none, s)]

/-- The first of the given patterns, or else the next, and so on. -/
def oneOf (ps : List (Reading α)) : Reading α := fun s =>
  ps.flatMap fun p => p s

/-- Reads nothing and yields the text that comes next. -/
def ahead : Reading (List Char) := fun s =>
  [(s, s)]

/-- Reads nothing, where no word character comes next. -/
def wordEnd : Reading Unit := fun s =>
  match s with
  | [] => [((), s)]
  | c :: _ => if isWord c then [] else [((), s)]

/-- A piece of a text, given by the text from its first character on and the text behind it. -/
structure Piece where
  start : List Char
  rest : List Char

/-- The characters of a piece. -/
def Piece.chars (p : Piece) : List Char :=
  p.start.take (p.start.length - p.rest.length)

/-- A script name: the longest is preferred, and a shorter one is possible. -/
def name : Reading Piece := do
  let start ← ahead
  let _ ← one isNameStart
  many isNameChar
  let rest ← ahead
  return ⟨start, rest⟩

/-- A script name in full, for where nothing is read after it. -/
def wholeName : Reading (List Char) := do
  let c ← one isNameStart
  let cs ← all isNameChar
  return c :: cs

/-- A quotation mark from `marks`, yielding the text that it starts. -/
def quote (marks : List Char) : Reading (List Char) := do
  let here ← ahead
  let _ ← one marks.contains
  return here

/-- Text in braces, yielding what stands between them. -/
def braced : Reading (List Char) := do
  text "\x7b"
  let body ← all (· != '\x7d')
  text "\x7d"
  return body

/-- The places in a text where `p` reads something from the start of a word on, from left to right
    and without overlap: the text from there on, and what `p` yields. The character before the text
    is `before`, and the first `skip` characters belong to the last place found. -/
def atWordStartsFrom (p : Reading α) (before : Option Char) (skip : Nat) :
    List Char → List (List Char × α)
  | [] => []
  | c :: s =>
    match skip with
    | skip + 1 => atWordStartsFrom p (some c) skip s
    | 0 =>
      if before.any isWord then atWordStartsFrom p (some c) 0 s
      else
        match p.first? (c :: s) with
        | none => atWordStartsFrom p (some c) 0 s
        | some (a, rest) => (c :: s, a) :: atWordStartsFrom p (some c) (s.length - rest.length) s

/-- The places in a text where `p` reads something from the start of a word on, from left to right
    and without overlap. -/
def atWordStarts (p : Reading α) (s : List Char) : List (List Char × α) :=
  atWordStartsFrom p none 0 s

end Reading

end BlastRadius.Text
