import BlastRadius.Path.Basic

namespace BlastRadius

/-!
# Changes of files

* `Change` — what happened to a file.
* `Change.parse` — a change from a line of text, a kind and a path.
-/

open Text

/-- What can happen to a file. -/
inductive ChangeKind where
  | created
  | modified
  | deleted
deriving DecidableEq, Repr

/-- What happened to a file. -/
structure Change where
  kind : ChangeKind
  path : Path
deriving DecidableEq

/-- Why a line is no change. -/
inductive ChangeError where
  /-- There are no two words. -/
  | incomplete (line : String)
  /-- The first word is no kind. -/
  | unknownKind (word : String)
deriving DecidableEq, Repr

/-- The message for a line that is no change. -/
def ChangeError.message : ChangeError → String
  | .incomplete line => "Expected '<kind> <path>', got '" ++ line ++ "'"
  | .unknownKind word => "Unknown change kind '" ++ word ++ "'"

/-- The kinds and the words for them. -/
def ChangeKind.words : List (ChangeKind × List String) := [
  (.created, ["created", "create", "add"]),
  (.modified, ["modified", "modify", "change"]),
  (.deleted, ["deleted", "delete", "remove", "unlink"])]

/-- The kind that a word stands for. -/
def ChangeKind.ofWord? (word : String) : Option ChangeKind :=
  (words.find? fun entry => entry.2.contains word).map (·.1)

/-- A change from a line: the word for a kind, blanks, and a path. Blanks around the line do not
    count. -/
def Change.parse (line : List Char) : Except ChangeError Change :=
  let line := trim line
  let word := String.ofList (line.takeWhile (!isBlank ·))
  match line.dropWhile (!isBlank ·) with
  | [] => .error (.incomplete (String.ofList line))
  | _ :: rest =>
    match ChangeKind.ofWord? word with
    | some kind => .ok ⟨kind, Path.ofChars (trim rest)⟩
    | none => .error (.unknownKind word)

end BlastRadius
