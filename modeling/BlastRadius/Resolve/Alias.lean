import BlastRadius.Path.Basic

namespace BlastRadius.Resolve

/-!
# Alias tables

* `Alias` — a pattern for specifiers, and what it stands for.
* `AliasTable` — the directory that bare specifiers are seen from, and the aliases in order.
-/

/-- A pattern for specifiers, which may end in `*`, and the paths that it stands for in order of
    preference. The `*` of the paths is taken off. -/
structure Alias where
  pattern : String
  targets : List Path
deriving DecidableEq

/-- What a pattern asks of a specifier. -/
structure Pattern where
  /-- How the specifier has to begin. -/
  front : List Char
  /-- Whether the rest stands for a `*`. -/
  isWildcard : Bool
deriving DecidableEq, Repr

/-- The pattern of an alias. -/
def Alias.form (a : Alias) : Pattern :=
  match a.pattern.toList.reverse with
  | '*' :: front => ⟨front.reverse, true⟩
  | front => ⟨front.reverse, false⟩

/-- The directory that bare specifiers are seen from, and the aliases in order. -/
structure AliasTable where
  baseUrl : Path
  entries : List Alias
deriving DecidableEq

/-- The table without aliases. -/
def AliasTable.bare (root : Path) : AliasTable :=
  ⟨root, []⟩

end BlastRadius.Resolve
