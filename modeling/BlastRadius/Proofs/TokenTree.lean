import BlastRadius.Json.Tree
import Mathlib.Data.List.Chain
import Mathlib.Tactic.Common

namespace BlastRadius.Json

/-!
# Trees and their tokens

Two things about reading a tree from tokens: it is blind to the texts of strings, and no comma in
front of a closing bracket gets through.

* `Token.mapText`, `Tree.mapText` — other texts for the strings of a token and of a tree.
* `Blind`, `blind` — reading tokens with other texts gives the tree with other texts.
* `isSome_value?_mapText` — a tree with other texts has a value if the tree has one.
* `Row`, `readsRows` — tokens that are read as a tree have no comma in front of a closing bracket.
-/

/-! ### Other texts -/

/-- A token with a function applied to the text of a string. -/
def Token.mapText (f : String → String) : Token → Token
  | .str value => .str (value.map f)
  | token => token

mutual
/-- A tree with a function applied to the texts of all strings. -/
def Tree.mapText (f : String → String) : Tree → Tree
  | .null => .null
  | .bool value => .bool value
  | .num value => .num value
  | .str value => .str (value.map f)
  | .arr items => .arr (Tree.mapItems f items)
  | .obj fields => .obj (Tree.mapFields f fields)

/-- The items of an array with a function applied to the texts of all strings. -/
def Tree.mapItems (f : String → String) : List Tree → List Tree
  | [] => []
  | item :: items => item.mapText f :: Tree.mapItems f items

/-- The fields of an object with a function applied to the texts of all strings. -/
def Tree.mapFields (f : String → String) : List (Option String × Tree) → List (Option String × Tree)
  | [] => []
  | (key, value) :: fields => (key.map f, value.mapText f) :: Tree.mapFields f fields
end

section
variable {fuel : Nat} {tokens rest : List Token}

/-- An array that is not empty is read item by item. -/
theorem treeWithin?_items (h : ∀ more, rest ≠ .closeBracket :: more) :
    treeWithin? (fuel + 1) (.openBracket :: rest)
      = (itemsWithin? fuel rest).map fun found => (.arr found.1, found.2) := by
  rw [treeWithin?]
  · cases itemsWithin? fuel rest <;> rfl
  · exact h

/-- An object that is not empty is read field by field. -/
theorem treeWithin?_fields (h : ∀ more, rest ≠ .closeBrace :: more) :
    treeWithin? (fuel + 1) (.openBrace :: rest)
      = (fieldsWithin? fuel rest).map fun found => (.obj found.1, found.2) := by
  rw [treeWithin?]
  · cases fieldsWithin? fuel rest <;> rfl
  · exact h

/-- A comma is followed by further items. -/
theorem itemsWithin?_comma {item : Tree}
    (h : treeWithin? fuel tokens = some (item, .comma :: rest)) :
    itemsWithin? (fuel + 1) tokens
      = (itemsWithin? fuel rest).map fun found => (item :: found.1, found.2) := by
  rw [itemsWithin?, h]
  simp only [Option.bind_eq_bind, Option.bind_some]
  cases itemsWithin? fuel rest <;> rfl

/-- A comma is followed by further fields. -/
theorem fieldsWithin?_comma {key : Option String} {value : Tree}
    (h : treeWithin? fuel tokens = some (value, .comma :: rest)) :
    fieldsWithin? (fuel + 1) (.str key :: .colon :: tokens)
      = (fieldsWithin? fuel rest).map fun found => ((key, value) :: found.1, found.2) := by
  rw [fieldsWithin?, h]
  simp only [Option.bind_eq_bind, Option.bind_some]
  cases fieldsWithin? fuel rest <;> rfl

end

/-- Only strings are mapped. -/
theorem Token.mapText_eq {f : String → String} {token token' : Token} (h : token.mapText f = token')
    (htext : ∀ value, token' ≠ .str value) : token = token' := by
  cases token with
  | str value => exact absurd h.symm (htext _)
  | _ => exact h

/-- Mapping texts makes no other token. -/
theorem map_ne_cons {f : String → String} {token : Token} (htext : ∀ value, token ≠ .str value)
    {rest : List Token} (h : ∀ more, rest ≠ token :: more) (more : List Token) :
    rest.map (Token.mapText f) ≠ token :: more := by
  intro heq
  obtain ⟨first, rest', rfl, hfirst, -⟩ := List.map_eq_cons_iff.1 heq
  exact h rest' (by rw [Token.mapText_eq hfirst htext])

/-- Reading with some fuel is blind to the texts of strings: with other texts it gives the same with
    other texts. -/
structure Blind (f : String → String) (fuel : Nat) : Prop where
  tree : ∀ tokens, treeWithin? fuel (tokens.map (Token.mapText f))
    = (treeWithin? fuel tokens).map fun found => (found.1.mapText f, found.2.map (Token.mapText f))
  items : ∀ tokens, itemsWithin? fuel (tokens.map (Token.mapText f))
    = (itemsWithin? fuel tokens).map fun found =>
      (Tree.mapItems f found.1, found.2.map (Token.mapText f))
  fields : ∀ tokens, fieldsWithin? fuel (tokens.map (Token.mapText f))
    = (fieldsWithin? fuel tokens).map fun found =>
      (Tree.mapFields f found.1, found.2.map (Token.mapText f))

section
variable {f : String → String} {fuel : Nat}

/-- Reading a tree is blind for texts with one more unit of fuel. -/
theorem Blind.tree_succ (h : Blind f fuel) (tokens : List Token) :
    treeWithin? (fuel + 1) (tokens.map (Token.mapText f))
      = (treeWithin? (fuel + 1) tokens).map fun found =>
        (found.1.mapText f, found.2.map (Token.mapText f)) := by
  cases tokens with
  | nil => rfl
  | cons token rest =>
    cases token with
    | null | bool _ | num _ | str _ | colon | comma | closeBrace | closeBracket => rfl
    | openBracket =>
      -- A bracket may close at once. If not, its inside is read with less fuel, also with other
      -- texts.
      by_cases hclosed : ∃ more, rest = .closeBracket :: more
      · obtain ⟨more, rfl⟩ := hclosed
        rfl
      · have hopen : ∀ more, rest ≠ .closeBracket :: more := not_exists.1 hclosed
        show treeWithin? (fuel + 1) (.openBracket :: rest.map (Token.mapText f)) = _
        rw [treeWithin?_items hopen, treeWithin?_items (map_ne_cons (by simp) hopen), h.items]
        cases itemsWithin? fuel rest <;> rfl
    | openBrace =>
      by_cases hclosed : ∃ more, rest = .closeBrace :: more
      · obtain ⟨more, rfl⟩ := hclosed
        rfl
      · have hopen : ∀ more, rest ≠ .closeBrace :: more := not_exists.1 hclosed
        show treeWithin? (fuel + 1) (.openBrace :: rest.map (Token.mapText f)) = _
        rw [treeWithin?_fields hopen, treeWithin?_fields (map_ne_cons (by simp) hopen), h.fields]
        cases fieldsWithin? fuel rest <;> rfl

/-- So is reading items. -/
theorem Blind.items_succ (h : Blind f fuel) (tokens : List Token) :
    itemsWithin? (fuel + 1) (tokens.map (Token.mapText f))
      = (itemsWithin? (fuel + 1) tokens).map fun found =>
        (Tree.mapItems f found.1, found.2.map (Token.mapText f)) := by
  have hread := h.tree tokens
  rcases htree : treeWithin? fuel tokens with _ | ⟨item, _ | ⟨token, rest⟩⟩
  · rw [itemsWithin?, itemsWithin?, hread, htree]
    rfl
  · rw [itemsWithin?, itemsWithin?, hread, htree]
    rfl
  cases token with
  | comma =>
    -- Only behind a comma is more to read.
    rw [htree] at hread
    rw [itemsWithin?_comma htree, itemsWithin?_comma hread, h.items]
    cases itemsWithin? fuel rest <;> rfl
  | _ =>
    rw [itemsWithin?, itemsWithin?, hread, htree]
    rfl

/-- So is reading fields. -/
theorem Blind.fields_succ (h : Blind f fuel) (tokens : List Token) :
    fieldsWithin? (fuel + 1) (tokens.map (Token.mapText f))
      = (fieldsWithin? (fuel + 1) tokens).map fun found =>
        (Tree.mapFields f found.1, found.2.map (Token.mapText f)) := by
  rcases tokens with _ | ⟨first, _ | ⟨second, rest⟩⟩
  · rfl
  · cases first <;> rfl
  cases first with
  | str key =>
    cases second with
    | colon =>
      show fieldsWithin? (fuel + 1) (.str (key.map f) :: .colon :: rest.map (Token.mapText f)) = _
      have hread := h.tree rest
      -- What follows the value decides: nothing, a comma, or some other token.
      rcases htree : treeWithin? fuel rest with _ | ⟨value, _ | ⟨token, more⟩⟩
      · rw [fieldsWithin?, fieldsWithin?, hread, htree]
        rfl
      · rw [fieldsWithin?, fieldsWithin?, hread, htree]
        rfl
      cases token with
      | comma =>
        rw [htree] at hread
        rw [fieldsWithin?_comma htree, fieldsWithin?_comma hread, h.fields]
        cases fieldsWithin? fuel more <;> rfl
      | _ =>
        rw [fieldsWithin?, fieldsWithin?, hread, htree]
        rfl
    | _ => rfl
  | _ => rfl

/-- Reading is blind for texts, with any fuel. -/
theorem blind (f : String → String) (fuel : Nat) : Blind f fuel := by
  induction fuel with
  | zero => exact ⟨fun _ => rfl, fun _ => rfl, fun _ => rfl⟩
  | succ fuel ih => exact ⟨ih.tree_succ, ih.items_succ, ih.fields_succ⟩

end

/-- Items have values if the first one and the others have. -/
theorem isSome_values?_cons (limit : Nat) (item : Tree) (items : List Tree) :
    (Tree.values? limit (item :: items)).isSome
      = ((item.value? limit).isSome && (Tree.values? limit items).isSome) := by
  rw [Tree.values?]
  cases item.value? limit <;> cases Tree.values? limit items <;> rfl

/-- Fields have values if the first one, with its name, and the others have. -/
theorem isSome_fieldValues?_cons (limit : Nat) (key : Option String) (value : Tree)
    (fields : List (Option String × Tree)) :
    (Tree.fieldValues? limit ((key, value) :: fields)).isSome
      = (key.isSome && ((value.value? limit).isSome
        && (Tree.fieldValues? limit fields).isSome)) := by
  rw [Tree.fieldValues?]
  cases key <;> cases value.value? limit <;> cases Tree.fieldValues? limit fields <;> rfl

mutual
/-- Whether a tree has a value does not depend on the texts of its strings. -/
theorem isSome_value?_mapText (f : String → String) (limit : Nat) :
    (t : Tree) → ((t.mapText f).value? limit).isSome = (t.value? limit).isSome
  | .null => rfl
  | .bool _ => rfl
  | .num _ => rfl
  | .str value => by cases value <;> rfl
  -- Depth limits of zero and one allow no items at all.
  | .arr items => by
    match limit with
    | 0 | 1 => rfl
    | limit + 2 =>
      rw [Tree.mapText, Tree.value?, Tree.value?, Option.isSome_map, Option.isSome_map]
      exact isSome_values?_mapItems f (limit + 1) items
  | .obj fields => by
    match limit with
    | 0 | 1 => rfl
    | limit + 2 =>
      rw [Tree.mapText, Tree.value?, Tree.value?, Option.isSome_map, Option.isSome_map]
      exact isSome_fieldValues?_mapFields f (limit + 1) fields

/-- Whether items have values does not hang on texts. -/
theorem isSome_values?_mapItems (f : String → String) (limit : Nat) :
    (items : List Tree) →
      (Tree.values? limit (Tree.mapItems f items)).isSome = (Tree.values? limit items).isSome
  | [] => rfl
  | item :: items => by
    rw [Tree.mapItems, isSome_values?_cons, isSome_values?_cons, isSome_value?_mapText f limit item,
      isSome_values?_mapItems f limit items]

/-- Neither does it for fields. -/
theorem isSome_fieldValues?_mapFields (f : String → String) (limit : Nat) :
    (fields : List (Option String × Tree)) →
      (Tree.fieldValues? limit (Tree.mapFields f fields)).isSome
        = (Tree.fieldValues? limit fields).isSome
  | [] => rfl
  | (key, value) :: fields => by
    rw [Tree.mapFields, isSome_fieldValues?_cons, isSome_fieldValues?_cons, Option.isSome_map,
      isSome_value?_mapText f limit value, isSome_fieldValues?_mapFields f limit fields]
end

/-! ### Rows -/

/-- Whether a token closes what a bracket opened. -/
def Token.closes : Token → Bool
  | .closeBrace => true
  | .closeBracket => true
  | _ => false

/-- A comma does not stand before a closing bracket. -/
def Token.Fits (token next : Token) : Prop :=
  token = .comma → next.closes = false

/-- Tokens that can stand for a tree, or for the inside of a bracket with what closes it: no comma
    stands before a closing bracket, none is the last, and no closing bracket is the first. -/
structure Row (tokens : List Token) : Prop where
  fits : tokens.IsChain Token.Fits
  starts : ∃ first rest, tokens = first :: rest ∧ first.closes = false
  ends : ∀ last ∈ tokens.getLast?, last ≠ .comma

section
variable {token : Token} {tokens front back rest : List Token} {fuel : Nat}

/-- A single value is a row. -/
theorem row_singleton (hcloses : token.closes = false) (hcomma : token ≠ .comma) : Row [token] where
  fits := List.isChain_singleton token
  starts := ⟨token, [], rfl, hcloses⟩
  ends := by
    rintro last ⟨⟩
    exact hcomma

/-- An opening token in front keeps a row. -/
theorem Row.cons (h : Row tokens) (hcloses : token.closes = false) (hcomma : token ≠ .comma) :
    Row (token :: tokens) := by
  obtain ⟨first, rest, rfl, hfirst⟩ := h.starts
  refine ⟨List.isChain_cons_cons.2 ⟨fun h => absurd h hcomma, h.fits⟩, ⟨token, _, rfl, hcloses⟩,
    fun last hlast => ?_⟩
  rw [List.getLast?_cons_cons] at hlast
  exact h.ends last hlast

/-- So does a closing one at the end. -/
theorem Row.close (h : Row tokens) (hcloses : token.closes = true) : Row (tokens ++ [token]) := by
  obtain ⟨first, rest, rfl, hfirst⟩ := h.starts
  refine ⟨List.isChain_append.2
    ⟨h.fits, List.isChain_singleton token, fun last hlast next hnext hcomma => ?_⟩,
    ⟨first, rest ++ [token], rfl, hfirst⟩, fun last hlast => ?_⟩
  · exact absurd hcomma (h.ends last hlast)
  · rw [List.getLast?_concat] at hlast
    cases hlast
    rintro rfl
    cases hcloses

/-- Two rows with a comma between them are a row. -/
theorem Row.comma (hfront : Row front) (hback : Row back) : Row (front ++ .comma :: back) := by
  obtain ⟨first, rest, rfl, hfirst⟩ := hfront.starts
  obtain ⟨next, more, rfl, hnext⟩ := hback.starts
  refine ⟨List.isChain_append.2
    ⟨hfront.fits, List.isChain_cons_cons.2 ⟨fun _ => hnext, hback.fits⟩, ?_⟩,
    ⟨first, _, rfl, hfirst⟩, fun last hlast => ?_⟩
  · rintro last hlast _ ⟨⟩ hcomma
    exact absurd hcomma (hfront.ends last hlast)
  · rw [List.getLast?_append_of_ne_nil _ (List.cons_ne_nil _ _), List.getLast?_cons_cons] at hlast
    exact hback.ends last hlast

/-- What is read of some tokens with some fuel are rows. -/
structure ReadsRows (fuel : Nat) : Prop where
  tree : ∀ {tokens found}, treeWithin? fuel tokens = some found →
    ∃ front, tokens = front ++ found.2 ∧ Row front
  items : ∀ {tokens found}, itemsWithin? fuel tokens = some found →
    ∃ front, tokens = front ++ found.2 ∧ Row front
  fields : ∀ {tokens found}, fieldsWithin? fuel tokens = some found →
    ∃ front, tokens = front ++ found.2 ∧ Row front

/-- A tree is read from a row with one more unit of fuel. -/
theorem ReadsRows.tree_succ (h : ReadsRows fuel) {found : Tree × List Token}
    (hfound : treeWithin? (fuel + 1) tokens = some found) :
    ∃ front, tokens = front ++ found.2 ∧ Row front := by
  cases tokens with
  | nil => cases hfound
  | cons token rest =>
    cases token with
    | null | bool _ | num _ | str _ =>
      cases hfound
      exact ⟨[_], rfl, row_singleton rfl (by simp)⟩
    | colon | comma | closeBrace | closeBracket => cases hfound
    | openBracket =>
      -- An empty array is closed at once.
      by_cases hclosed : ∃ more, rest = .closeBracket :: more
      · obtain ⟨more, rfl⟩ := hclosed
        cases hfound
        exact ⟨[.openBracket] ++ [.closeBracket], rfl, (row_singleton rfl (by simp)).close rfl⟩
      · rw [treeWithin?_items (not_exists.1 hclosed)] at hfound
        obtain ⟨items, hitems, rfl⟩ := Option.map_eq_some_iff.1 hfound
        obtain ⟨front, rfl, hfront⟩ := h.items hitems
        exact ⟨.openBracket :: front, rfl, hfront.cons rfl (by simp)⟩
    | openBrace =>
      by_cases hclosed : ∃ more, rest = .closeBrace :: more
      · obtain ⟨more, rfl⟩ := hclosed
        cases hfound
        exact ⟨[.openBrace] ++ [.closeBrace], rfl, (row_singleton rfl (by simp)).close rfl⟩
      · rw [treeWithin?_fields (not_exists.1 hclosed)] at hfound
        obtain ⟨fields, hfields, rfl⟩ := Option.map_eq_some_iff.1 hfound
        obtain ⟨front, rfl, hfront⟩ := h.fields hfields
        exact ⟨.openBrace :: front, rfl, hfront.cons rfl (by simp)⟩

/-- So are items. -/
theorem ReadsRows.items_succ (h : ReadsRows fuel) {found : List Tree × List Token}
    (hfound : itemsWithin? (fuel + 1) tokens = some found) :
    ∃ front, tokens = front ++ found.2 ∧ Row front := by
  rw [itemsWithin?] at hfound
  obtain ⟨⟨item, rest⟩, hitem, hmore⟩ := Option.bind_eq_some_iff.1 hfound
  obtain ⟨front, rfl, hfront⟩ := h.tree hitem
  -- Behind an item stands what closes the row, or a comma and another row.
  dsimp only at hmore ⊢
  split at hmore
  · cases hmore
    exact ⟨front ++ [.closeBracket], by simp, hfront.close rfl⟩
  · obtain ⟨⟨items, rest'⟩, hitems, hdone⟩ := Option.bind_eq_some_iff.1 hmore
    cases hdone
    obtain ⟨back, rfl, hback⟩ := h.items hitems
    exact ⟨front ++ .comma :: back, by simp, hfront.comma hback⟩
  · cases hmore

/-- So are fields. -/
theorem ReadsRows.fields_succ (h : ReadsRows fuel)
    {found : List (Option String × Tree) × List Token}
    (hfound : fieldsWithin? (fuel + 1) tokens = some found) :
    ∃ front, tokens = front ++ found.2 ∧ Row front := by
  unfold fieldsWithin? at hfound
  split at hfound
  · next key rest =>
    obtain ⟨⟨value, rest⟩, hvalue, hmore⟩ := Option.bind_eq_some_iff.1 hfound
    obtain ⟨front, rfl, hfront⟩ := h.tree hvalue
    -- A field is a row too, since a name and a colon open it.
    have hnamed : Row (.str key :: .colon :: front) :=
      (hfront.cons rfl (by simp)).cons rfl (by simp)
    dsimp only at hmore ⊢
    split at hmore
    · cases hmore
      exact ⟨.str key :: .colon :: front ++ [.closeBrace], by simp, hnamed.close rfl⟩
    · obtain ⟨⟨fields, rest'⟩, hfields, hdone⟩ := Option.bind_eq_some_iff.1 hmore
      cases hdone
      obtain ⟨back, rfl, hback⟩ := h.fields hfields
      exact ⟨.str key :: .colon :: front ++ .comma :: back, by simp, hnamed.comma hback⟩
    · cases hmore
  · cases hfound

/-- Whatever is read is read from a row, with any fuel. -/
theorem readsRows (fuel : Nat) : ReadsRows fuel := by
  induction fuel with
  | zero => exact ⟨nofun, nofun, nofun⟩
  | succ fuel ih => exact ⟨ih.tree_succ, ih.items_succ, ih.fields_succ⟩

end

end BlastRadius.Json
