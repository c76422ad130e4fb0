namespace BlastRadius.Text

/-!
# Blanks, pieces and words

White space is the Unicode property `White_Space`, which has twenty-five members.

* `isBlank` — membership in that property.
* `trimStart`, `trimEnd`, `trim` — a text without its outer blanks.
* `trim_between`, `exists_trim` — what trimming leaves of a text.
* `pieces` — a text cut at every separator, empty pieces included.
* `words` — the maximal blank-free pieces of a text.
* `stripPrefix?` — what follows a given beginning.
-/

/-- The characters with the Unicode property `White_Space`. -/
def isBlank (c : Char) : Bool :=
  let n := c.toNat
  (0x09 ≤ n && n ≤ 0x0d) || n == 0x20 || n == 0x85 || n == 0xa0 || n == 0x1680
    || (0x2000 ≤ n && n ≤ 0x200a) || n == 0x2028 || n == 0x2029 || n == 0x202f
    || n == 0x205f || n == 0x3000

/-- A text without its leading blanks. -/
def trimStart (s : List Char) : List Char :=
  s.dropWhile isBlank

/-- A text without its trailing blanks. -/
def trimEnd (s : List Char) : List Char :=
  (s.reverse.dropWhile isBlank).reverse

/-- A text without its leading and trailing blanks. -/
def trim (s : List Char) : List Char :=
  trimEnd (trimStart s)

/-- Behind the characters of a class that it begins with, a text does not begin with one. -/
theorem head?_dropWhile_any (accepts : Char → Bool) (s : List Char) :
    (s.dropWhile accepts).head?.any accepts = false := by
  have h := List.head?_dropWhile_not accepts s
  cases hhead : (s.dropWhile accepts).head? with
  | none => rfl
  | some c =>
    rw [hhead] at h
    exact h

/-- A text is cut where the characters of a class in front of it end. -/
theorem span_append {accepts : Char → Bool} {front rest : List Char}
    (hfront : ∀ c ∈ front, accepts c = true) (hrest : rest.head?.any accepts = false) :
    (front ++ rest).takeWhile accepts = front ∧ (front ++ rest).dropWhile accepts = rest := by
  rw [List.takeWhile_append_of_pos hfront, List.dropWhile_append_of_pos hfront]
  cases rest with
  | nil => simp
  | cons c rest =>
    have hc : ¬accepts c = true := by simpa using hrest
    rw [List.takeWhile_cons_of_neg hc, List.dropWhile_cons_of_neg hc, List.append_nil]
    exact ⟨rfl, rfl⟩

/-- A text between blanks that neither starts nor ends with one. -/
theorem trim_between {front s back : List Char} (hfront : ∀ c ∈ front, isBlank c = true)
    (hback : ∀ c ∈ back, isBlank c = true) (hne : s ≠ []) (hhead : s.head?.any isBlank = false)
    (hlast : s.getLast?.any isBlank = false) : trim (front ++ (s ++ back)) = s := by
  have hstart : (s ++ back).head?.any isBlank = false := by
    obtain ⟨c, s, rfl⟩ := List.exists_cons_of_ne_nil hne
    exact hhead
  have hend : s.reverse.head?.any isBlank = false := by
    rw [List.head?_reverse]
    exact hlast
  rw [trim, trimStart, (span_append hfront hstart).2, trimEnd, List.reverse_append,
    (span_append (by simpa using hback) hend).2, List.reverse_reverse]

/-- Trimming takes off the blanks in front of a text that neither begins nor ends with one. -/
theorem trim_behind {front s : List Char} (hfront : ∀ c ∈ front, isBlank c = true) (hne : s ≠ [])
    (hhead : s.head?.any isBlank = false) (hlast : s.getLast?.any isBlank = false) :
    trim (front ++ s) = s := by
  have hnone : ∀ c ∈ ([] : List Char), isBlank c = true := by simp
  simpa using trim_between hfront hnone hne hhead hlast

/-- A text is what trimming leaves of it, between blanks. -/
theorem exists_trim (s : List Char) :
    ∃ front back, s = front ++ (trim s ++ back) ∧ (∀ c ∈ front, isBlank c = true) ∧
      (∀ c ∈ back, isBlank c = true) ∧ (trim s).getLast?.any isBlank = false := by
  have hstart : s = s.takeWhile isBlank ++ trimStart s := List.takeWhile_append_dropWhile.symm
  have hend : trimStart s = trim s ++ ((trimStart s).reverse.takeWhile isBlank).reverse := by
    rw [trim, trimEnd, ← List.reverse_append, List.takeWhile_append_dropWhile, List.reverse_reverse]
  refine ⟨s.takeWhile isBlank, ((trimStart s).reverse.takeWhile isBlank).reverse, ?_, ?_, ?_, ?_⟩
  · rw [← hend, ← hstart]
  · exact List.all_eq_true.1 List.all_takeWhile
  · intro c hc
    exact List.all_eq_true.1 List.all_takeWhile c (List.mem_reverse.1 hc)
  · rw [trim, trimEnd, List.getLast?_reverse]
    exact head?_dropWhile_any isBlank _

/-- The pieces between the separators of a text, in order and with the empty ones. -/
def pieces (isSeparator : Char → Bool) : List Char → List (List Char)
  | [] => [[]]
  | c :: s =>
    if isSeparator c then [] :: pieces isSeparator s
    else
      match pieces isSeparator s with
      | [] => [[c]]
      | piece :: more => (c :: piece) :: more

/-- There is always at least one piece. -/
theorem pieces_ne_nil (isSeparator : Char → Bool) (s : List Char) : pieces isSeparator s ≠ [] := by
  cases s with
  | nil => simp [pieces]
  | cons c s =>
    rw [pieces]
    split
    · simp
    · split <;> simp

/-- The maximal blank-free pieces of a text, in order. -/
def words (s : List Char) : List (List Char) :=
  (pieces isBlank s).filter (!·.isEmpty)

/-- What follows `front` in a text that begins with it. -/
def stripPrefix? : (front s : List Char) → Option (List Char)
  | [], s => some s
  | _ :: _, [] => none
  | a :: front, c :: s => if a = c then stripPrefix? front s else none

/-- Stripping succeeds exactly on the texts that begin with `front`. -/
theorem stripPrefix?_eq_some_iff {front s rest : List Char} :
    stripPrefix? front s = some rest ↔ s = front ++ rest := by
  induction front generalizing s with
  | nil => simp [stripPrefix?]
  | cons a front ih =>
    cases s with
    | nil => simp [stripPrefix?]
    | cons c s =>
      rw [stripPrefix?]
      split
      · next h => simp [ih, h]
      · next h => simp [Ne.symm h]

/-- Whether `needle` occurs in a text. -/
def containsText (needle : List Char) : List Char → Bool
  | [] => needle.isEmpty
  | c :: s => (stripPrefix? needle (c :: s)).isSome || containsText needle s

end BlastRadius.Text
