import BlastRadius.Proofs.Utf8
import BlastRadius.Source.Position

namespace BlastRadius.Source

/-!
# Lines are counted

The line of an offset is looked up in the table of the places where lines start, by halving the
table. It comes to the same as counting the newlines in front of the offset, also at the start of a
line, at its end and behind the text.

* `lt_passed_locateBetween`, `passed_locate` — what is looked up in an ascending table, by induction
  on the halving.
* `ascending_lineStarts`, `countP_startsFrom` — the table of the starts of lines.
* `lineOf_eq` — lines are counted; `lineOf_mono`, `one_le_lineOf`, `lineOf_le_lineCount` — what
  follows from it.
-/

open Text

/-! ### Looking a number up -/

section
variable {table : Array Nat} {x low high : Nat}

/-- The number of entries that are passed tells the entries that are not greater from those that
    are. -/
theorem lt_passed_locateBetween (hascending : table.toList.Pairwise (· < ·))
    (hhigh : high ≤ table.size) (hle : low ≤ high)
    (hbelow : ∀ i (h : i < table.size), i < low → table[i] < x)
    (habove : ∀ i (h : i < table.size), high ≤ i → x < table[i]) :
    (locateBetween table x low high hhigh).passed ≤ table.size ∧
      ∀ i (h : i < table.size), i < (locateBetween table x low high hhigh).passed ↔
        table[i] ≤ x := by
  have hlt : ∀ i j (hi : i < table.size) (hj : j < table.size), i < j → table[i] < table[j] := by
    intro i j hi hj hij
    exact List.pairwise_iff_getElem.1 hascending i j hi hj hij
  fun_induction locateBetween table x low high hhigh with
  -- The entry in the middle is too small, so are all before it.
  | case1 low high hhigh hlow mid hmid ih =>
    refine ih (by omega) (fun i h hi => ?_) habove
    rcases Nat.lt_or_eq_of_le (Nat.le_of_lt_succ hi) with hi | rfl
    · exact Nat.lt_trans (hlt i mid h (by omega) hi) hmid
    · exact hmid
  -- The entry in the middle is too large, so are all behind it.
  | case2 low high hhigh hlow mid _ hmid ih =>
    refine ih (by omega) hbelow (fun i h hi => ?_)
    rcases Nat.lt_or_eq_of_le hi with hi | rfl
    · exact Nat.lt_trans hmid (hlt mid i (by omega) h hi)
    · exact hmid
  | case3 low high hhigh hlow mid hless hgreater =>
    have hmid : table[mid] = x := by omega
    refine ⟨by simp only [Slot.passed]; omega, fun i h => ?_⟩
    rw [Slot.passed, ← hmid]
    rcases Nat.lt_trichotomy i mid with hi | rfl | hi
    · have := hlt i mid h (by omega) hi
      omega
    · omega
    · have := hlt mid i (by omega) h hi
      omega
  | case4 low high hhigh hlow =>
    refine ⟨by simp only [Slot.passed]; omega, fun i h => ?_⟩
    rw [Slot.passed]
    refine ⟨fun hi => Nat.le_of_lt (hbelow i h hi), fun hi => ?_⟩
    by_contra hge
    have := habove i h (by omega)
    omega

/-- All the entries up to a number, and only these, are passed. -/
theorem passed_locate (hascending : table.toList.Pairwise (· < ·)) (x : Nat) :
    (locate table x).passed = table.toList.countP (· ≤ x) := by
  obtain ⟨hsize, hpassed⟩ :=
    lt_passed_locateBetween (x := x) hascending (Nat.le_refl table.size) (Nat.zero_le _)
    (fun _ _ h => absurd h (Nat.not_lt_zero _)) (fun _ h hi => absurd h (Nat.not_lt.2 hi))
  generalize hn : (locateBetween table x 0 table.size (Nat.le_refl _)).passed = n at hsize hpassed
  -- The passed entries are at most `x`, all others are larger.
  have hfront : (table.toList.take n).countP (· ≤ x) = n := by
    rw [List.countP_eq_length.2, List.length_take, Array.length_toList, Nat.min_eq_left hsize]
    intro entry hentry
    obtain ⟨i, hi, rfl⟩ := List.mem_take_iff_getElem.1 hentry
    simpa using (hpassed i (by simp at hi; omega)).1 (by omega)
  have hrest : (table.toList.drop n).countP (· ≤ x) = 0 := by
    rw [List.countP_eq_zero]
    intro entry hentry
    obtain ⟨i, hi, rfl⟩ := List.mem_drop_iff_getElem.1 hentry
    have hlater := (hpassed (i + n) (by simpa using hi)).not.1 (by omega)
    simpa [Nat.add_comm] using hlater
  rw [locate, hn, ← List.take_append_drop n table.toList, List.countP_append, hfront, hrest,
    Nat.add_zero]

end

/-! ### The starts of lines -/

/-- The starts behind an offset, in ascending order. -/
theorem ascending_startsFrom (offset : Nat) (bytes : List UInt8) :
    (∀ start ∈ startsFrom offset bytes, offset < start) ∧
    (startsFrom offset bytes).Pairwise (· < ·) := by
  fun_induction startsFrom offset bytes with
  | case1 => simp
  | case2 offset bytes ih =>
    obtain ⟨hlater, hascending⟩ := ih
    refine ⟨?_, List.pairwise_cons.2 ⟨hlater, hascending⟩⟩
    rw [List.forall_mem_cons]
    exact ⟨Nat.lt_succ_self offset, fun start h => Nat.lt_of_succ_lt (hlater start h)⟩
  | case3 offset b bytes _ ih =>
    exact ⟨fun start h => Nat.lt_of_succ_lt (ih.1 start h), ih.2⟩

/-- The table of line starts increases. -/
theorem ascending_lineStarts (source : List Char) : (lineStarts source).toList.Pairwise (· < ·) :=
  List.pairwise_cons.2 (ascending_startsFrom 0 (utf8 source))

/-- There are as many line starts up to an offset as line breaks in front of it. -/
theorem countP_startsFrom (offset x : Nat) (bytes : List UInt8) :
    (startsFrom offset bytes).countP (· ≤ x) = (bytes.take (x - offset)).count newline := by
  induction bytes generalizing offset with
  | nil => simp [startsFrom]
  | cons b bytes ih =>
    rw [startsFrom]
    -- A line break at `offset` starts a line at `offset + 1`.
    rcases Nat.lt_or_ge offset x with hx | hx
    · obtain ⟨n, rfl⟩ : ∃ n, x = offset + 1 + n := ⟨x - (offset + 1), by omega⟩
      have hn : offset + 1 + n - offset = n + 1 := by omega
      have hrest := ih (offset + 1)
      rw [Nat.add_sub_cancel_left] at hrest
      rw [hn, List.take_succ_cons, List.count_cons, ← hrest]
      split
      · next hb => simp [hb]
      · next hb => simp [hb]
    · have hrest := ih (offset + 1)
      rw [Nat.sub_eq_zero_of_le hx, List.take_zero, List.count_nil]
      rw [Nat.sub_eq_zero_of_le (by omega), List.take_zero, List.count_nil] at hrest
      split
      · next hb =>
        rw [List.countP_cons_of_neg (by simp; omega), hrest]
      · exact hrest

/-- The line of an offset is one more than the newlines in front of it. -/
theorem lineOf_eq (source : List Char) (offset : Nat) :
    lineOf source offset = 1 + ((utf8 source).take offset).count newline := by
  rw [lineOf, passed_locate (ascending_lineStarts source), lineStarts,
    List.countP_cons_of_pos (by simp), countP_startsFrom, Nat.sub_zero, Nat.add_comm]

/-- Lines are counted from one. -/
theorem one_le_lineOf (source : List Char) (offset : Nat) : 1 ≤ lineOf source offset := by
  rw [lineOf_eq]
  exact Nat.le_add_right 1 _

/-- A later offset is on no earlier line. -/
theorem lineOf_mono (source : List Char) {offset later : Nat} (h : offset ≤ later) :
    lineOf source offset ≤ lineOf source later := by
  rw [lineOf_eq, lineOf_eq]
  exact Nat.add_le_add_left ((List.take_sublist_take_left h).count_le newline) 1

/-- The newlines of a text are single bytes. -/
theorem count_newline_utf8 (s : List Char) : (utf8 s).count newline = s.count '\n' := by
  induction s with
  | nil => rfl
  | cons c s ih =>
    rw [utf8_cons, List.count_append, ih, List.count_cons, Nat.add_comm]
    congr 1
    split
    · next hc => rw [beq_iff_eq.1 hc]; rfl
    · next hc =>
      rw [List.count_eq_zero]
      intro hmem
      exact hc (by rw [eq_of_mem_utf8EncodeChar hmem (by decide)]; rfl)

/-- No offset is behind the last line. -/
theorem lineOf_le_lineCount (source : List Char) (offset : Nat) :
    lineOf source offset ≤ lineCount source := by
  rw [lineOf_eq, lineCount, ← count_newline_utf8]
  exact Nat.add_le_add_left ((List.take_sublist offset _).count_le newline) 1

end BlastRadius.Source
