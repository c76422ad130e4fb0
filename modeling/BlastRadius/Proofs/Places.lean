import BlastRadius.Proofs.Scan
import BlastRadius.Text.Utf8
import Mathlib.Data.List.Pairwise

namespace BlastRadius.Text

/-!
# The places of a scan

A scan finds a pattern at places further and further to the right, and tells them by their offsets.
Two patterns that begin with the same word are told apart by the first character behind it.

* `offsetOf_inj`, `offsetOf_lt` — offsets tell the final parts of a text apart, and grow from left
  to right.
* `Reading.pairwise_offsetOf_atWordStarts` — the places that a scan finds, from left to right.
* `Reading.Starts` — a pattern that only reads texts that begin with a character of some class.
* `Reading.eq_nil_or_eq_nil` — two patterns of which one at most reads a text.
-/

variable {s a b : List Char}

/-- The end of a text has no more bytes. -/
theorem byteSize_le_of_suffix (h : b <:+ a) : byteSize b ≤ byteSize a := by
  obtain ⟨front, rfl⟩ := h
  rw [byteSize_append]
  exact Nat.le_add_left _ _

/-- A shorter end has fewer bytes. -/
theorem byteSize_lt_of_suffix (h : b <:+ a) (hne : b ≠ a) : byteSize b < byteSize a := by
  obtain ⟨front, rfl⟩ := h
  cases front with
  | nil => exact absurd rfl hne
  | cons c front =>
    have hc := c.utf8Size_pos
    rw [List.cons_append, byteSize, byteSize_append]
    omega

/-- A shorter end has a larger offset. -/
theorem offsetOf_lt (ha : a <:+ s) (hb : b <:+ a) (hne : b ≠ a) : offsetOf s a < offsetOf s b := by
  have hle := byteSize_le_of_suffix ha
  have hlt := byteSize_lt_of_suffix hb hne
  unfold offsetOf
  omega

/-- No two final parts of a text start at one offset. -/
theorem offsetOf_inj (ha : a <:+ s) (hb : b <:+ s) (h : offsetOf s a = offsetOf s b) : a = b := by
  by_contra hne
  rcases List.suffix_or_suffix_of_suffix ha hb with hab | hba
  · exact absurd h.symm (Nat.ne_of_lt (offsetOf_lt hb hab hne))
  · exact absurd h (Nat.ne_of_lt (offsetOf_lt ha hba (Ne.symm hne)))

namespace Reading

variable {α β : Type}

/-! ### From left to right -/

/-- Each place that a scan finds lies behind all the earlier ones. -/
theorem pairwise_atWordStartsFrom (p : Reading α) (before : Option Char) (skip : Nat)
    (s : List Char) :
    (atWordStartsFrom p before skip s).Pairwise fun x y => y.1 <:+ x.1 ∧ y.1 ≠ x.1 := by
  fun_induction atWordStartsFrom p before skip s with
  | case1 => exact .nil
  | case2 _ _ _ _ ih => exact ih
  | case3 _ _ _ _ ih => exact ih
  | case4 _ _ _ _ _ ih => exact ih
  | case5 _ c s _ a rest _ ih =>
    refine List.pairwise_cons.2 ⟨fun y hy => ?_, ih⟩
    have hsuffix := (mem_atWordStartsFrom hy).1
    refine ⟨hsuffix.trans (List.suffix_cons c s), fun heq => ?_⟩
    have hlength := hsuffix.length_le
    rw [heq] at hlength
    exact absurd hlength (Nat.not_succ_le_self _)

/-- What is read at the starts of words is read from the front on. -/
theorem pairwise_offsetOf_atWordStarts (p : Reading α) (s : List Char) :
    (p.atWordStarts s).Pairwise fun x y => offsetOf s x.1 < offsetOf s y.1 :=
  (pairwise_atWordStartsFrom p none 0 s).imp_of_mem fun hx _ h =>
    offsetOf_lt (mem_atWordStarts hx).1 h.1 h.2

/-- What is made of the places that a scan finds, from left to right. -/
theorem pairwise_filterMap_atWordStarts {p : Reading α} {make : List Char × α → Option β}
    {offset : β → Nat} (hmake : ∀ x b, make x = some b → offset b = offsetOf s x.1) :
    ((p.atWordStarts s).filterMap make).Pairwise fun b c => offset b < offset c := by
  refine (pairwise_offsetOf_atWordStarts p s).filterMap make fun x y hlt b hb c hc => ?_
  rw [hmake x b hb, hmake y c hc]
  exact hlt

/-! ### First characters -/

/-- A pattern that only reads texts that begin with a character of some class. -/
def Starts (p : Reading α) (accepts : Char → Bool) : Prop :=
  ∀ s, s.head?.any accepts = false → p s = []

section
variable {p : Reading α} {accepts : Char → Bool}

/-- Where something is read, the first character fits. -/
theorem Starts.head? (h : Starts p accepts) (hread : p s ≠ []) : s.head?.any accepts = true := by
  cases hs : s.head?.any accepts with
  | true => rfl
  | false => exact absurd (h s hs) hread

/-- The class of first characters can be enlarged. -/
theorem Starts.mono {accepts' : Char → Bool} (h : Starts p accepts)
    (hclasses : ∀ c, accepts c = true → accepts' c = true) : Starts p accepts' := by
  intro s hs
  refine h s ?_
  cases hhead : s.head? with
  | none => rfl
  | some c =>
    rw [hhead, Option.any_some] at hs
    rw [Option.any_some, ← Bool.not_eq_true]
    exact fun hc => absurd (hclasses c hc) (by simp [hs])

/-- What is read further does not change the first character. -/
theorem Starts.bind (h : Starts p accepts) (f : α → Reading β) : Starts (p >>= f) accepts :=
  fun s hs => bind_eq_nil (h s hs)

/-- What may be missing is followed by something that begins with the class too. -/
theorem Starts.optional_bind {f : Option α → Reading β} (h : Starts p accepts)
    (hf : Starts (f none) accepts) : Starts (optional p >>= f) accepts := by
  intro s hs
  rw [bind_eq_of_singleton (optional_eq (h s hs))]
  exact hf s hs

/-- What is led by a word begins with its first character. -/
theorem Led.starts {word : String} (h : Led p word) (hword : word.toList.head?.any accepts = true) :
    Starts p accepts := by
  intro s hs
  refine h s ?_
  rintro ⟨rest, rfl⟩
  cases hchars : word.toList with
  | nil => simp [hchars] at hword
  | cons c cs => simp_all

/-- A word begins with its first character. -/
theorem starts_text (word : String) (hword : word.toList.head?.any accepts = true) :
    Starts (text word) accepts :=
  Led.starts (fun _ => text_eq_nil) hword

/-- A name begins with a character that begins names. -/
theorem starts_name : Starts name isNameStart :=
  fun _ => name_eq_nil

/-- A quoted text begins with a mark. -/
theorem starts_quote (marks : List Char) : Starts (quote marks) marks.contains := by
  intro s hs
  refine quote_eq_nil fun c hc hmem => ?_
  rw [Option.mem_def.1 hc, Option.any_some, List.contains_iff_mem.2 hmem] at hs
  cases hs

/-- Alternatives begin with what all of them begin with. -/
theorem starts_oneOf {ps : List (Reading α)} (h : ∀ p ∈ ps, Starts p accepts) :
    Starts (oneOf ps) accepts :=
  fun s hs => List.flatMap_eq_nil_iff.2 fun p hp => h p hp s hs

end

/-! ### Patterns that exclude each other -/

/-- Blanks, which may have to be there. -/
def Gap (gap : Reading Unit) : Prop :=
  ∀ s, gap s = [] ∨ gap s = [((), s.dropWhile isBlank)]

/-- Blanks leave a gap. -/
theorem gap_blanks : Gap blanks :=
  fun _ => .inr rfl

/-- So do blanks that must be there. -/
theorem gap_blanks1 : Gap blanks1 :=
  blanks1_eq

/-- What is read behind a word and blanks is read off the text behind them. -/
theorem Gap.bind_eq {gap : Reading Unit} (hgap : Gap gap) (word : String) (f : Unit → Reading α)
    (t : List Char) : (text word >>= fun _ => gap >>= f) (word.toList ++ t) = [] ∨
      (text word >>= fun _ => gap >>= f) (word.toList ++ t) = f () (t.dropWhile isBlank) := by
  rw [bind_eq_of_singleton (text_append word t)]
  rcases hgap t with ht | ht
  · exact .inl (bind_eq_nil ht)
  · exact .inr (bind_eq_of_singleton ht)

/-- Behind the same word two patterns do not read the same text, if no character is a first one of
    both. -/
theorem eq_nil_or_eq_nil {word : String} {gap gap' : Reading Unit} {f : Unit → Reading α}
    {g : Unit → Reading β} {accepts accepts' : Char → Bool} (hgap : Gap gap) (hgap' : Gap gap')
    (hf : Starts (f ()) accepts) (hg : Starts (g ()) accepts')
    (hclasses : ∀ c, accepts c = true → accepts' c = false) (s : List Char) :
    (text word >>= fun _ => gap >>= f) s = [] ∨ (text word >>= fun _ => gap' >>= g) s = [] := by
  by_cases hprefix : word.toList <+: s
  · obtain ⟨t, rfl⟩ := hprefix
    rcases hgap.bind_eq word f t with hnone | hread
    · exact .inl hnone
    rcases hgap'.bind_eq word g t with hnone | hread'
    · exact .inr hnone
    rw [hread, hread']
    -- Both readings go on at the same character, and at most one accepts it.
    cases hhead : (t.dropWhile isBlank).head? with
    | none => exact .inl (hf _ (by rw [hhead]; rfl))
    | some c =>
      cases hc : accepts c with
      | false => exact .inl (hf _ (by rw [hhead]; exact hc))
      | true => exact .inr (hg _ (by rw [hhead]; exact hclasses c hc))
  · exact .inl (led_text_bind word _ s hprefix)

end Reading

end BlastRadius.Text
