import BlastRadius.Text.Reading
import Mathlib.Data.List.Infix

namespace BlastRadius.Text.Reading

/-!
# What patterns read

* `mem_bind`, `mem_text`, `mem_blanks`, `mem_quote` — what the building blocks of a pattern read and
  leave.
* `Consumes` — a pattern leaves a final part of the text.
* `mem_atWordStarts` — what is found in a text is read off a final part of it.
-/

variable {α β : Type}

/-! ### Building blocks -/

/-- Reading nothing leaves everything. -/
theorem mem_pure {a b : α} {s rest : List Char} :
    (b, rest) ∈ (pure a : Reading α) s ↔ b = a ∧ rest = s := by
  change (b, rest) ∈ [(a, s)] ↔ _
  simp

/-- Reading one thing after the other. -/
theorem mem_bind {p : Reading α} {f : α → Reading β} {b : β} {s rest : List Char} :
    (b, rest) ∈ (p >>= f) s ↔ ∃ a mid, (a, mid) ∈ p s ∧ (b, rest) ∈ f a mid := by
  change (b, rest) ∈ (p s).flatMap (fun ar => f ar.1 ar.2) ↔ _
  simp

/-- A text is read where it stands in front. -/
theorem mem_text {t : String} {u : Unit} {s rest : List Char} :
    (u, rest) ∈ text t s ↔ s = t.toList ++ rest := by
  rw [← stripPrefix?_eq_some_iff]
  unfold text
  split
  · rename_i hstrip
    simp [hstrip, eq_comm]
  · rename_i hstrip
    simp [hstrip]

/-- One character is read where it is accepted. -/
theorem mem_one {accepts : Char → Bool} {c : Char} {s rest : List Char} :
    (c, rest) ∈ one accepts s ↔ s = c :: rest ∧ accepts c = true := by
  unfold one
  split
  · simp
  · split <;> grind

/-- Blanks are read up to something else. -/
theorem mem_blanks {u : Unit} {s rest : List Char} (h : (u, rest) ∈ blanks s) :
    ∃ gap, s = gap ++ rest ∧ ∀ c ∈ gap, isBlank c = true := by
  obtain rfl : rest = s.dropWhile isBlank := by simpa [blanks] using h
  exact ⟨s.takeWhile isBlank, List.takeWhile_append_dropWhile.symm,
    List.all_eq_true.1 List.all_takeWhile⟩

/-- A quotation mark yields the text that it starts. -/
theorem mem_quote {marks here s rest : List Char} (h : (here, rest) ∈ quote marks s) :
    here = s ∧ ∃ mark ∈ marks, s = mark :: rest := by
  obtain ⟨start, mid, hahead, hrest⟩ := mem_bind.1 h
  obtain ⟨rfl, rfl⟩ : start = s ∧ mid = s := by simpa [ahead] using hahead
  obtain ⟨mark, behind, hone, hpure⟩ := mem_bind.1 hrest
  obtain ⟨rfl, rfl⟩ := mem_pure.1 hpure
  obtain ⟨hs, hmark⟩ := mem_one.1 hone
  exact ⟨rfl, mark, by simpa using hmark, hs⟩

/-- What is read by choice can be read. -/
theorem mem_of_some_mem_optional {p : Reading α} {a : α} {s rest : List Char}
    (h : (some a, rest) ∈ optional p s) : (a, rest) ∈ p s := by
  simpa [optional] using h

/-! ### What patterns leave -/

/-- A pattern that leaves a final part of the text, in whatever way it reads it. -/
def Consumes (p : Reading α) : Prop :=
  ∀ ⦃s : List Char⦄ ⦃a : α⦄ ⦃rest : List Char⦄, (a, rest) ∈ p s → rest <:+ s

/-- Reading nothing leaves an end of the text. -/
theorem consumes_pure (a : α) : Consumes (pure a) := by
  intro s b rest h
  rw [(mem_pure.1 h).2]

/-- So does reading one thing after the other. -/
theorem Consumes.bind {p : Reading α} {f : α → Reading β} (hp : Consumes p)
    (hf : ∀ a, Consumes (f a)) : Consumes (p >>= f) := by
  intro s b rest h
  obtain ⟨a, mid, ha, hb⟩ := mem_bind.1 h
  exact (hf a hb).trans (hp ha)

/-- So does looking ahead. -/
theorem consumes_ahead : Consumes ahead := by
  intro s a rest h
  obtain ⟨-, rfl⟩ : _ ∧ rest = s := by simpa [ahead] using h
  exact List.suffix_rfl

/-- So does reading a text. -/
theorem consumes_text (t : String) : Consumes (text t) := by
  intro s a rest h
  rw [mem_text.1 h]
  exact List.suffix_append _ _

/-- So does reading one character. -/
theorem consumes_one (accepts : Char → Bool) : Consumes (one accepts) := by
  intro s c rest h
  rw [(mem_one.1 h).1]
  exact List.suffix_cons c rest

/-- The rests of a repetition are ends of the text. -/
theorem mem_rests {accepts : Char → Bool} {longer : List (List Char)} {s rest : List Char}
    (h : rest ∈ rests accepts longer s) : rest <:+ s ∨ rest ∈ longer := by
  induction s generalizing longer with
  | nil => simpa [rests] using h
  | cons c s ih =>
    rw [rests] at h
    split at h
    · rcases ih h with hs | hlonger
      · exact Or.inl (hs.trans (List.suffix_cons c s))
      · rcases List.mem_cons.1 hlonger with rfl | hlonger
        · exact Or.inl List.suffix_rfl
        · exact Or.inr hlonger
    · rcases List.mem_cons.1 h with rfl | hlonger
      · exact Or.inl List.suffix_rfl
      · exact Or.inr hlonger

/-- Reading many characters leaves an end of the text. -/
theorem consumes_many (accepts : Char → Bool) : Consumes (many accepts) := by
  intro s a rest h
  have hrest : rest ∈ rests accepts [] s := by simpa [many] using h
  exact (mem_rests hrest).resolve_right (List.not_mem_nil)

/-- So does reading as many as there are. -/
theorem consumes_all (accepts : Char → Bool) : Consumes (all accepts) := by
  intro s a rest h
  obtain ⟨-, rfl⟩ : _ ∧ rest = s.dropWhile accepts := by simpa [all] using h
  exact List.dropWhile_suffix _

/-- So does reading blanks. -/
theorem consumes_blanks : Consumes blanks := by
  intro s a rest h
  obtain ⟨gap, rfl, -⟩ := mem_blanks h
  exact List.suffix_append _ _

/-- So does reading blanks that must be there. -/
theorem consumes_blanks1 : Consumes blanks1 := by
  intro s a rest h
  unfold blanks1 at h
  split at h
  · cases h
  · rename_i c s
    split at h
    · obtain rfl : rest = s.dropWhile isBlank := by simpa using h
      exact (List.dropWhile_suffix _).trans (List.suffix_cons c s)
    · cases h

/-- So does reading by choice. -/
theorem Consumes.optional {p : Reading α} (hp : Consumes p) : Consumes (optional p) := by
  intro s a rest h
  rcases List.mem_append.1 h with h | h
  · obtain ⟨⟨b, _⟩, hb, hrest⟩ := List.mem_map.1 h
    obtain ⟨-, rfl⟩ := Prod.mk.inj hrest
    exact hp hb
  · obtain ⟨-, rfl⟩ : _ ∧ rest = s := by simpa using h
    exact List.suffix_rfl

/-- So does reading a name. -/
theorem consumes_name : Consumes name :=
  consumes_ahead.bind fun _ => (consumes_one _).bind fun _ => (consumes_many _).bind fun _ =>
    consumes_ahead.bind fun _ => consumes_pure _

/-- So does reading what stands in braces. -/
theorem consumes_braced : Consumes braced :=
  (consumes_text _).bind fun _ => (consumes_all _).bind fun _ =>
    (consumes_text _).bind fun _ => consumes_pure _

/-! ### What is found in a text -/

/-- What is found at the starts of words can be read there. -/
theorem mem_atWordStartsFrom {p : Reading α} {before : Option Char} {skip : Nat}
    {s here : List Char} {a : α} (h : (here, a) ∈ atWordStartsFrom p before skip s) :
    here <:+ s ∧ ∃ rest, (a, rest) ∈ p here := by
  induction s generalizing before skip with
  | nil => cases h
  | cons c s ih =>
    -- Skipped, inside a word or not read here: what is found is found further on.
    have hlater {before skip} (h : (here, a) ∈ atWordStartsFrom p before skip s) :
        here <:+ c :: s ∧ ∃ rest, (a, rest) ∈ p here :=
      ⟨(ih h).1.trans (List.suffix_cons c s), (ih h).2⟩
    unfold atWordStartsFrom at h
    split at h
    · exact hlater h
    · split at h
      · exact hlater h
      · split at h
        · exact hlater h
        · rename_i b rest hfirst
          rcases List.mem_cons.1 h with hhere | h
          · obtain ⟨rfl, rfl⟩ := Prod.mk.inj hhere
            exact ⟨List.suffix_rfl, rest, List.mem_of_mem_head? (Option.mem_def.2 hfirst)⟩
          · exact hlater h

/-- What is found in a text is read off a final part of it. -/
theorem mem_atWordStarts {p : Reading α} {s here : List Char} {a : α}
    (h : (here, a) ∈ p.atWordStarts s) : here <:+ s ∧ ∃ rest, (a, rest) ∈ p here :=
  mem_atWordStartsFrom h

end BlastRadius.Text.Reading
