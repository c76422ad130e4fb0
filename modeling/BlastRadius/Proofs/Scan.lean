import BlastRadius.Proofs.Reading

namespace BlastRadius.Text.Reading

/-!
# Scanning a text for a pattern

A text is scanned piece by piece. Over most pieces a pattern reads nothing, and where it reads
something its preferred reading decides where the scan goes on.

* `first?_bind`, `first?_name`, `first?_optional` — the preferred reading of a pattern, from that of
  its parts.
* `Passes` — a scan goes over a piece of a text without finding anything.
* `Led.passes_plain`, `Led.passes_name` — pieces of that kind.
* `Meets` — what a scan finds on a line, which is one thing at most.
* `Meets.scan` — the scan of a text that begins with such a line.
-/

variable {α β : Type} {p : Reading α} {f : α → Reading β} {s front rest : List Char}

/-! ### Where nothing is read -/

/-- What is read first decides what is read next. -/
theorem bind_apply (p : Reading α) (f : α → Reading β) (s : List Char) :
    (p >>= f) s = (p s).flatMap fun ar => f ar.1 ar.2 := rfl

/-- What cannot begin cannot go on. -/
theorem bind_eq_nil (h : p s = []) : (p >>= f) s = [] := by
  rw [bind_apply, h, List.flatMap_nil]

/-- A pattern that can read the text in one way only. -/
theorem bind_eq_of_singleton {a : α} (h : p s = [(a, rest)]) : (p >>= f) s = f a rest := by
  rw [bind_apply, h, List.flatMap_singleton]

/-- A text is read where it stands in front. -/
theorem text_append (t : String) (rest : List Char) : text t (t.toList ++ rest) = [((), rest)] := by
  rw [text, stripPrefix?_eq_some_iff.2 rfl]

/-- It is not read where it does not. -/
theorem text_eq_nil {t : String} (h : ¬t.toList <+: s) : text t s = [] := by
  unfold text
  split
  · next rest hstrip => exact absurd ⟨rest, (stripPrefix?_eq_some_iff.1 hstrip).symm⟩ h
  · rfl

/-- A word that does not go on with the next character stands in front of it. -/
theorem prefix_of_prefix_append {word : List Char} (hrest : ∀ c ∈ rest.head?, c ∉ word)
    (h : word <+: front ++ rest) : word <+: front := by
  rcases List.prefix_or_prefix_of_prefix h (List.prefix_append front rest) with h' | ⟨z, rfl⟩
  · exact h'
  · cases z with
    | nil => simp
    | cons c z =>
      rw [List.prefix_append_right_inj] at h
      obtain ⟨more, hmore⟩ := h
      exact absurd (by simp) (hrest c (by rw [← hmore]; rfl))

/-- A word is not read off a name that begins with it, if what has to follow does not. -/
theorem text_bind_eq_nil {word : String} {f : Unit → Reading β}
    (hrest : ∀ c ∈ rest.head?, c ∉ word.toList)
    (hmore : ∀ more, front = word.toList ++ more → f () (more ++ rest) = []) :
    (text word >>= f) (front ++ rest) = [] := by
  by_cases hprefix : word.toList <+: front ++ rest
  · obtain ⟨more, rfl⟩ := prefix_of_prefix_append hrest hprefix
    rw [List.append_assoc, bind_eq_of_singleton (text_append word _)]
    exact hmore more rfl
  · exact bind_eq_nil (text_eq_nil hprefix)

/-- A word is not in front where its first character is not. -/
theorem not_prefix_of_head {word : String} {c : Char} (hword : word.toList.head? = some c)
    (hs : s.head? ≠ some c) : ¬word.toList <+: s := by
  rintro ⟨z, rfl⟩
  refine hs ?_
  rw [List.head?_append, hword]
  rfl

/-- No blanks are read where there are none. -/
theorem blanks_eq (h : s.head?.any isBlank = false) : blanks s = [((), s)] := by
  cases s with
  | nil => rfl
  | cons c s => simp_all [blanks]

/-- A single blank is read. -/
theorem blanks_space (h : s.head?.any isBlank = false) : blanks (' ' :: s) = [((), s)] := by
  have hs := blanks_eq h
  simpa [blanks, show isBlank ' ' = true from rfl] using hs

/-- A single blank is enough. -/
theorem blanks1_space (h : s.head?.any isBlank = false) : blanks1 (' ' :: s) = [((), s)] := by
  have hs := blanks_eq h
  simpa [blanks, blanks1, show isBlank ' ' = true from rfl] using hs

/-- Blanks that must be there are not read where there are none. -/
theorem blanks1_eq_nil (h : s.head?.any isBlank = false) : blanks1 s = [] := by
  cases s with
  | nil => rfl
  | cons c s => simp_all [blanks1]

/-- Blanks that must be there are read all, or none are there. -/
theorem blanks1_eq (s : List Char) : blanks1 s = [] ∨ blanks1 s = [((), s.dropWhile isBlank)] := by
  cases s with
  | nil => exact .inl rfl
  | cons c s =>
    rw [blanks1]
    split
    · next hc => exact .inr (by rw [List.dropWhile_cons_of_pos hc])
    · exact .inl rfl

/-- What cannot be read is left out by choice. -/
theorem optional_eq (h : p s = []) : optional p s = [(none, s)] := by
  simp [optional, h]

/-! ### The preferred reading -/

/-- The only way to read is the first. -/
theorem first?_of_singleton {a : α} (h : p s = [(a, rest)]) : p.first? s = some (a, rest) := by
  rw [first?, h]
  rfl

/-- The preferred readings of two patterns, one behind the other. -/
theorem first?_bind {a : α} {mid : List Char} {r : β × List Char} (h : p.first? s = some (a, mid))
    (hf : (f a).first? mid = some r) : (p >>= f).first? s = some r := by
  obtain ⟨others, hothers⟩ : ∃ others, p s = (a, mid) :: others := by
    cases hp : p s with
    | nil => simp [first?, hp] at h
    | cons x others =>
      rw [first?, hp] at h
      exact ⟨others, by rw [Option.some.inj h]⟩
  rw [first?, bind_apply, hothers, List.flatMap_cons, List.head?_append,
    show (f a mid).head? = _ from hf]
  rfl

/-- What can be read is read first by choice. -/
theorem first?_optional {a : α} (h : p.first? s = some (a, rest)) :
    (optional p).first? s = some (some a, rest) := by
  rw [first?, optional, List.head?_append, List.head?_map, show (p s).head? = _ from h]
  rfl

/-- The first pattern that reads anything decides. -/
theorem first?_oneOf_cons (p : Reading α) (ps : List (Reading α)) (s : List Char) :
    (oneOf (p :: ps)).first? s = (p.first? s).or ((oneOf ps).first? s) := by
  rw [first?, oneOf, List.flatMap_cons, List.head?_append]
  rfl

/-- The longest repetition comes first. -/
theorem first?_rests {accepts : Char → Bool} (longer : List (List Char))
    (hfront : ∀ c ∈ front, accepts c = true) (hrest : rest.head?.any accepts = false) :
    (rests accepts longer (front ++ rest)).head? = some rest := by
  induction front generalizing longer with
  | nil =>
    cases rest with
    | nil => rfl
    | cons c rest => simp_all [rests]
  | cons c front ih =>
    rw [List.forall_mem_cons] at hfront
    rw [List.cons_append, rests, if_pos hfront.1]
    exact ih _ hfront.2

/-- A name is read up to its end. -/
theorem first?_name {c : Char} {cs : List Char} (hc : isNameStart c = true)
    (hcs : ∀ d ∈ cs, isNameChar d = true) (hrest : rest.head?.any isNameChar = false) :
    name.first? (c :: cs ++ rest) = some (⟨c :: cs ++ rest, rest⟩, rest) := by
  have hahead : ahead.first? (c :: cs ++ rest) = some (c :: cs ++ rest, c :: cs ++ rest) := rfl
  have hone : (one isNameStart).first? (c :: cs ++ rest) = some (c, cs ++ rest) := by
    simp [first?, one, hc]
  have hmany : (many isNameChar).first? (cs ++ rest) = some ((), rest) := by
    rw [first?, many, List.head?_map, first?_rests [] hcs hrest]
    rfl
  exact first?_bind hahead (first?_bind hone (first?_bind hmany rfl))

/-- No name is read where none begins. -/
theorem name_eq_nil (h : s.head?.any isNameStart = false) : name s = [] := by
  have hone : one isNameStart s = [] := by
    cases s with
    | nil => rfl
    | cons c s => simp_all [one]
  have hahead : ahead s = [(s, s)] := rfl
  rw [name, bind_eq_of_singleton hahead, bind_eq_nil hone]

/-- No mark is read where there is none. -/
theorem quote_eq_nil {marks : List Char} (h : ∀ c ∈ s.head?, c ∉ marks) : quote marks s = [] := by
  have hone : one marks.contains s = [] := by
    cases s with
    | nil => rfl
    | cons c s => simp_all [one]
  have hahead : ahead s = [(s, s)] := rfl
  rw [quote, bind_eq_of_singleton hahead, bind_eq_nil hone]

/-- A piece has the characters up to its end. -/
theorem chars_piece (word rest : List Char) : Piece.chars ⟨word ++ rest, rest⟩ = word := by
  simp [Piece.chars]

/-! ### Going over a piece of a text -/

/-- What stands before the text behind `front`. -/
def beforeRest (before : Option Char) (front : List Char) : Option Char :=
  front.getLast?.or before

/-- In front of the rest stands what stood there. -/
@[simp] theorem beforeRest_nil (before : Option Char) : beforeRest before [] = before := rfl

/-- In front of the rest stands the end of the last part. -/
@[simp] theorem beforeRest_append (before : Option Char) (front more : List Char) :
    beforeRest before (front ++ more) = beforeRest (beforeRest before front) more := by
  simp [beforeRest, List.getLast?_append, Option.or_assoc]

/-- The first character of the front stands before all others. -/
theorem beforeRest_cons (before : Option Char) (c : Char) (front : List Char) :
    beforeRest before (c :: front) = beforeRest (some c) front :=
  beforeRest_append before [c] front

/-- A scan for `p` goes over `front` without finding anything: from the start of no word in it `p`
    reads anything. -/
def Passes (p : Reading α) (before : Option Char) (front rest : List Char) : Prop :=
  ∀ a b, front = a ++ b → b ≠ [] → (beforeRest before a).any isWord = false → p (b ++ rest) = []

/-- There is nothing to find in an empty front. -/
theorem passes_nil (p : Reading α) (before : Option Char) (rest : List Char) :
    Passes p before [] rest :=
  fun _ _ hsplit hne => absurd (List.append_eq_nil_iff.1 hsplit.symm).2 hne

/-- Two parts are passed one after the other. -/
theorem Passes.append {before : Option Char} {more : List Char}
    (h : Passes p before front (more ++ rest))
    (hmore : Passes p (beforeRest before front) more rest) :
    Passes p before (front ++ more) rest := by
  intro a b hsplit hne hword
  rcases List.append_eq_append_iff.1 hsplit with ⟨c, rfl, rfl⟩ | ⟨c, rfl, rfl⟩
  · refine hmore c b rfl hne ?_
    rwa [beforeRest_append] at hword
  · cases c with
    | nil =>
      refine hmore [] more rfl (by simpa using hne) ?_
      simpa using hword
    | cons x c =>
      rw [List.append_assoc]
      exact h a (x :: c) rfl (List.cons_ne_nil x c) hword

/-- A pattern that only reads texts that begin with `word`. -/
def Led (p : Reading α) (word : String) : Prop :=
  ∀ s, ¬word.toList <+: s → p s = []

section
variable {word : String} {before : Option Char}

/-- What is read further does not change the leading word. -/
theorem Led.bind (h : Led p word) : Led (p >>= f) word :=
  fun s hs => bind_eq_nil (h s hs)

/-- Without its leading word it is left out by choice. -/
theorem Led.first?_optional (h : Led p word) (hs : ¬word.toList <+: s) :
    (optional p).first? s = some (none, s) :=
  first?_of_singleton (optional_eq (h s hs))

/-- What begins with a word is led by it. -/
theorem led_text_bind (word : String) (f : Unit → Reading β) : Led (text word >>= f) word :=
  fun _ h => bind_eq_nil (text_eq_nil h)

/-- It is enough to look where the word stands, if what comes next does not go on with it. -/
theorem Led.passes (hled : Led p word) (hrest : ∀ c ∈ rest.head?, c ∉ word.toList)
    (h : ∀ a z, front = a ++ (word.toList ++ z) → (beforeRest before a).any isWord = false →
      p (word.toList ++ (z ++ rest)) = []) : Passes p before front rest := by
  intro a b hfront hne hword
  by_cases hprefix : word.toList <+: b ++ rest
  · obtain ⟨z, rfl⟩ := prefix_of_prefix_append hrest hprefix
    rw [List.append_assoc]
    exact h a z hfront hword
  · exact hled _ hprefix

/-- One more character is passed where nothing is read at it. -/
theorem Passes.cons {c : Char} (h : p (c :: (front ++ rest)) = [])
    (hlater : Passes p (some c) front rest) : Passes p before (c :: front) rest := by
  intro a b hsplit hne hword
  cases a with
  | nil =>
    rw [List.nil_append] at hsplit
    rw [← hsplit]
    exact h
  | cons d a =>
    rw [List.cons_append, List.cons.injEq] at hsplit
    rw [beforeRest_cons, ← hsplit.1] at hword
    exact hlater a b hsplit.2 hne hword

/-- A piece without the first letter of the word. -/
theorem Led.passes_plain (hled : Led p word) {c : Char} (hword : word.toList.head? = some c)
    (hfront : c ∉ front) : Passes p before front rest := by
  intro a b hsplit hne _
  refine hled _ (not_prefix_of_head hword ?_)
  intro hhead
  obtain ⟨d, b, rfl⟩ := List.exists_cons_of_ne_nil hne
  refine hfront ?_
  rw [hsplit, ← Option.some_inj.1 hhead]
  simp

/-- A name, made of the characters of some class, where the word may stand at its end only. -/
theorem Led.passes_name {accepts : Char → Bool} (hled : Led p word)
    (hword : ∀ c ∈ word.toList, accepts c = true) (hfront : ∀ c ∈ front, accepts c = true)
    (hrest : rest.head?.any accepts = false)
    (hlonger : ∀ c s, accepts c = true → p (word.toList ++ c :: s) = [])
    (hend : ∀ a, front = a ++ word.toList → (beforeRest before a).any isWord = false →
      p (word.toList ++ rest) = []) : Passes p before front rest := by
  refine hled.passes (fun c hc hmem => ?_) fun a z hsplit hbefore => ?_
  · rw [Option.mem_def.1 hc, Option.any_some, hword c hmem] at hrest
    cases hrest
  · cases z with
    | nil => exact hend a (by rw [hsplit, List.append_nil]) hbefore
    | cons c z => exact hlonger c _ (hfront c (by simp [hsplit]))

/-- A piece in which the word does not stand. -/
theorem Led.passes_of_absent (hled : Led p word) (hrest : ∀ c ∈ rest.head?, c ∉ word.toList)
    (hfront : ¬word.toList <:+: front) : Passes p before front rest :=
  hled.passes hrest fun a z hsplit _ => absurd ⟨a, z, by rw [hsplit, List.append_assoc]⟩ hfront

end

/-- The later part of what is passed is passed. -/
theorem Passes.of_append {before : Option Char} {more : List Char}
    (h : Passes p before (front ++ more) rest) : Passes p (beforeRest before front) more rest := by
  intro a b hsplit hne hword
  refine h (front ++ a) b (by rw [hsplit, List.append_assoc]) hne ?_
  rwa [beforeRest_append]

/-- A pattern reads nothing where another one reads nothing. -/
theorem Passes.imp {before : Option Char} {q : Reading β} (h : Passes p before front rest)
    (himp : ∀ s, p s = [] → q s = []) :
    Passes q before front rest :=
  fun a b hsplit hne hword => himp _ (h a b hsplit hne hword)

/-- A scan that finds nothing reads nothing anywhere. -/
theorem passes_of_scan_eq_nil {before : Option Char} (h : atWordStartsFrom p before 0 s = []) :
    Passes p before s [] := by
  induction s generalizing before with
  | nil => exact passes_nil p before []
  | cons c s ih =>
    intro a b hsplit hne hword
    rw [atWordStartsFrom] at h
    -- At this character the scan read nothing, and then it went on.
    cases a with
    | nil =>
      rw [List.nil_append] at hsplit
      subst hsplit
      rw [beforeRest_nil] at hword
      rw [hword, if_neg (by simp)] at h
      cases hfirst : p.first? (c :: s) with
      | none => rw [List.append_nil]; exact List.head?_eq_none_iff.1 hfirst
      | some r => rw [hfirst] at h; cases h
    | cons d a =>
      rw [List.cons_append, List.cons.injEq] at hsplit
      obtain ⟨rfl, hsplit⟩ := hsplit
      rw [beforeRest_cons] at hword
      have hlater : atWordStartsFrom p (some c) 0 s = [] := by
        split at h
        · exact h
        · split at h
          · exact h
          · cases h
      exact ih hlater a b hsplit hne hword

/-- The scan goes on behind what it passes. -/
theorem atWordStartsFrom_pass {before : Option Char} (h : Passes p before front rest) :
    atWordStartsFrom p before 0 (front ++ rest)
      = atWordStartsFrom p (beforeRest before front) 0 rest := by
  induction front generalizing before with
  | nil => rfl
  | cons c front ih =>
    have hlater : Passes p (some c) front rest :=
      (show Passes p before ([c] ++ front) rest from h).of_append
    rw [List.cons_append, atWordStartsFrom, beforeRest_cons, ← ih hlater]
    -- Inside a word nothing is tried, at its start nothing is read.
    split
    · rfl
    · next hword =>
      have hnone : p.first? (c :: (front ++ rest)) = none := by
        have hnil := h [] (c :: front) rfl (List.cons_ne_nil c front) (by simpa using hword)
        rw [first?, ← List.cons_append, hnil]
        rfl
      rw [hnone]

/-- The scan goes on behind what it skips. -/
theorem atWordStartsFrom_skip (p : Reading α) (before : Option Char) (front rest : List Char) :
    atWordStartsFrom p before front.length (front ++ rest)
      = atWordStartsFrom p (beforeRest before front) 0 rest := by
  induction front generalizing before with
  | nil => rfl
  | cons c front ih =>
    rw [List.cons_append, List.length_cons, atWordStartsFrom, ih, beforeRest_cons]

/-- Where something is read from the start of a word on, the scan goes on behind what is read. -/
theorem atWordStartsFrom_hit {before : Option Char} {a : α} (hbefore : before.any isWord = false)
    (hfront : front ≠ []) (h : p.first? (front ++ rest) = some (a, rest)) :
    atWordStartsFrom p before 0 (front ++ rest)
      = (front ++ rest, a) :: atWordStartsFrom p (beforeRest before front) 0 rest := by
  obtain ⟨c, front, rfl⟩ := List.exists_cons_of_ne_nil hfront
  have hlength : (front ++ rest).length - rest.length = front.length := by simp
  rw [List.cons_append] at h ⊢
  rw [atWordStartsFrom, hbefore, if_neg (by simp), h]
  dsimp only
  rw [hlength, atWordStartsFrom_skip, beforeRest_cons]

/-- What a scan finds on a line: nothing, or one thing that stands at its start. -/
inductive Meets (p : Reading α) (line rest : List Char) : Option α → Prop where
  | pass (h : Passes p none line rest) : Meets p line rest none
  | hit {front back : List Char} {a : α} (hline : line = front ++ back) (hfront : front ≠ [])
      (hread : p.first? (front ++ (back ++ rest)) = some (a, back ++ rest))
      (hback : Passes p (beforeRest none front) back rest) : Meets p line rest (some a)

/-- Fewer words start where a text goes on behind another one. -/
theorem Passes.of_none {before : Option Char} (h : Passes p none front rest) :
    Passes p before front rest := by
  intro a b hsplit hne hword
  refine h a b hsplit hne ?_
  cases hlast : a.getLast? with
  | none => simp [beforeRest, hlast]
  | some c => simpa [beforeRest, hlast] using hword

/-- What stood before does not count behind a front with characters. -/
theorem beforeRest_of_ne_nil {before : Option Char} (h : front ≠ []) :
    beforeRest before front = beforeRest none front := by
  simp [beforeRest, List.getLast?_eq_getLast_of_ne_nil h]

/-- The scan finds on a line what it meets there. -/
theorem Meets.scan {line : List Char} {found : Option α} {before : Option Char}
    (h : Meets p line rest found) (hbefore : before.any isWord = false) :
    atWordStartsFrom p before 0 (line ++ rest)
      = found.toList.map (line ++ rest, ·)
        ++ atWordStartsFrom p (beforeRest before line) 0 rest := by
  cases h with
  | pass h => rw [atWordStartsFrom_pass h.of_none]; rfl
  | hit hline hfront hread hback =>
    subst hline
    rw [beforeRest_append, beforeRest_of_ne_nil hfront, ← atWordStartsFrom_pass hback,
      List.append_assoc, atWordStartsFrom_hit hbefore hfront hread, beforeRest_of_ne_nil hfront]
    rfl

end BlastRadius.Text.Reading
