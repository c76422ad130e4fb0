import BlastRadius.Proofs.Canonical
import BlastRadius.Proofs.Order
import BlastRadius.Proofs.SimpleCycles
import Mathlib.Data.List.Sort

namespace BlastRadius

/-!
# What the key of a cycle tells

Cycles count as one if they have the same key, in which the spellings of their files stand between
bars. A bar may also be part of a name. The key can be read back as long as no directory has a name
that ends in a bar: a bar with a separator behind it then always stands between two files.

* `Text.Legible` — texts that can be read back from between bars (`Text.eq_of_intercalate_eq`);
  `Path.Plain` — paths with such a spelling.
* `Graph.key_eq_iff_sameFiles` — which cycles have the same key.
* `Graph.metCycles` — all the cycles that the search meets, in order; `Graph.cycles_eq_sifted` —
  what it keeps of them.
* `Graph.cycles_eq_metCycles` — among plain paths it keeps them all.
* `Graph.key_tells_files` — the theorem; `Graph.Sample.key_confuses` — a cycle that is lost behind a
  bar.
-/

open Component Disk BlastRadius.Path Text

/-! ### Texts between bars -/

namespace Text

/-- A text that begins with a separator and has no bar before another one. -/
structure Legible (s : List Char) : Prop where
  rooted : ∃ t, s = '/' :: t
  unbarred : ¬['|', '/'] <:+: s

/-- Either nothing follows, or a bar and another legible text. -/
def Follows (rest : List Char) : Prop :=
  rest = [] ∨ ['|', '/'] <+: rest

/-- What stands between bars. -/
def behind : List (List Char) → List Char
  | [] => []
  | s :: l => '|' :: ['|'].intercalate (s :: l)

/-- A key begins with its first part. -/
theorem intercalate_cons_eq (s : List Char) (l : List (List Char)) :
    ['|'].intercalate (s :: l) = s ++ behind l := by
  cases l with
  | nil => rw [List.intercalate_singleton, behind, List.append_nil]
  | cons t l => rw [List.intercalate_cons_cons, List.append_assoc, behind, List.singleton_append]

/-- Behind a legible part comes the end, or a bar and the next root. -/
theorem follows_behind {l : List (List Char)} (hl : ∀ s ∈ l, Legible s) : Follows (behind l) := by
  cases l with
  | nil => exact Or.inl rfl
  | cons s l =>
    obtain ⟨t, rfl⟩ := (hl s List.mem_cons_self).rooted
    refine Or.inr ⟨t ++ behind l, ?_⟩
    rw [behind, intercalate_cons_eq]
    rfl

/-- Nothing of what follows a legible text can be taken for a part of it. -/
theorem eq_nil_of_follows {x z rest : List Char} (hxz : ¬['|', '/'] <:+: x ++ z)
    (hz : Follows (z ++ rest)) (hrest : Follows rest) : z = [] := by
  cases z with
  | nil => rfl
  | cons first z =>
    obtain ⟨back, hback⟩ := hz.resolve_left (by simp)
    obtain ⟨rfl, hnext⟩ := List.cons.inj hback
    cases z with
    | nil =>
      -- The bar would be followed by what can only begin with another bar.
      rcases hrest with rfl | ⟨back', rfl⟩
      · cases hnext
      · cases hnext
    | cons second z =>
      obtain ⟨rfl, -⟩ := List.cons.inj hnext
      exact absurd ⟨x, z, by simp⟩ hxz

/-- Two legible texts at the beginning of one text are equal. -/
theorem Legible.eq_of_append {x y rest rest' : List Char} (hx : Legible x) (hy : Legible y)
    (hrest : Follows rest) (hrest' : Follows rest') (h : x ++ rest = y ++ rest') : x = y := by
  rcases List.append_eq_append_iff.1 h with ⟨z, rfl, rfl⟩ | ⟨z, rfl, rfl⟩
  · rw [eq_nil_of_follows hy.unbarred hrest hrest', List.append_nil]
  · rw [eq_nil_of_follows hx.unbarred hrest' hrest, List.append_nil]

/-- **Reading back.** Legible texts are determined by the text that they make up with bars between
    them. -/
theorem eq_of_intercalate_eq {l l' : List (List Char)} (hl : ∀ s ∈ l, Legible s)
    (hl' : ∀ s ∈ l', Legible s) (h : ['|'].intercalate l = ['|'].intercalate l') : l = l' := by
  -- A list that is not empty makes up a text that is not.
  have hne : ∀ {s : List Char} {l : List (List Char)}, Legible s →
      ['|'].intercalate (s :: l) ≠ [] := by
    intro s l hs hnil
    obtain ⟨t, rfl⟩ := hs.rooted
    rw [intercalate_cons_eq] at hnil
    cases hnil
  induction l generalizing l' with
  | nil =>
    cases l' with
    | nil => rfl
    | cons t l' => exact absurd h.symm (hne (hl' t List.mem_cons_self))
  | cons s l ih =>
    cases l' with
    | nil => exact absurd h (hne (hl s List.mem_cons_self))
    | cons t l' =>
      obtain ⟨hs, hrest⟩ := List.forall_mem_cons.1 hl
      obtain ⟨ht, hrest'⟩ := List.forall_mem_cons.1 hl'
      rw [intercalate_cons_eq, intercalate_cons_eq] at h
      obtain rfl := hs.eq_of_append ht (follows_behind hrest) (follows_behind hrest') h
      have hbehind : behind l = behind l' := List.append_cancel_left h
      cases l with
      | nil =>
        cases l' with
        | nil => rfl
        | cons t l' => cases hbehind
      | cons u l =>
        cases l' with
        | nil => cases hbehind
        | cons t l' => rw [ih hrest hrest' (List.cons.inj hbehind).2]

end Text

/-! ### Plain paths -/

namespace Path

/-- A canonical path by way of no directory whose name ends in a bar. -/
structure Plain (p : Path) : Prop where
  canonical : p.Canonical
  unbarred : ∀ c ∈ p.components.dropLast, c.label.toList.getLast? ≠ some '|'

/-- A bar with a separator behind it is at the end of a segment. -/
theorem infix_append_separator {segment rest : List Char} (hsep : '/' ∉ segment)
    (h : ['|', '/'] <:+: segment ++ '/' :: rest) :
    segment.getLast? = some '|' ∨ ['|', '/'] <:+: rest := by
  induction segment with
  | nil =>
    rcases List.infix_cons_iff.1 h with ⟨back, hback⟩ | h
    · cases hback
    · exact Or.inr h
  | cons c segment ih =>
    rw [List.mem_cons, not_or] at hsep
    rw [List.cons_append, List.infix_cons_iff] at h
    rcases h with ⟨back, hback⟩ | h
    · -- The separator directly behind the bar is the one that ends the segment.
      cases segment with
      | nil =>
        obtain ⟨rfl, -⟩ := List.cons.inj hback
        exact Or.inl rfl
      | cons c' segment =>
        simp only [List.cons_append, List.nil_append, List.cons.injEq] at hback
        exact absurd (by simp [← hback.2.1]) hsep.2
    · refine (ih hsep.2 h).imp_left fun hlast => ?_
      rw [List.getLast?_cons, hlast]
      rfl

/-- A bar in front of a separator ends a segment that is not the last one. -/
theorem exists_barred_of_infix {segs : List (List Char)} (hsep : ∀ segment ∈ segs, '/' ∉ segment)
    (h : ['|', '/'] <:+: joined segs) : ∃ segment ∈ segs.dropLast, segment.getLast? = some '|' := by
  induction segs with
  | nil => exact absurd h.length_le (by simp [joined])
  | cons segment segs ih =>
    obtain ⟨hsegment, hsegs⟩ := List.forall_mem_cons.1 hsep
    cases segs with
    | nil => exact absurd (h.subset (by simp)) hsegment
    | cons next segs =>
      rw [joined_cons_cons] at h
      rw [List.dropLast_cons_cons]
      rcases infix_append_separator hsegment h with hlast | hrest
      · exact ⟨segment, List.mem_cons_self, hlast⟩
      · obtain ⟨barred, hbarred, hlast⟩ := ih hsegs hrest
        exact ⟨barred, List.mem_cons_of_mem segment hbarred, hlast⟩

/-- A plain path is legible. -/
theorem Plain.legible {p : Path} (h : p.Plain) : Legible p.chars := by
  obtain ⟨⟨place, hplace, rfl⟩, hunbarred⟩ := h
  rw [chars_pathOf]
  refine ⟨⟨_, rfl⟩, fun hinfix => ?_⟩
  -- The bar cannot stand in front of the root, so it stands between two names.
  rcases @infix_append_separator [] _ List.not_mem_nil hinfix with hlast | hinfix
  · cases hlast
  · obtain ⟨barred, hbarred, hlast⟩ := exists_barred_of_infix
      (fun segment hsegment => by
        obtain ⟨name, hname, rfl⟩ := List.mem_map.1 hsegment
        exact (hplace name hname).2.2) hinfix
    rw [← List.map_dropLast] at hbarred
    obtain ⟨name, hname, rfl⟩ := List.mem_map.1 hbarred
    refine hunbarred (.name name) ?_ hlast
    rw [components_pathOf hplace, List.dropLast_cons_of_ne_nil, ← List.map_dropLast]
    · exact List.mem_cons_of_mem _ (List.mem_map_of_mem hname)
    · rintro hnil
      rw [List.map_eq_nil_iff] at hnil
      subst hnil
      cases hname

end Path

/-! ### Keys -/

namespace Graph

/-- The spellings that stand in a key. -/
def Cycle.parts (c : Cycle) : List String :=
  ((c.files.map (·.spelling)).mergeSort fun a b => decide (a ≤ b)).eraseDups

/-- All the files of a cycle have plain paths. -/
def Cycle.Plain (c : Cycle) : Prop :=
  ∀ f ∈ c.files, f.Plain

variable {c c' : Cycle}

/-- The parts of the key are the spellings of the files. -/
theorem mem_parts {spelling : String} :
    spelling ∈ c.parts ↔ spelling ∈ c.files.map (·.spelling) := by
  rw [Cycle.parts, List.mem_eraseDups, List.mem_mergeSort]

/-- Taking out what is repeated keeps the order, and what is left differs. -/
theorem pairwise_eraseDups {R : String → String → Prop} {l : List String} (h : l.Pairwise R) :
    l.eraseDups.Pairwise fun a b => R a b ∧ a ≠ b := by
  induction hlength : l.length using Nat.strongRecOn generalizing l with
  | ind n ih =>
    cases l with
    | nil => exact List.Pairwise.nil
    | cons a l =>
      obtain ⟨ha, hl⟩ := List.pairwise_cons.1 h
      rw [List.eraseDups_cons, List.pairwise_cons]
      refine ⟨fun b hb => ?_, ih _ ?_ (hl.filter _) rfl⟩
      · rw [List.mem_eraseDups, List.mem_filter] at hb
        exact ⟨ha b hb.1, fun hab => by simp [hab] at hb⟩
      · rw [← hlength, List.length_cons]
        exact Nat.lt_succ_of_le (List.length_filter_le _ l)

/-- The parts come in strictly increasing order. -/
theorem pairwise_parts (c : Cycle) : c.parts.Pairwise fun a b => a ≤ b ∧ a ≠ b := by
  apply pairwise_eraseDups
  apply (List.pairwise_mergeSort ?_ ?_ _).imp (fun h => of_decide_eq_true h)
  · intro a b c hab hbc
    exact decide_eq_true (String.le_trans (of_decide_eq_true hab) (of_decide_eq_true hbc))
  · intro a b
    simpa using String.le_total a b

/-- The parts of a key are the spellings of the files in strict order. -/
theorem parts_eq {l : List String} (hl : l.Pairwise fun a b => a ≤ b ∧ a ≠ b)
    (hmem : ∀ s, s ∈ c.files.map (·.spelling) ↔ s ∈ l) : c.parts = l := by
  have hantisymm : Std.Antisymm fun a b : String => a ≤ b ∧ a ≠ b :=
    ⟨fun a b hab hba => String.le_antisymm hab.1 hba.1⟩
  have hirrefl : Std.Irrefl fun a b : String => a ≤ b ∧ a ≠ b := ⟨fun a haa => haa.2 rfl⟩
  exact (pairwise_parts c).eq_of_mem_iff hl fun s => mem_parts.trans (hmem s)

/-- Two cycles have the same parts if they have the same spellings. -/
theorem parts_eq_iff :
    c.parts = c'.parts ↔ ∀ s, s ∈ c.files.map (·.spelling) ↔ s ∈ c'.files.map (·.spelling) := by
  constructor
  · intro h s
    rw [← mem_parts, h, mem_parts]
  · intro h
    exact parts_eq (pairwise_parts c') fun s => (h s).trans mem_parts.symm

/-- The key is the parts with bars between them. -/
theorem key_eq_intercalate (c : Cycle) : c.key = "|".intercalate c.parts := rfl

/-- Plain cycles have the same key only if they have the same parts. -/
theorem key_eq_iff_parts_eq (hc : c.Plain) (hc' : c'.Plain) :
    c.key = c'.key ↔ c.parts = c'.parts := by
  have hlegible : ∀ {c : Cycle}, c.Plain → ∀ s ∈ c.parts.map String.toList, Legible s := by
    intro c hc s hs
    obtain ⟨spelling, hspelling, rfl⟩ := List.mem_map.1 hs
    obtain ⟨f, hf, rfl⟩ := List.mem_map.1 (mem_parts.1 hspelling)
    exact (hc f hf).legible
  constructor
  · intro h
    have htexts := congrArg String.toList h
    rw [key_eq_intercalate, key_eq_intercalate, String.toList_intercalate,
      String.toList_intercalate] at htexts
    have hinjective : Function.Injective String.toList := fun _ _ => String.toList_inj.1
    exact hinjective.list_map (eq_of_intercalate_eq (hlegible hc) (hlegible hc') htexts)
  · intro h
    rw [key_eq_intercalate, key_eq_intercalate, h]

/-- A cycle over plain paths has the files that it lists. -/
theorem listed_iff_mem_spellings (hc : c.Plain) {f : Path} (hf : f.Canonical) :
    f.Listed c.files ↔ f.spelling ∈ c.files.map (·.spelling) := by
  have hinjective : Function.Injective Path.spelling := fun _ _ => Path.ext_spelling
  rw [List.mem_map_of_injective hinjective]
  constructor
  · rintro ⟨q, hq, hsame⟩
    rwa [← (hc q hq).canonical.eq_of_same hf hsame]
  · exact listed_of_mem

/-- **Keys.** Cycles over plain paths have the same key exactly when they have the same files. -/
theorem key_eq_iff_sameFiles (hc : c.Plain) (hc' : c'.Plain) : c.key = c'.key ↔ c.SameFiles c' := by
  rw [key_eq_iff_parts_eq hc hc', parts_eq_iff]
  constructor
  · intro h x
    -- Whatever spelling of a file is asked for, the cycles have the canonical one.
    have htransfer : ∀ {c c' : Cycle}, c.Plain → c'.Plain →
        (∀ s, s ∈ c.files.map (·.spelling) → s ∈ c'.files.map (·.spelling)) → x.Listed c.files →
          x.Listed c'.files := by
      rintro c c' hc hc' hsub ⟨q, hq, hsame⟩
      have hq' :=
        (listed_iff_mem_spellings hc' (hc q hq).canonical).2 (hsub _ (List.mem_map_of_mem hq))
      exact (listed_congr hsame).1 hq'
    exact ⟨htransfer hc hc' fun s => (h s).1, htransfer hc' hc fun s => (h s).2⟩
  · intro h s
    have htransfer : ∀ {c c' : Cycle}, c.Plain → c'.Plain →
        (∀ x : Path, x.Listed c.files → x.Listed c'.files) → s ∈ c.files.map (·.spelling) →
        s ∈ c'.files.map (·.spelling) := by
      intro c c' hc hc' hsub hs
      obtain ⟨f, hf, rfl⟩ := List.mem_map.1 hs
      exact (listed_iff_mem_spellings hc' (hc f hf).canonical).1 (hsub f (listed_of_mem hf))
    exact ⟨htransfer hc hc' fun x => (h x).1, htransfer hc' hc fun x => (h x).2⟩

/-! ### What the search meets -/

/-- The search with a cycle taken down, whether one with its key was or not. -/
def CycleSearch.meet (s : CycleSearch) (c : Cycle) : CycleSearch :=
  { s with keys := c.key :: s.keys, found := c :: s.found }

/-- The search after all the imports of the last file of a trail, when it takes down every cycle
    that it meets. -/
def meetCycles (g : Graph) :
    (fuel : Nat) → (file : Path) → (trail : List Path) → CycleSearch → CycleSearch
  | 0, _, _, s => s
  | fuel + 1, file, trail, s =>
    let trail := file :: trail
    (g.knownDependencies file).foldl
      (fun s dep =>
        if !s.visited.contains dep then g.meetCycles fuel dep trail (s.visit dep)
        else if trail.any fun q => decide (q.Same dep) then s.meet ⟨loopFrom trail dep ++ [dep]⟩
        else s)
      s

/-- The same from a file that was not visited before. -/
def meetFrom (g : Graph) (s : CycleSearch) (p : Path) : CycleSearch :=
  if s.visited.contains p then s else g.meetCycles g.size p [] (s.visit p)

/-- All the cycles that the search meets, in the order of meeting them. -/
def metCycles (g : Graph) : List Cycle :=
  ((g.files.map (·.path)).foldl g.meetFrom .start).found.reverse

/-- What is kept of some cycles when they are recorded one by one. -/
def kept (met : List Cycle) : CycleSearch :=
  met.foldl CycleSearch.record .start

/-- The search that keeps of the cycles taken down what is kept when they are recorded one by
    one. -/
def CycleSearch.sifted (s : CycleSearch) : CycleSearch :=
  { kept s.found.reverse with visited := s.visited }

variable {g : Graph} {s : CycleSearch} {file dep : Path} {trail order deps : List Path}

/-- Recording a cycle does not look at what is visited. -/
theorem record_with_visited (s : CycleSearch) (visited : PathSet) (c : Cycle) :
    { s with visited }.record c = { s.record c with visited } := by
  unfold CycleSearch.record
  dsimp only
  split
  · rfl
  · rfl

/-- Sifting after one more cycle was met is recording that cycle. -/
theorem sifted_meet (s : CycleSearch) (c : Cycle) : (s.meet c).sifted = s.sifted.record c := by
  have hkept : kept (s.meet c).found.reverse = (kept s.found.reverse).record c := by
    rw [kept, CycleSearch.meet, List.reverse_cons, List.foldl_append]
    rfl
  rw [CycleSearch.sifted, CycleSearch.sifted, record_with_visited, hkept]
  rfl

/-- The search after one import of the file on top of the stack, when it takes down every cycle that
    it meets. -/
def meetAt (g : Graph) (fuel : Nat) (stack : List Path) (s : CycleSearch) (dep : Path) :
    CycleSearch :=
  if !s.visited.contains dep then g.meetCycles fuel dep stack (s.visit dep)
  else if stack.any fun q => decide (q.Same dep) then s.meet ⟨loopFrom stack dep ++ [dep]⟩
  else s

/-- One round of the search that keeps every cycle. -/
theorem meetCycles_succ (g : Graph) (fuel : Nat) (file : Path) (trail : List Path)
    (s : CycleSearch) :
    g.meetCycles (fuel + 1) file trail s
      = (g.knownDependencies file).foldl (g.meetAt fuel (file :: trail)) s :=
  rfl

/-- **Sifting.** The search goes the same way whether it drops cycles or not, and keeps what is kept
    when the cycles that it meets are recorded one by one. -/
theorem searchCycles_sifted (g : Graph) (fuel : Nat) (file : Path) (trail : List Path)
    (s : CycleSearch) :
    g.searchCycles fuel file trail s.sifted = (g.meetCycles fuel file trail s).sifted := by
  induction fuel generalizing file trail s with
  | zero => rfl
  | succ fuel ih =>
    rw [searchCycles_succ, meetCycles_succ]
    apply List.foldl_hom
    intro s dep
    unfold lookAt meetAt
    rw [show s.sifted.visited = s.visited from rfl]
    split
    · exact ih dep (file :: trail) (s.visit dep)
    · split
      · exact (sifted_meet s _).symm
      · rfl

/-- The reported cycles are the met ones, each key once. -/
theorem cycles_eq_sifted (g : Graph) : g.cycles = (kept g.metCycles).found.reverse := by
  have hrun : (g.files.map (·.path)).foldl g.searchFrom CycleSearch.start.sifted
      = ((g.files.map (·.path)).foldl g.meetFrom .start).sifted := by
    apply List.foldl_hom
    intro s p
    unfold searchFrom meetFrom
    rw [show s.sifted.visited = s.visited from rfl]
    split
    · rfl
    · exact g.searchCycles_sifted g.size p [] (s.visit p)
  exact congrArg (·.found.reverse) hrun

/-! ### Among plain paths nothing is dropped -/

/-- All the paths that the search comes to are plain. -/
structure PlainlyNamed (g : Graph) : Prop where
  files : ∀ node ∈ g.files, node.path.Plain
  dependencies : ∀ a, ∀ b ∈ g.knownDependencies a, b.Plain

/-- In a graph that analyses made, it is enough to look at the imports of the analysed files. -/
theorem plainlyNamed_of_consistent (hg : g.Consistent) (hfiles : ∀ node ∈ g.files, node.path.Plain)
    (hknown : ∀ node ∈ g.files, ∀ b ∈ g.knownDependencies node.path, b.Plain) : g.PlainlyNamed where
  files := hfiles
  dependencies a b hb := by
    obtain ⟨himports, -⟩ := listed_knownDependencies.1 (listed_of_mem hb)
    obtain ⟨p, hp, hsame⟩ := listed_files.2 (hg.analysed a b himports)
    obtain ⟨node, hnode, rfl⟩ := List.mem_map.1 hp
    refine hknown node hnode b ?_
    rwa [knownDependencies, dependenciesOf, dependenciesOf?, g.dependencies.get?_congr hsame]

/-- All the paths on a stack and in the cycles found are plain. -/
structure CycleSearch.PlainOn (s : CycleSearch) (stack : List Path) : Prop where
  stack : ∀ f ∈ stack, f.Plain
  found : ∀ c ∈ s.found, c.Plain

/-- A loop through plain files is plain. -/
theorem CycleSearch.PlainOn.loop (h : s.PlainOn trail) (hdep : dep.Plain) :
    Cycle.Plain ⟨loopFrom trail dep ++ [dep]⟩ := by
  intro f hf
  rcases List.mem_append.1 hf with hf | hf
  · refine h.stack f ?_
    rw [loopFrom, List.mem_reverse, List.mem_append] at hf
    rcases hf with hf | hf
    · exact List.takeWhile_subset _ hf
    · exact List.mem_of_mem_drop (List.mem_of_mem_take hf)
  · obtain rfl := List.mem_singleton.1 hf
    exact hdep

/-- Recording a plain cycle leaves plain cycles. -/
theorem CycleSearch.PlainOn.record (h : s.PlainOn trail) (hc : c.Plain) :
    (s.record c).PlainOn trail := by
  refine ⟨h.stack, fun c' hc' => ?_⟩
  unfold CycleSearch.record at hc'
  split at hc'
  · exact h.found c' hc'
  · rcases List.mem_cons.1 hc' with rfl | hc'
    · exact hc
    · exact h.found c' hc'

/-- Looking at a link leads to plain paths only, if the search behind it does. -/
theorem lookAt_plainOn {fuel : Nat}
    (hsearch : ∀ {file trail s}, s.PlainOn (file :: trail) →
      (g.searchCycles fuel file trail s).PlainOn (file :: trail))
    (h : s.PlainOn trail) (hdep : dep.Plain) : (g.lookAt fuel trail s dep).PlainOn trail := by
  unfold lookAt
  split
  · have hpush : (s.visit dep).PlainOn (dep :: trail) :=
      ⟨List.forall_mem_cons.2 ⟨hdep, h.stack⟩, h.found⟩
    exact ⟨h.stack, (hsearch hpush).found⟩
  · split
    · exact h.record (h.loop hdep)
    · exact h

/-- The search of a file finds plain cycles only. -/
theorem searchCycles_plainOn (hg : g.PlainlyNamed) (fuel : Nat) (h : s.PlainOn (file :: trail)) :
    (g.searchCycles fuel file trail s).PlainOn (file :: trail) := by
  induction fuel generalizing file trail s with
  | zero => exact h
  | succ fuel ih =>
    rw [searchCycles_succ]
    refine List.foldlRecOn (motive := fun s : CycleSearch => s.PlainOn (file :: trail)) _ _ h
      fun s hs dep hdep => ?_
    exact lookAt_plainOn ih hs (hg.dependencies file dep hdep)

/-- The search is at `file`, and the links to `deps` are still to be looked at. -/
structure Awaits (g : Graph) (s : CycleSearch) (file : Path) (trail order deps : List Path) :
    Prop where
  standing : g.Standing s (file :: trail) order
  apart : s.Apart
  untaken : s.Untaken file deps
  plain : s.PlainOn (file :: trail)

/-- No link of a file was looked at when the search comes to it. -/
theorem awaits_of_new {stack : List Path} (h : g.Standing s stack order) (hapart : s.Apart)
    (hplain : s.PlainOn stack) (hnew : ¬s.visited.contains dep = true)
    (hcontains : g.contains dep = true) (hlink : ∀ top ∈ stack.head?, g.Link top dep)
    (hdep : dep.Plain) (deps : List Path) : g.Awaits (s.visit dep) dep stack order deps where
  standing := h.push hnew hcontains hlink
  apart := hapart
  untaken := h.untaken hnew deps
  plain := ⟨List.forall_mem_cons.2 ⟨hdep, hplain.stack⟩, hplain.found⟩

/-- A link that leads back into the stack closes a cycle with new files, and so with a new key. -/
theorem Awaits.record_eq_meet (h : g.Awaits s file trail order (dep :: deps))
    (hlink : g.Link file dep) (hdep : dep.Listed (file :: trail)) (hplain : dep.Plain) :
    s.record ⟨loopFrom (file :: trail) dep ++ [dep]⟩
      = s.meet ⟨loopFrom (file :: trail) dep ++ [dep]⟩ := by
  have hstanding := h.standing
  obtain ⟨body, hfront, hloop⟩ :=
    loop_of_stack (distinct_append.1 hstanding.distinct).1 hstanding.linked hlink hdep
  have hnew : ¬s.keys.contains (Cycle.key ⟨loopFrom (file :: trail) dep ++ [dep]⟩) = true := by
    intro hkey
    rw [List.contains_iff_mem, hstanding.keys_eq] at hkey
    obtain ⟨c', hc', hkey⟩ := List.mem_map.1 hkey
    have hfiles := (key_eq_iff_sameFiles (h.plain.loop hplain) (h.plain.found c' hc')).1 hkey.symm
    exact h.untaken c' hc' dep List.mem_cons_self (hstanding.closed_before hfront hloop hc' hfiles)
  exact if_neg hnew

/-- The search with `fuel` drops none of the cycles that it meets. -/
def DropsNothing (g : Graph) (fuel : Nat) : Prop :=
  ∀ {file : Path} {trail : List Path} {s : CycleSearch} {order : List Path},
    (∀ deps, g.Awaits s file trail order deps) → g.size ≤ fuel + trail.length →
    g.searchCycles fuel file trail s = g.meetCycles fuel file trail s

/-- **One link.** The search does there what it would do if it took down every cycle that it
    meets. -/
theorem Awaits.lookAt_eq {fuel : Nat} (h : g.Awaits s file trail order (dep :: deps))
    (hdrops : g.DropsNothing fuel) (hfuel : g.size ≤ fuel + 1 + trail.length)
    (hlink : g.Link file dep) (hplain : dep.Plain) :
    g.lookAt fuel (file :: trail) s dep = g.meetAt fuel (file :: trail) s dep := by
  unfold lookAt meetAt
  split
  case isTrue hnew =>
    have hnew : ¬s.visited.contains dep = true := by simpa using hnew
    refine hdrops (awaits_of_new h.standing h.apart h.plain hnew hlink.2.1 ?_ hplain) ?_
    · intro top htop
      cases htop
      exact hlink
    · rw [List.length_cons]
      omega
  case isFalse =>
    by_cases hstack : dep.Listed (file :: trail)
    · -- The link closes a loop: no reported cycle has its files, so its key is new.
      rw [if_pos (by simpa [Listed] using hstack), if_pos (by simpa [Listed] using hstack)]
      exact h.record_eq_meet hlink hstack hplain
    · rw [if_neg (by simpa [Listed] using hstack), if_neg (by simpa [Listed] using hstack)]

/-- After a link was looked at, the others still are to be. -/
theorem Awaits.next {fuel : Nat} (hg : g.PlainlyNamed)
    (h : g.Awaits s file trail order (dep :: deps)) (hfuel : g.size ≤ fuel + 1 + trail.length)
    (hlink : g.Link file dep) (hplain : dep.Plain) (hother : ∀ dep' ∈ deps, ¬dep.Same dep') :
    ∃ order', g.Awaits (g.lookAt fuel (file :: trail) s dep) file trail order' deps := by
  have hkeeps : g.KeepsApart fuel := g.searchCycles_apart fuel
  obtain ⟨order', honward, -⟩ := lookAt_onward (g.searchCycles_finishes fuel) hfuel hlink h.standing
  refine ⟨order', honward.standing, ?_, ?_, ?_⟩
  · exact (lookAt_apart hkeeps hfuel hlink h.standing h.apart
      fun c hc => h.untaken c hc dep List.mem_cons_self).1
  · exact lookAt_untaken hkeeps hfuel hlink h.standing h.apart hother h.untaken
  · exact lookAt_plainOn (searchCycles_plainOn hg fuel) h.plain hplain

/-- **The links of one file.** So it does at all of them. -/
theorem Awaits.foldl_eq {fuel : Nat} (hg : g.PlainlyNamed) (hdrops : g.DropsNothing fuel)
    (hfuel : g.size ≤ fuel + 1 + trail.length) (hdistinct : Distinct deps)
    (hlinks : ∀ dep ∈ deps, g.Link file dep) (hplain : ∀ dep ∈ deps, dep.Plain)
    (h : g.Awaits s file trail order deps) :
    deps.foldl (g.lookAt fuel (file :: trail)) s
      = deps.foldl (g.meetAt fuel (file :: trail)) s := by
  induction deps generalizing s order with
  | nil => rfl
  | cons dep deps ih =>
    obtain ⟨hother, hdistinct⟩ := List.pairwise_cons.1 hdistinct
    obtain ⟨hlink, hlinks⟩ := List.forall_mem_cons.1 hlinks
    obtain ⟨hdep, hplain⟩ := List.forall_mem_cons.1 hplain
    obtain ⟨order', hnext⟩ := h.next hg hfuel hlink hdep hother
    rw [List.foldl_cons, List.foldl_cons, ← h.lookAt_eq hdrops hfuel hlink hdep]
    exact ih hdistinct hlinks hplain hnext

/-- Among plain files, the search drops no cycle that it meets. -/
theorem dropsNothing (hg : g.PlainlyNamed) (fuel : Nat) : g.DropsNothing fuel := by
  induction fuel with
  | zero => exact fun _ _ => rfl
  | succ fuel ih =>
    intro file trail s order h hfuel
    have hfile : g.contains file = true := (h []).standing.analysed file (by simp)
    rw [searchCycles_succ, meetCycles_succ]
    exact (h _).foldl_eq hg ih hfuel (g.distinct_knownDependencies file)
      (fun dep hdep => link_of_mem_knownDependencies hfile hdep) (hg.dependencies file)

/-- Nor does the search from one file after the other. -/
theorem foldl_searchFrom_eq {roots : List Path} (hg : g.PlainlyNamed)
    (hroots : ∀ p ∈ roots, g.contains p = true) (hplain : ∀ p ∈ roots, p.Plain)
    (h : g.Standing s [] order) (hapart : s.Apart) (hs : s.PlainOn []) :
    roots.foldl g.searchFrom s = roots.foldl g.meetFrom s := by
  induction roots generalizing s order with
  | nil => rfl
  | cons p roots ih =>
    obtain ⟨hp, hroots⟩ := List.forall_mem_cons.1 hroots
    obtain ⟨hpplain, hplain⟩ := List.forall_mem_cons.1 hplain
    have hawaits : ¬s.visited.contains p = true → ∀ deps, g.Awaits (s.visit p) p [] order deps :=
      fun hnew =>
      awaits_of_new h hapart hs hnew hp (fun top htop => absurd htop (by simp)) hpplain
    -- Both searches start from `p` alike, and `p` leaves them where the next root needs them.
    have hfirst : g.searchFrom s p = g.meetFrom s p := by
      unfold searchFrom meetFrom
      split
      case isTrue => rfl
      case isFalse hnew => exact dropsNothing hg g.size (hawaits hnew) (by simp)
    have hnext : (g.searchFrom s p).PlainOn [] := by
      unfold searchFrom
      split
      case isTrue => exact hs
      case isFalse hnew =>
        exact ⟨by simp, (searchCycles_plainOn hg g.size (hawaits hnew []).plain).found⟩
    obtain ⟨order', honward, -⟩ := searchFrom_onward hp h
    rw [List.foldl_cons, List.foldl_cons, ← hfirst]
    exact ih hroots hplain honward.standing (searchFrom_apart hp h hapart) hnext

/-- **Nothing is dropped** among plain paths. -/
theorem cycles_eq_metCycles (hg : g.PlainlyNamed) : g.cycles = g.metCycles := by
  have hfiles : ∀ p ∈ g.files.map (·.path), p.Plain := by
    intro p hp
    obtain ⟨node, hnode, rfl⟩ := List.mem_map.1 hp
    exact hg.files node hnode
  have hrun :=
    foldl_searchFrom_eq hg (fun p hp => listed_files.1 (listed_of_mem hp)) hfiles g.standing_start
    List.Pairwise.nil ⟨by simp, by simp [CycleSearch.start]⟩
  exact congrArg (·.found.reverse) hrun

/-- **What keys tell.** Cycles over canonical paths, by way of no directory whose name ends in a
    bar, have the same key exactly when they have the same files. In every graph the cycles that are
    found are what is kept of those that the search meets when they are recorded one by one; if its
    paths are as above, these are all of them, so that no cycle is dropped for one over other
    files. -/
theorem key_tells_files (g : Graph) (c c' : Cycle) :
    (c.Plain → c'.Plain → (c.key = c'.key ↔ c.SameFiles c')) ∧
    g.cycles = (g.metCycles.foldl CycleSearch.record .start).found.reverse ∧
    (g.PlainlyNamed → g.cycles = g.metCycles) :=
  ⟨key_eq_iff_sameFiles, g.cycles_eq_sifted, cycles_eq_metCycles⟩

namespace Sample

/-- A cycle with bars inside the names of its files. -/
def barred : Cycle :=
  ⟨[.ofString "/p/a|b.ts", .ofString "/p/|x/c.ts", .ofString "/p/a|b.ts"]⟩

/-- The same cycle from its other file on. -/
def rotated : Cycle :=
  ⟨[.ofString "/p/|x/c.ts", .ofString "/p/a|b.ts", .ofString "/p/|x/c.ts"]⟩

/-- The files of that cycle. -/
def barredFiles : List Edit :=
  [.add (fileAt "/p/a|b.ts" ["/p/|x/c.ts"]), .add (fileAt "/p/|x/c.ts" ["/p/a|b.ts"])]

/-- Bars inside the names do no harm. -/
theorem key_tells_files_barred :
    (barred.Plain ∧ rotated.Plain ∧ (barred.key = rotated.key ↔ barred.SameFiles rotated)) ∧
    (replay (.ofString "/p") barredFiles).PlainlyNamed ∧
    (replay (.ofString "/p") barredFiles).cycles = (replay (.ofString "/p") barredFiles).metCycles ∧
    (replay (.ofString "/p") barredFiles).metCycles = [barred] := by
  have hfirst : (ofString "/p/a|b.ts").Plain :=
    ⟨⟨["p", "a|b.ts"], by decide, by decide⟩, by decide +kernel⟩
  have hsecond : (ofString "/p/|x/c.ts").Plain :=
    ⟨⟨["p", "|x", "c.ts"], by decide, by decide⟩, by decide +kernel⟩
  have hbarred : barred.Plain := by simp [Cycle.Plain, barred, hfirst, hsecond]
  have hrotated : rotated.Plain := by simp [Cycle.Plain, rotated, hfirst, hsecond]
  have hplain : (replay (.ofString "/p") barredFiles).PlainlyNamed := by
    have hpaths : ∀ node ∈ (replay (.ofString "/p") barredFiles).files, node.path ∈ barred.files ∧
        ∀ b ∈ (replay (.ofString "/p") barredFiles).knownDependencies node.path,
          b ∈ barred.files := by decide +kernel
    exact plainlyNamed_of_consistent (consistent_replay _ _)
      (fun node hnode => hbarred _ (hpaths node hnode).1) fun node hnode b hb =>
        hbarred b ((hpaths node hnode).2 b hb)
  obtain ⟨hkeys, -, hcycles⟩ := key_tells_files (replay (.ofString "/p") barredFiles) barred rotated
  exact ⟨⟨hbarred, hrotated, hkeys hbarred hrotated⟩, hplain, hcycles hplain, by decide +kernel⟩

/-- A cycle of two files. -/
def pair : Cycle :=
  ⟨[.ofString "/p/a.ts", .ofString "/p/b.ts", .ofString "/p/a.ts"]⟩

/-- A file that imports itself.  The name of its directory ends in a bar. -/
def alone : Cycle :=
  ⟨[.ofString "/p/a.ts|/p/b.ts", .ofString "/p/a.ts|/p/b.ts"]⟩

/-- The files of both cycles. -/
def confused : List Edit :=
  [.add (fileAt "/p/a.ts" ["/p/b.ts"]), .add (fileAt "/p/b.ts" ["/p/a.ts"]),
    .add (fileAt "/p/a.ts|/p/b.ts" ["/p/a.ts|/p/b.ts"])]

/-- **A lost cycle.** Two cycles over canonical paths have the same key but not the same files, and
    in a graph that has both only one is found. -/
theorem key_confuses :
    (∀ f ∈ pair.files ++ alone.files, f.Canonical) ∧ pair.key = alone.key ∧ ¬pair.SameFiles alone ∧
    (replay (.ofString "/p") confused).metCycles = [pair, alone] ∧
    (replay (.ofString "/p") confused).cycles = [pair] := by
  -- The two spellings of `pair` with a bar between them are the one spelling of `alone`.
  have hkey : pair.key = alone.key := by
    have hpair : pair.parts = ["/p/a.ts", "/p/b.ts"] :=
      parts_eq (by decide) (by simp [pair, ofString]; tauto)
    have halone : alone.parts = ["/p/a.ts|/p/b.ts"] :=
      parts_eq (by decide) (by simp [alone, ofString])
    rw [key_eq_intercalate, key_eq_intercalate, hpair, halone]
    decide
  have hmet : (replay (.ofString "/p") confused).metCycles = [pair, alone] := by decide +kernel
  refine ⟨?_, hkey, fun hfiles => ?_, hmet, ?_⟩
  · have hfirst : (ofString "/p/a.ts").Canonical := ⟨["p", "a.ts"], by decide, by decide⟩
    have hsecond : (ofString "/p/b.ts").Canonical := ⟨["p", "b.ts"], by decide, by decide⟩
    have halone : (ofString "/p/a.ts|/p/b.ts").Canonical :=
      ⟨["p", "a.ts|", "p", "b.ts"], by decide, by decide⟩
    simp [pair, alone, hfirst, hsecond, halone]
  · have hlisted : ¬(ofString "/p/a.ts").Listed alone.files := by decide +kernel
    exact hlisted ((hfiles _).1 (listed_of_mem List.mem_cons_self))
  · rw [cycles_eq_sifted, hmet]
    simp [kept, CycleSearch.record, CycleSearch.start, hkey]

end Sample

end Graph

end BlastRadius
