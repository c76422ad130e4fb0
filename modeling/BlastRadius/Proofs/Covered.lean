import BlastRadius.Proofs.Order
import BlastRadius.Proofs.SimpleCycles

namespace BlastRadius.Graph

/-!
# Which files the found cycles go through

A file may lie on a cycle and be on none that is found: the search comes to it when the file behind
it is finished, and a link to a finished file closes no cycle. But the search does not miss the
surroundings of the file.

* `Meshed` — two files can be reached from each other; `ClosedWalk.meshed` — the files of a walk
  around can.
* `exists_meshed_cycle` — every file on a cycle is meshed with the files of a cycle that is found.
* `Cycle.SharesStep`, `ClosedWalk.exists_sharing` — every walk around shares a step with a cycle
  that is found.
* `cycles_cover` — a file that no cycle with such a step avoids is on a found cycle, and so are two
  files with imports of each other; `Sample.cycles_miss` — a file that is missed.
-/

open BlastRadius.Path

variable {g : Graph} {c : Cycle} {body files : List Path} {dep x y : Path}

/-! ### Files that can be reached from each other -/

/-- Two files can be reached from each other along imports of analysed files. -/
def Meshed (g : Graph) (x y : Path) : Prop :=
  Relation.TransGen g.Link x y ∧ Relation.TransGen g.Link y x

/-- Where links lead does not hang on how the ends are spelled. -/
theorem transGen_congr {x' y' : Path} (h : Relation.TransGen g.Link x y) (hx : x.Same x')
    (hy : y.Same y') : Relation.TransGen g.Link x' y' := by
  obtain ⟨z, hlink, hway⟩ := Relation.TransGen.head'_iff.1 h
  have hstart : Relation.TransGen g.Link x' y := .head' ((link_congr hx (Same.refl z)).1 hlink) hway
  obtain ⟨z', hway', hlink'⟩ := Relation.TransGen.tail'_iff.1 hstart
  exact .tail' hway' ((link_congr (Same.refl z') hy).1 hlink')

/-- Files meshed with a third one are meshed. -/
theorem Meshed.trans {z : Path} (h : g.Meshed x y) (h' : g.Meshed y z) : g.Meshed x z :=
  ⟨h.1.trans h'.1, h'.2.trans h.2⟩

/-- Being meshed does not hang on the spelling. -/
theorem Meshed.congr_right {y' : Path} (h : g.Meshed x y) (hy : y.Same y') : g.Meshed x y' :=
  ⟨transGen_congr h.1 (Same.refl x) hy, transGen_congr h.2 hy (Same.refl x)⟩

/-- The first file of a walk leads to all its files. -/
theorem reaches_of_first {first : Path} {rest : List Path} (h : (first :: rest).IsChain g.Link)
    (hy : y ∈ first :: rest) : Relation.ReflTransGen g.Link first y := by
  induction rest generalizing first with
  | nil =>
    obtain rfl := List.mem_singleton.1 hy
    exact .refl
  | cons next rest ih =>
    obtain ⟨hlink, hrest⟩ := List.isChain_cons_cons.1 h
    rcases List.mem_cons.1 hy with rfl | hy
    · exact .refl
    · exact (ih hrest hy).head hlink

/-- All files of a walk lead to its last one. -/
theorem reaches_last {front : List Path} {last : Path} (h : (front ++ [last]).IsChain g.Link)
    (hy : y ∈ front ++ [last]) : Relation.ReflTransGen g.Link y last := by
  have hchain : (last :: front.reverse).IsChain fun a b => g.Link b a := by
    rw [← List.reverse_concat, List.isChain_reverse]
    exact h
  have hmem : y ∈ last :: front.reverse := by
    rw [← List.reverse_concat, List.mem_reverse]
    exact hy
  exact reaches_top hchain hmem

/-- A walk around leads from every file to every file, itself included. -/
theorem ClosedWalk.transGen (h : g.ClosedWalk files) (hx : x ∈ files) (hy : y ∈ files) :
    Relation.TransGen g.Link x y := by
  match files, h with
  | [], h => exact absurd h.long (by simp)
  | [first], h => exact absurd h.long (by simp)
  | first :: next :: rest, h =>
    obtain ⟨front, last, hfiles⟩ :=
      (List.eq_nil_or_concat' (first :: next :: rest)).resolve_left (by simp)
    have hsame : last.Same first := h.closed first rfl last (by rw [hfiles]; simp)
    obtain ⟨hlink, hrest⟩ := List.isChain_cons_cons.1 h.linked
    have hlast : last ∈ next :: rest := by
      have hmem : last ∈ (front ++ [last]).tail ∨ front = [] := by
        cases front <;> simp
      rw [← hfiles] at hmem
      exact hmem.resolve_right (by rintro rfl; simp at hfiles)
    -- Once around from the last file, which is the first one again.
    have haround : Relation.TransGen g.Link last first :=
      transGen_congr (.head' hlink (reaches_of_first hrest hlast)) hsame.symm hsame
    have hto : Relation.ReflTransGen g.Link x last := by
      rw [hfiles] at hx
      exact reaches_last (hfiles ▸ h.linked) hx
    exact (haround.trans_right hto).trans_left (reaches_of_first h.linked hy)

/-- The files of a closed walk are meshed with one another. -/
theorem ClosedWalk.meshed (h : g.ClosedWalk files) (hx : x ∈ files) (hy : y ∈ files) :
    g.Meshed x y :=
  ⟨h.transGen hx hy, h.transGen hy hx⟩

/-- A file that links lead back to lies on a closed walk. -/
theorem exists_closedWalk (h : Relation.TransGen g.Link x x) :
    ∃ files, g.ClosedWalk files ∧ x ∈ files := by
  obtain ⟨next, hlink, hway⟩ := Relation.TransGen.head'_iff.1 h
  obtain ⟨rest, hrest, hlast⟩ := List.exists_isChain_cons_of_relationReflTransGen hway
  refine ⟨x :: next :: rest, ⟨List.isChain_cons_cons.2 ⟨hlink, hrest⟩, by simp, ?_⟩,
    List.mem_cons_self⟩
  rintro first ⟨⟩ last hend
  rw [List.getLast?_cons_cons, List.getLast?_eq_some_getLast (List.cons_ne_nil _ _), hlast] at hend
  cases hend
  exact Same.refl x

/-- A found cycle is a walk around. -/
theorem closedWalk_of_mem_cycles (hc : c ∈ g.cycles) : g.ClosedWalk c.files := by
  obtain ⟨body, dep, hloop⟩ := exists_loop_of_mem_cycles hc
  have hsimple := hloop.simpleIn
  refine ⟨hloop.isChain_files, hsimple.long, fun first hfirst last hlast => ?_⟩
  obtain ⟨first', last', hfirst', hlast', hsame⟩ := hsimple.closed
  cases hfirst.symm.trans hfirst'
  cases hlast.symm.trans hlast'
  exact hsame.symm

/-! ### Steps that cycles share -/

/-- A walk goes from one file directly to another. -/
def Takes (files : List Path) (x y : Path) : Prop :=
  ∃ a b, [a, b] <:+: files ∧ a.Same x ∧ b.Same y

/-- A cycle makes a step of a walk. -/
def Cycle.SharesStep (c : Cycle) (files : List Path) : Prop :=
  ∃ x y, Takes c.files x y ∧ Takes files x y

/-- Both ends of a step are on the list. -/
theorem Takes.listed (h : Takes files x y) : x.Listed files ∧ y.Listed files := by
  obtain ⟨a, b, hstep, ha, hb⟩ := h
  exact ⟨⟨a, hstep.subset (by simp), ha⟩, ⟨b, hstep.subset (by simp), hb⟩⟩

/-- A cycle takes the link that closes it. -/
theorem Cycle.ClosedBy.takes (h : c.ClosedBy x y) : Takes c.files x y := by
  obtain ⟨front, a, b, hfiles, ha, hb⟩ := h
  exact ⟨a, b, ⟨front, [], by rw [hfiles, List.append_nil]⟩, ha, hb⟩

/-- Every walk around shares a step with a cycle that is found. -/
theorem ClosedWalk.exists_sharing (hbar : g.Unbarred) (h : g.ClosedWalk files) :
    ∃ c ∈ g.cycles, ∃ x y, Takes c.files x y ∧ [x, y] <:+: files := by
  obtain ⟨front, a, b, back, hfiles, c, hc, hclosed⟩ := h.exists_closing hbar
  exact ⟨c, hc, a, b, hclosed.takes, front, back, by rw [hfiles]; simp⟩

/-- Every file on a cycle is meshed with the files of a cycle that is found. -/
theorem exists_meshed_cycle (hbar : g.Unbarred) (hx : Relation.TransGen g.Link x x) :
    ∃ c ∈ g.cycles, ∀ y ∈ c.files, g.Meshed x y := by
  obtain ⟨files, hwalk, hmem⟩ := exists_closedWalk hx
  obtain ⟨c, hc, a, b, htakes, hstep⟩ := hwalk.exists_sharing hbar
  refine ⟨c, hc, fun y hy => ?_⟩
  -- The walk leads to the step, and from there the found cycle leads on.
  obtain ⟨a', ha', hsame⟩ := htakes.listed.1
  have hshared : g.Meshed x a' :=
    (hwalk.meshed hmem (hstep.subset (by simp))).congr_right hsame.symm
  exact hshared.trans ((closedWalk_of_mem_cycles hc).meshed ha' hy)

/-- **Which files are on found cycles.** If no analysed file has a bar in its path, every file on a
    cycle is meshed with all files of some found cycle, though it need not be one of them. It is one
    of them if it cannot be avoided by the cycles that share a step with some walk around; and two
    files that import each other, or one that imports itself, are on a found cycle together. -/
theorem cycles_cover (hbar : g.Unbarred) :
    (∀ x, Relation.TransGen g.Link x x → ∃ c ∈ g.cycles, ∀ y ∈ c.files, g.Meshed x y) ∧
    (∀ (x : Path) files, g.ClosedWalk files →
      (∀ c : Cycle, c.SimpleIn g → c.SharesStep files → x.Listed c.files) →
        ∃ c ∈ g.cycles, x.Listed c.files) ∧
    ∀ x y : Path, g.Link x y → g.Link y x →
      ∃ c ∈ g.cycles, x.Listed c.files ∧ y.Listed c.files := by
  refine ⟨fun x => exists_meshed_cycle hbar, fun x files hwalk hall => ?_, fun x y hxy hyx => ?_⟩
  · obtain ⟨c, hc, a, b, htakes, hstep⟩ := hwalk.exists_sharing hbar
    obtain ⟨body, dep, hloop⟩ := exists_loop_of_mem_cycles hc
    exact ⟨c, hc, hall c hloop.simpleIn ⟨a, b, htakes, a, b, hstep, Same.refl a, Same.refl b⟩⟩
  · have hwalk : g.ClosedWalk [x, y, x] := by
      refine ⟨by simp [hxy, hyx], by simp, ?_⟩
      rintro first ⟨⟩ last ⟨⟩
      exact Same.refl x
    obtain ⟨c, hc, a, b, htakes, hstep⟩ := hwalk.exists_sharing hbar
    -- Whichever of the two steps is shared, it has both files.
    have hab : a = x ∧ b = y ∨ a = y ∧ b = x := by
      rcases List.infix_cons_iff.1 hstep with hfront | hback
      · exact .inl (by simpa using hfront)
      · rcases List.infix_cons_iff.1 hback with hfront | hend
        · exact .inr (by simpa using hfront)
        · exact absurd hend.length_le (by simp)
    obtain ⟨ha, hb⟩ := htakes.listed
    rcases hab with ⟨rfl, rfl⟩ | ⟨rfl, rfl⟩
    · exact ⟨c, hc, ha, hb⟩
    · exact ⟨c, hc, hb, ha⟩

namespace Sample

/-- The third file is on a cycle. -/
theorem cyclic_bypass : Relation.TransGen chorded.Link bypass bypass :=
  .head (link_of_imports (b := .ofString "/p/b.ts") (by decide +kernel))
    (.head (link_of_imports (b := .ofString "/p/a.ts") (by decide +kernel))
      (.single (link_of_imports (by decide +kernel))))

/-- The search comes to the third file last, when the two others have closed the only cycle that is
    found. -/
theorem cycles_chorded :
    chorded.cycles = [⟨[.ofString "/p/a.ts", .ofString "/p/b.ts", .ofString "/p/a.ts"]⟩] := by
  decide +kernel

/-- **A file that is missed.** It is on a cycle of analysed files, and on no cycle that is found. -/
theorem cycles_miss :
    chorded.contains bypass = true ∧ Relation.TransGen chorded.Link bypass bypass ∧
      ¬∃ c ∈ chorded.cycles, bypass.Listed c.files := by
  refine ⟨by decide +kernel, cyclic_bypass, ?_⟩
  rintro ⟨c, hc, hlisted⟩
  rw [cycles_chorded] at hc
  obtain rfl := List.mem_singleton.1 hc
  exact absurd hlisted (by unfold Listed; decide +kernel)

/-- The file that is missed is meshed with the two files that are found, which import each other. -/
theorem cycles_cover_chorded :
    chorded.Unbarred ∧ Relation.TransGen chorded.Link bypass bypass ∧
    (∃ c ∈ chorded.cycles, ∀ y ∈ c.files, chorded.Meshed bypass y) ∧
    ∃ c ∈ chorded.cycles, (Path.ofString "/p/a.ts").Listed c.files ∧
      (Path.ofString "/p/b.ts").Listed c.files := by
  obtain ⟨hmeshed, -, hmutual⟩ := cycles_cover unbarred_chorded
  exact ⟨unbarred_chorded, cyclic_bypass, hmeshed bypass cyclic_bypass,
    hmutual _ _ (link_of_imports (by decide +kernel)) (link_of_imports (by decide +kernel))⟩

end Sample

end BlastRadius.Graph
