import BlastRadius.Proofs.ExportPlaces

namespace BlastRadius.Statement

/-!
# The first export of each name

The forms of exports are looked for one after the other. What they find is sorted by offset and
rank, and of several exports of one name the first one stays. Since the sort is stable and no two
exports have the same spot, that is the export that comes before all others of its name.

* `FirstOfName` — an export that comes before all others of its name.
* `inOrder`, `pairwise_inOrder` — all that is found, spot after spot.
* `exists_row_firstOfEachName` — what stays of exports that come spot after spot.
* `exports_first_of_name` — the exports of a text are the first ones of their names.
-/

open Source Text

/-- An export that comes before all others of its name. -/
structure FirstOfName (masked source : List Char) (spot : Spot) (e : Export) : Prop where
  occurs : Occurs masked source spot e
  first : ∀ {other : Spot} {f : Export}, Occurs masked source other f → f.name = e.name →
    (other, f) = (spot, e) ∨ spot.Before other

/-! ### Spot after spot -/

/-- All that is found, in the order of exports. -/
def inOrder (masked source : List Char) : List (Spot × Export) :=
  (spotted masked source).mergeSort fun x y => (foundAt x).before (foundAt y)

/-- Sorting keeps the spotted exports. -/
theorem mem_inOrder {masked source : List Char} {x : Spot × Export} :
    x ∈ inOrder masked source ↔ x ∈ spotted masked source :=
  List.mem_mergeSort

/-- Sorted, the exports come in the order of their spots. -/
theorem pairwise_inOrder (masked source : List Char) :
    (inOrder masked source).Pairwise fun x y => x.1.Before y.1 := by
  -- The sort is stable, and what ties in offset and rank is in order of items already.
  have hties : (spotted masked source).Pairwise fun x y =>
      ties (fun x y => (foundAt x).before (foundAt y)) x y = true → x.1.item < y.1.item := by
    refine pairwise_spotted.imp fun {x y} hitem hties => ?_
    rw [ties, Bool.and_eq_true, Found.before_iff, Found.before_iff] at hties
    simp only [foundAt] at hties
    exact hitem (by omega) (by omega)
  refine (pairwise_mergeSort_of_ties ?_ ?_ hties).imp fun {x y} hxy => ?_
  · exact fun _ _ _ => Found.before_trans
  · exact fun _ _ => Found.before_total _ _
  · obtain ⟨hle, hitem⟩ := hxy
    rw [ties, Bool.and_eq_true, Found.before_iff, Found.before_iff] at hitem
    rw [Found.before_iff] at hle
    simp only [foundAt] at hle hitem
    unfold Spot.Before
    omega

/-- Forgetting the spots leaves what is sorted by offset and rank. -/
theorem map_snd_inOrder (masked source : List Char) :
    (inOrder masked source).map Prod.snd
      = ((foundExports masked source).mergeSort Found.before).map (·.item) := by
  have hsorted : (inOrder masked source).map foundAt
      = (foundExports masked source).mergeSort Found.before := by
    rw [← map_foundAt_spotted]
    exact List.map_mergeSort fun _ _ _ _ => rfl
  rw [← hsorted, List.map_map]
  rfl

/-! ### The first of each name -/

/-- Every name that was not seen is kept. -/
theorem mem_names_firstOfEachName {seen : List String} {es : List Export} {name : String} :
    name ∈ (firstOfEachName seen es).map (·.name) ↔ name ∉ seen ∧ name ∈ es.map (·.name) := by
  induction es generalizing seen with
  | nil => simp [firstOfEachName]
  | cons e es ih =>
    rw [firstOfEachName]
    split
    · -- A seen name is left out, and its first export counts as seen from then on.
      next hseen =>
      rw [ih, List.map_cons, List.mem_cons]
      refine and_congr_right fun hname => ⟨.inr, fun h => h.resolve_left ?_⟩
      rintro rfl
      exact hname hseen
    · next hseen =>
      rw [List.map_cons, List.mem_cons, ih, List.mem_cons, List.map_cons, List.mem_cons]
      by_cases hname : name = e.name
      · simp [hname, hseen]
      · simp [hname]

/-- No name is kept twice. -/
theorem nodup_names_firstOfEachName (seen : List String) (es : List Export) :
    ((firstOfEachName seen es).map (·.name)).Nodup := by
  induction es generalizing seen with
  | nil => exact List.nodup_nil
  | cons e es ih =>
    rw [firstOfEachName]
    split
    · exact ih seen
    · refine List.nodup_cons.2 ⟨fun hmem => ?_, ih _⟩
      exact (mem_names_firstOfEachName.1 hmem).1 List.mem_cons_self

/-- Of exports that come spot after spot, those stay that come before all others of their names, and
    whose names were not seen before. -/
theorem exists_row_firstOfEachName (seen : List String) {l : List (Spot × Export)}
    (hl : l.Pairwise fun x y => x.1.Before y.1) :
    ∃ row : List (Spot × Export),
      row.map Prod.snd = firstOfEachName seen (l.map Prod.snd) ∧ row.Sublist l ∧ ∀ x, x ∈ row ↔
        x ∈ l ∧ x.2.name ∉ seen ∧ ∀ y ∈ l, y.2.name = x.2.name → y = x ∨ x.1.Before y.1 := by
  induction l generalizing seen with
  | nil => exact ⟨[], rfl, .slnil, by simp⟩
  | cons a l ih =>
    obtain ⟨hbehind, hl⟩ := List.pairwise_cons.1 hl
    rw [List.map_cons, firstOfEachName]
    split
    · next hseen =>
      obtain ⟨row, hrow, hsublist, hmem⟩ := ih seen hl
      refine ⟨row, hrow, hsublist.cons a, fun x => (hmem x).trans ⟨?_, ?_⟩⟩
      · rintro ⟨hx, hname, hfirst⟩
        refine ⟨List.mem_cons_of_mem a hx, hname, List.forall_mem_cons.2 ⟨fun heq => ?_, hfirst⟩⟩
        exact absurd (heq ▸ hseen) hname
      · rintro ⟨hx, hname, hfirst⟩
        have hne : x ≠ a := by
          rintro rfl
          exact hname hseen
        exact ⟨(List.mem_cons.1 hx).resolve_left hne, hname, (List.forall_mem_cons.1 hfirst).2⟩
    · next hseen =>
      obtain ⟨row, hrow, hsublist, hmem⟩ := ih (a.2.name :: seen) hl
      refine ⟨a :: row, by rw [List.map_cons, hrow], hsublist.cons_cons a, fun x => ?_⟩
      rw [List.mem_cons, hmem x, List.mem_cons, List.mem_cons, not_or, List.forall_mem_cons]
      constructor
      · rintro (rfl | ⟨hx, ⟨hne, hname⟩, hfirst⟩)
        · exact ⟨.inl rfl, hseen, fun _ => .inl rfl, fun y hy _ => .inr (hbehind y hy)⟩
        · exact ⟨.inr hx, hname, fun heq => absurd heq.symm hne, hfirst⟩
      · rintro ⟨rfl | hx, hname, hhead, hfirst⟩
        · exact .inl rfl
        · refine .inr ⟨hx, ⟨fun heq => ?_, hname⟩, hfirst⟩
          -- The first one has that name too, and comes before.
          have hbefore := hbehind x hx
          rcases hhead heq.symm with rfl | hafter
          · exact a.1.not_before_self hbefore
          · exact a.1.not_before_self (hbefore.trans hafter)

/-- What comes first among all that is found comes first among all that occurs. -/
theorem firstOfName_iff {masked source : List Char} {x : Spot × Export} :
    FirstOfName masked source x.1 x.2 ↔ x ∈ spotted masked source ∧
      ∀ y ∈ spotted masked source, y.2.name = x.2.name → y = x ∨ x.1.Before y.1 := by
  constructor
  · intro h
    have hfound : ∀ y ∈ spotted masked source, y.2.name = x.2.name → y = x ∨ x.1.Before y.1 :=
      fun y hy hname => h.first (occurs_of_mem_spotted hy) hname
    refine ⟨h.occurs.mem_spotted_or.resolve_right ?_, hfound⟩
    rintro ⟨y, hy, hname, hbefore⟩
    rcases hfound y hy hname with rfl | hafter
    · exact y.1.not_before_self hbefore
    · exact x.1.not_before_self (hafter.trans hbefore)
  · rintro ⟨hx, hfirst⟩
    refine ⟨occurs_of_mem_spotted hx, fun {other f} hother hname => ?_⟩
    rcases hother.mem_spotted_or with hy | ⟨y, hy, hsame, hbefore⟩
    · exact hfirst _ hy hname
    · -- A default export that is not kept comes behind one that is.
      rcases hfirst y hy (hsame.trans hname) with rfl | hafter
      · exact .inr hbefore
      · exact .inr (hafter.trans hbefore)

/-- The exports of a text, with their spots. -/
theorem exists_row_exports (masked source : List Char) :
    ∃ row : List (Spot × Export), exports masked source = row.map Prod.snd ∧
      (∀ x, x ∈ row ↔ FirstOfName masked source x.1 x.2) ∧
      row.Pairwise fun x y => x.1.Before y.1 := by
  obtain ⟨row, hrow, hsublist, hmem⟩ :=
    exists_row_firstOfEachName [] (pairwise_inOrder masked source)
  refine ⟨row, ?_, fun x => ?_, (pairwise_inOrder masked source).sublist hsublist⟩
  · rw [hrow, map_snd_inOrder, exports]
  · simp only [hmem, firstOfName_iff, mem_inOrder, List.not_mem_nil, not_false_eq_true, true_and]

/-- No name that occurs is lost. -/
theorem mem_names_exports {masked source : List Char} {name : String} :
    name ∈ (exports masked source).map (·.name) ↔
      ∃ spot e, Occurs masked source spot e ∧ e.name = name := by
  rw [exports, ← map_snd_inOrder, mem_names_firstOfEachName, List.map_map, List.mem_map]
  constructor
  · rintro ⟨-, x, hx, hname⟩
    exact ⟨x.1, x.2, occurs_of_mem_spotted (mem_inOrder.1 hx), hname⟩
  · rintro ⟨spot, e, he, rfl⟩
    refine ⟨List.not_mem_nil, ?_⟩
    rcases he.mem_spotted_or with hx | ⟨y, hy, hname, -⟩
    · exact ⟨_, mem_inOrder.2 hx, rfl⟩
    · exact ⟨y, mem_inOrder.2 hy, hname⟩

/-- **The first export of each name.** The exports of a masked text are those that come before all
    others of their names, by offset, then by rank, then by position in a list, and they stand in
    that order. So their names are pairwise distinct, and are all the names that any of the forms
    finds; their lines do not decrease; and an export is passed on from another module just if it
    has a source. -/
theorem exports_first_of_name (masked source : List Char) :
    ∃ row : List (Spot × Export), exports masked source = row.map Prod.snd ∧
      (∀ x, x ∈ row ↔ FirstOfName masked source x.1 x.2) ∧
      row.Pairwise (fun x y => x.1.Before y.1) ∧
      ((exports masked source).map (·.name)).Nodup ∧
      (∀ name, name ∈ (exports masked source).map (·.name) ↔
        ∃ spot e, Occurs masked source spot e ∧ e.name = name) ∧
      ((exports masked source).map (·.line)).Pairwise (· ≤ ·) ∧
      (exports masked source).map (·.isReexport)
        = (exports masked source).map (·.source.isSome) := by
  obtain ⟨row, hexports, hfirst, hbefore⟩ := exists_row_exports masked source
  have hoccurs : ∀ x ∈ row, Occurs masked source x.1 x.2 := fun x hx => ((hfirst x).1 hx).occurs
  refine ⟨row, hexports, hfirst, hbefore, nodup_names_firstOfEachName _ _,
    fun name => mem_names_exports, ?_, ?_⟩
  · rw [hexports, List.map_map, List.pairwise_map]
    refine hbefore.imp_of_mem fun {x y} hx hy hxy => ?_
    rw [Function.comp_apply, Function.comp_apply, (hoccurs x hx).line_eq, (hoccurs y hy).line_eq]
    exact lineOf_mono source hxy.offset_le
  · rw [hexports, List.map_map, List.map_map]
    exact List.map_congr_left fun x hx => (hoccurs x hx).isReexport_eq

end BlastRadius.Statement
