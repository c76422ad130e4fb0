import BlastRadius.Project.Basic
import BlastRadius.Proofs.Extension
import BlastRadius.Proofs.Unambiguous

namespace BlastRadius

/-!
# A scan lists the files whose changes matter

A scan walks down from a root and leaves out whole directories by their names. A change names a
finished path, and its components below the root decide whether it matters. Both come to the same.

* `Path.components_afterComponents_succ` — what is left of any path behind its first components.
* `Path.isExcluded_descend` — which paths below a root of any spelling are left out.
* `Project.admits_congr` — whether changes matter does not depend on how a path is spelled.
* `Entry.Unambiguous.distinct_scripts` — no file of a tree is listed twice.
* `Disk.HasFile`, `Disk.Opens` — the files below a root, and that no directory on the way is closed.
* `Disk.scan_lists_admitted` — a scan lists exactly the files below its root whose changes matter.
-/

open Component Disk BlastRadius.Path Resolve

namespace Path

/-! ### The end of a path -/

/-- The segments of a cut have no separators. -/
theorem separator_not_mem_cut {p : Path} {segment : List Char} (h : segment ∈ p.cut.segments) :
    '/' ∉ segment := by
  unfold cut at h
  split at h
  · exact separator_not_mem_segments h
  · split at h
    · exact absurd h List.not_mem_nil
    · exact separator_not_mem_segments h
    · exact separator_not_mem_segments h
  · exact separator_not_mem_segments h

/-- Dropping components from segments drops what they say. -/
theorem filterMap_dropComponents (n : Nat) (segs : List (List Char)) :
    (dropComponents n segs).filterMap ofSegment? = (segs.filterMap ofSegment?).drop n := by
  induction segs generalizing n with
  | nil => cases n <;> rfl
  | cons segment segs ih =>
    cases n with
    | zero => rfl
    | succ n =>
      rw [dropComponents]
      by_cases hidle : isIdle segment = true
      · rw [if_pos hidle, ih, List.filterMap_cons_none (by rw [ofSegment?, if_pos hidle])]
      · obtain ⟨c, hc⟩ := exists_ofSegment? (Bool.eq_false_iff.2 hidle)
        rw [if_neg hidle, ih, List.filterMap_cons_some hc, List.drop_succ_cons]

/-- Dropping components adds no segment. -/
theorem dropComponents_sublist (n : Nat) (segs : List (List Char)) :
    (dropComponents n segs).Sublist segs := by
  induction segs generalizing n with
  | nil => cases n <;> exact List.Sublist.refl _
  | cons segment segs ih =>
    cases n with
    | zero => exact List.Sublist.refl _
    | succ n =>
      rw [dropComponents]
      split
      · exact (ih (n + 1)).cons segment
      · exact (ih n).cons segment

/-- Segments without those at both ends that say nothing spell a path of what they say. -/
theorem ofText_joined_trimmed {segs : List (List Char)} (hsep : ∀ segment ∈ segs, '/' ∉ segment) :
    ofText (joined (trimSegments (segs.dropWhile isIdle))) = segs.filterMap ofSegment? := by
  obtain ⟨idles, hidles, hkept⟩ := exists_trimmed (segs.dropWhile isIdle)
  have hsaid : segs.filterMap ofSegment?
      = (trimSegments (segs.dropWhile isIdle)).filterMap ofSegment? := by
    have hfront : ∀ segment ∈ segs.takeWhile isIdle, isIdle segment = true :=
      List.all_eq_true.1 List.all_takeWhile
    conv_lhs => rw [← List.takeWhile_append_dropWhile (p := isIdle) (l := segs), hkept]
    rw [List.filterMap_append, List.filterMap_append, filterMap_idle hfront, filterMap_idle hidles,
      List.nil_append, List.append_nil]
  rw [hsaid]
  cases htrim : trimSegments (segs.dropWhile isIdle) with
  | nil => rfl
  | cons first more =>
    rw [htrim] at hkept
    -- The first segment that is left says something, so it is neither empty nor a dot.
    have hbusy : isIdle first = false := by
      have hhead := List.head?_dropWhile_not isIdle segs
      rw [hkept] at hhead
      exact hhead
    have hkeptSep : ∀ segment ∈ first :: more, '/' ∉ segment := by
      intro segment hmem
      refine hsep segment ((List.dropWhile_sublist isIdle).subset ?_)
      rw [hkept]
      exact List.mem_append_left idles hmem
    have hsegs := segments_joined (List.cons_ne_nil first more) hkeptSep
    cases first with
    | nil => cases hbusy
    | cons c first =>
      have hne : c ≠ '/' := by
        rintro rfl
        exact hkeptSep _ List.mem_cons_self List.mem_cons_self
      rw [ofText_of_plain, hsegs]
      · rw [joined_char_cons]
        simpa using hne
      · rw [hsegs]
        rintro ⟨⟩
        cases hbusy

/-- What is left of a path behind its first components. -/
theorem components_afterComponents_succ (p : Path) (n : Nat) :
    (p.afterComponents (n + 1)).components = p.components.drop (n + 1) := by
  have hleft : ∀ m,
      ofText (joined (trimSegments ((dropComponents m p.cut.segments).dropWhile isIdle)))
        = (p.cut.segments.filterMap ofSegment?).drop m := by
    intro m
    rw [ofText_joined_trimmed, filterMap_dropComponents]
    exact fun segment hmem => separator_not_mem_cut ((dropComponents_sublist m _).subset hmem)
  unfold afterComponents
  dsimp only
  rw [components_ofChars, components_cut, Cut.start]
  -- A root or a leading dot counts as the first component, else it is a segment.
  rcases front_cut p with hfront | hfront | ⟨hfront, -⟩
  · rw [hfront]
    exact hleft n
  · rw [hfront]
    exact hleft (n + 1)
  · rw [hfront]
    exact hleft n

/-! ### Paths below a root of any spelling -/

variable {root p q : Path} {name : String} {names : List String}

/-- A proper child has its name for a last component. -/
theorem components_child (hroot : root.chars ≠ []) (hname : ProperName name) :
    (root.child name).components = root.components ++ [.name name] := by
  have hread : ofText (joined ([name].map String.toList)) = [name].map .name :=
    ofText_joined_names (List.forall_mem_singleton.2 hname)
  rw [child, components_join hroot (not_isAbsolute_ofString hname),
    show (ofString name).components = _ from hread]
  rfl

/-- A child is not spelled empty. -/
theorem chars_child_ne_nil (hroot : root.chars ≠ []) (hname : ProperName name) :
    (root.child name).chars ≠ [] := by
  rw [ne_eq, ← components_eq_nil_iff, components_child hroot hname]
  simp

/-- Going down adds the names as components. -/
theorem components_descend (hroot : root.chars ≠ []) (hnames : ∀ name ∈ names, ProperName name) :
    (root.descend names).components = root.components ++ names.map .name := by
  induction names generalizing root with
  | nil => simp
  | cons name names ih =>
    obtain ⟨hname, hnames⟩ := List.forall_mem_cons.1 hnames
    rw [descend_cons, ih (chars_child_ne_nil hroot hname) hnames, components_child hroot hname]
    simp

/-- Going down stays under the root. -/
theorem isUnder_descend (hroot : root.chars ≠ []) (hnames : ∀ name ∈ names, ProperName name) :
    (root.descend names).isUnder root = true := by
  rw [isUnder, components_descend hroot hnames, List.isPrefixOf_iff_prefix]
  exact List.prefix_append _ _

/-- What is left out below a root is decided by the components behind those of the root. -/
theorem isExcluded_of_isUnder (hroot : root.chars ≠ []) (hp : p.isUnder root = true) :
    isExcluded root p = (p.components.drop root.components.length).dropLast.any
      isExcludedComponent := by
  rw [isUnder] at hp
  obtain ⟨n, hlength⟩ : ∃ n, root.components.length = n + 1 := by
    refine Nat.exists_eq_succ_of_ne_zero fun hzero => hroot ?_
    exact components_eq_nil_iff.1 (List.length_eq_zero_iff.1 hzero)
  rw [isExcluded, relativeTo?, if_pos hp, Option.getD_some, hlength,
    components_afterComponents_succ]

/-- A path below a root is left out because of a name on the way to it. -/
theorem isExcluded_descend (hroot : root.chars ≠ []) (hnames : ∀ name ∈ names, ProperName name) :
    isExcluded root (root.descend names) = names.dropLast.any isExcludedName := by
  rw [isExcluded_of_isUnder hroot (isUnder_descend hroot hnames), components_descend hroot hnames,
    List.drop_left, ← List.map_dropLast, List.any_map]
  rfl

/-- Being a script does not hang on the spelling. -/
theorem isScript_congr (h : p.Same q) : isScript p = isScript q := by
  rw [isScript, isScript, extension?, extension?, fileName?, fileName?,
    show p.components = _ from h]

end Path

/-- Whether changes of a file matter does not depend on the spelling of its path. -/
theorem Project.admits_congr {p : Project} {f g : Path} (hroot : p.root.chars ≠ []) (h : f.Same g) :
    p.admits f = p.admits g := by
  have hunder : f.isUnder p.root = g.isUnder p.root := by
    rw [isUnder, isUnder, show f.components = _ from h]
  rw [admits, admits, isScript_congr h, hunder]
  cases hg : g.isUnder p.root with
  | false => rfl
  | true =>
    rw [isExcluded_of_isUnder hroot (hunder.trans hg), isExcluded_of_isUnder hroot hg,
      show f.components = _ from h]

/-! ### No file is listed twice -/

namespace Entry

variable {e : Entry} {here p : Path} {children : List (String × Entry)}

/-- The scripts of a directory lie below one of its children. -/
theorem components_of_mem_scriptsIn (hchildren : (directory children).Proper)
    (hhere : here.chars ≠ []) (hp : p ∈ scriptsIn here children) :
    ∃ c ∈ children, ∃ below, p.components = here.components ++ .name c.1 :: below := by
  obtain ⟨c, hc, -, hp⟩ := mem_scriptsIn.1 hp
  cases hchildren with
  | directory names entries =>
    obtain ⟨rest, data, hholds, rfl, -⟩ := (entries c hc).mem_scripts.1 hp
    refine ⟨c, hc, rest.map .name, ?_⟩
    rw [← descend_cons, components_descend hhere]
    · rfl
    · exact List.forall_mem_cons.2 ⟨names c hc, (entries c hc).properName_of_holds hholds⟩

/-- The scripts of a directory are distinct if those of its children are. -/
theorem distinct_scriptsIn (hchildren : (directory children).Proper)
    (hnames : (children.map (·.1)).Nodup) (hhere : here.chars ≠ [])
    (h : ∀ c ∈ children, Distinct (c.2.scripts (here.child c.1))) :
    Distinct (scriptsIn here children) := by
  induction children with
  | nil => exact List.Pairwise.nil
  | cons c children ih =>
    rw [List.map_cons, List.nodup_cons] at hnames
    obtain ⟨hfirst, hmore⟩ := List.forall_mem_cons.1 h
    cases hchildren with
    | directory names entries =>
      have hone : (directory [c]).Proper := .directory (by simpa using names c List.mem_cons_self)
        (by simpa using entries c List.mem_cons_self)
      have hothers : (directory children).Proper := .directory (List.forall_mem_cons.1 names).2
        (List.forall_mem_cons.1 entries).2
      have hsingle : scriptsIn here [c] =
          if c.2.isDirectory && isExcludedName c.1 then [] else c.2.scripts (here.child c.1) := by
        simp [scriptsIn]
      rw [scriptsIn, ← hsingle, distinct_append]
      refine ⟨?_, ih hothers hnames.2 hmore, ?_⟩
      · rw [hsingle]
        split
        · exact List.Pairwise.nil
        · exact hfirst
      · -- Behind the directory the paths go on with different names.
        rintro p ⟨q, hq, hqp⟩ ⟨r, hr, hrp⟩
        obtain ⟨c', hc', below, hbelow⟩ := components_of_mem_scriptsIn hone hhere hq
        obtain ⟨c'', hc'', below', hbelow'⟩ := components_of_mem_scriptsIn hothers hhere hr
        have hsame : q.components = r.components := hqp.trans hrp.symm
        rw [hbelow, hbelow'] at hsame
        obtain ⟨hname, -⟩ := List.cons.inj (List.append_cancel_left hsame)
        obtain rfl := List.mem_singleton.1 hc'
        rw [Component.name.inj hname] at hnames
        exact hnames.1 (List.mem_map_of_mem hc'')

/-- **No file of a tree is listed twice.** -/
theorem Unambiguous.distinct_scripts (h : e.Unambiguous) (he : e.Proper) (hhere : here.chars ≠ []) :
    Distinct (e.scripts here) := by
  induction h generalizing here with
  | file data =>
    rw [scripts]
    split
    · exact List.pairwise_singleton _ _
    · exact List.Pairwise.nil
  | directory hnames _ ih =>
    rw [scripts]
    split
    · exact List.Pairwise.nil
    · refine distinct_scriptsIn he hnames hhere fun c hc => ?_
      cases he with
      | directory names entries =>
        exact ih c hc (entries c hc) (chars_child_ne_nil hhere (names c hc))

end Entry

/-! ### What a scan lists -/

namespace Disk

variable {d : Disk} {root f : Path} {e : Entry}

/-- A path leads to a file at or below a root, with the spelling of the root. -/
def HasFile (d : Disk) (root f : Path) : Prop :=
  ∃ e place data, d.entry root = .ok e ∧ e.find? place = some (.file data) ∧ f = root.descend place

/-- Every directory at or below a root that is not left out can be opened. -/
def Opens (d : Disk) (root : Path) : Prop :=
  ∀ e place children, d.entry root = .ok e → e.find? place = some (.directory children) →
    place.any isExcludedName = false → (root.descend place).isLong = false

/-- No entry has an empty path. -/
theorem chars_ne_nil_of_entry (h : d.entry root = .ok e) : root.chars ≠ [] := by
  obtain ⟨place, hlocate, -⟩ := entry_eq_ok.1 h
  have haccept := (locate_eq_ok.1 hlocate).1
  intro hnil
  simp [accept, wellFormed, hnil, bind, Except.bind] at haccept

/-- A scan lists the script files of the tree at its root, in order. -/
theorem scan_of_entry (h : d.entry root = .ok e) :
    d.scan root = (e.scripts root).mergeSort precedes := by
  rw [scan, h]

/-- Where nothing can be entered, nothing is found. -/
theorem scan_of_entry_error {error : DiskError} (h : d.entry root = .error error) :
    d.scan root = [] := by
  rw [scan, h]

/-- A scan is in the order of the paths. -/
theorem pairwise_scan (d : Disk) (root : Path) :
    (d.scan root).Pairwise fun p q => precedes p q = true := by
  cases hentry : d.entry root with
  | error error =>
    rw [scan_of_entry_error hentry]
    exact List.Pairwise.nil
  | ok e =>
    rw [scan_of_entry hentry]
    exact List.pairwise_mergeSort (fun p q r => precedes_trans (p := p) (q := q) (r := r))
      precedes_total _

/-- A scan of an unambiguous disk finds no file twice. -/
theorem Unambiguous.distinct_scan (h : d.Unambiguous) (hd : d.Proper) (root : Path) :
    Distinct (d.scan root) := by
  cases hentry : d.entry root with
  | error error =>
    rw [scan_of_entry_error hentry]
    exact List.Pairwise.nil
  | ok e =>
    obtain ⟨place, -, he⟩ := entry_eq_ok.1 hentry
    have hscripts := (h.at? he).distinct_scripts (hd.at? he).2 (chars_ne_nil_of_entry hentry)
    rw [scan_of_entry hentry]
    exact hscripts.perm (List.mergeSort_perm _ _).symm

/-- Nothing is in the way of a file that is not left out. -/
theorem Opens.passable (h : d.Opens root) (hentry : d.entry root = .ok e) {place : List String}
    {data : FileData} (hfile : e.find? place = some (.file data))
    (hkept : place.dropLast.any isExcludedName = false) : Entry.Passable root place := by
  rintro front ⟨back, rfl⟩ hne
  have hback : back ≠ [] := by
    rintro rfl
    exact hne (List.append_nil front).symm
  rw [Entry.find?_append] at hfile
  obtain ⟨there, hthere, hbelow⟩ := Option.bind_eq_some_iff.1 hfile
  rw [List.dropLast_append_of_ne_nil hback, List.any_append, Bool.or_eq_false_iff] at hkept
  cases there with
  | directory children => exact h e front children hentry hthere hkept.1
  | file other =>
    -- Nothing is below a file.
    cases back with
    | nil => exact absurd rfl hback
    | cons name back => cases hbelow

/-- A scan finds exactly the scripts that lie in no excluded directory. -/
theorem mem_scan_iff (hd : d.Proper) (hu : d.Unambiguous) (hopens : d.Opens root) :
    f ∈ d.scan root ↔ d.HasFile root f ∧ isScript f = true ∧ isExcluded root f = false := by
  cases hentry : d.entry root with
  | error error =>
    rw [scan_of_entry_error hentry]
    simp [HasFile, hentry]
  | ok e =>
    obtain ⟨found, -, he⟩ := entry_eq_ok.1 hentry
    have hproper := (hd.at? he).2
    have hroot := chars_ne_nil_of_entry hentry
    rw [scan_of_entry hentry, List.mem_mergeSort, hproper.mem_scripts]
    -- A walk and a look-up find the same files, since no name stands for two entries.
    constructor
    · rintro ⟨place, data, hholds, rfl, hscript, hkept, -⟩
      refine ⟨⟨e, place, data, hentry, (hu.at? he).find?_of_holds hholds, rfl⟩, hscript, ?_⟩
      rw [isExcluded_descend hroot (hproper.properName_of_holds hholds), hkept]
    · rintro ⟨⟨e', place, data, hentry', hfile, rfl⟩, hscript, hkept⟩
      cases hentry.symm.trans hentry'
      have hholds := Entry.holds_of_find? hfile
      rw [isExcluded_descend hroot (hproper.properName_of_holds hholds)] at hkept
      exact ⟨place, data, hholds, rfl, hscript, hkept, hopens.passable hentry hfile hkept⟩

/-- The files below a root lie under it. -/
theorem HasFile.isUnder (h : d.HasFile root f) (hd : d.Proper) : f.isUnder root = true := by
  obtain ⟨e, place, data, hentry, hfile, rfl⟩ := h
  obtain ⟨found, -, he⟩ := entry_eq_ok.1 hentry
  exact isUnder_descend (chars_ne_nil_of_entry hentry)
    ((hd.at? he).2.properName_of_holds (Entry.holds_of_find? hfile))

/-- **A scan and the changes that matter agree.** A scan lists once each, and in the order of their
    paths, the script files at or below its root that are not left out; and a file below the root is
    listed, however its path is spelled, exactly if a project with this root admits changes of
    it. -/
theorem scan_lists_admitted (hd : d.Proper) (hu : d.Unambiguous) (hopens : d.Opens root) :
    Distinct (d.scan root) ∧
    ((d.scan root).Pairwise fun p q => precedes p q = true) ∧
    (∀ f, f ∈ d.scan root ↔ d.HasFile root f ∧ isScript f = true ∧ isExcluded root f = false) ∧
    ∀ p : Project, p.root = root → ∀ f : Path,
      f.Listed (d.scan root) ↔ (∃ g, d.HasFile root g ∧ g.Same f) ∧ p.admits f = true := by
  refine ⟨hu.distinct_scan hd root, pairwise_scan d root, fun f => mem_scan_iff hd hu hopens, ?_⟩
  rintro p rfl f
  -- A file of the disk lies under the root, so only its name and the exclusions count.
  have hadmits : ∀ {g : Path}, d.HasFile p.root g → g.Same f →
      (p.admits f = true ↔ isScript g = true ∧ isExcluded p.root g = false) := by
    intro g hg hsame
    obtain ⟨e, -, -, hentry, -⟩ := id hg
    rw [← Project.admits_congr (chars_ne_nil_of_entry hentry) hsame, Project.admits, hg.isUnder hd]
    simp
  constructor
  · rintro ⟨g, hg, hsame⟩
    obtain ⟨hfile, hkept⟩ := (mem_scan_iff hd hu hopens).1 hg
    exact ⟨⟨g, hfile, hsame⟩, (hadmits hfile hsame).2 hkept⟩
  · rintro ⟨⟨g, hfile, hsame⟩, hf⟩
    exact ⟨g, (mem_scan_iff hd hu hopens).2 ⟨hfile, (hadmits hfile hsame).1 hf⟩, hsame⟩

namespace Sample

/-- A directory with a hidden script file, and with a script file in a directory that is left
    out. -/
def product : Entry :=
  .directory [
    ("main.ts", .file ⟨[], 0⟩),
    (".lint.js", .file ⟨[], 0⟩),
    ("dist", .directory [("main.js", .file ⟨[], 0⟩)]),
    ("src", .directory [("dist.ts", .file ⟨[], 0⟩)])]

/-- The directory has a name itself that is left out elsewhere. -/
def shipped : Disk :=
  ⟨.directory [("build", product)], []⟩

/-- The directory is spelled with a step that leads nowhere. -/
def base : Path :=
  ofString "/build/."

/-- The root of the sample is a directory. -/
theorem entry_base : shipped.entry base = .ok product := rfl

/-- No path of the sample is too long to be opened. -/
theorem opens_base : shipped.Opens base := by
  intro e place children hentry hdirectory hkept
  cases entry_base.symm.trans hentry
  -- Only the directory itself and the one below that is not left out are to be opened.
  cases place with
  | nil => decide
  | cons name place =>
    obtain ⟨child, hchild, hbelow⟩ := Option.bind_eq_some_iff.1 hdirectory
    have hchild := Entry.mem_of_child? hchild
    simp only [List.mem_cons, List.not_mem_nil, Prod.mk.injEq, or_false] at hchild
    rcases hchild with ⟨rfl, rfl⟩ | ⟨rfl, rfl⟩ | ⟨rfl, rfl⟩ | ⟨rfl, rfl⟩
    · cases place <;> cases hbelow
    · cases place <;> cases hbelow
    · exact absurd hkept (by simp [isExcludedName, excludedNames])
    · cases place with
      | nil => decide
      | cons next place =>
        obtain ⟨file, hfile, hend⟩ := Option.bind_eq_some_iff.1 hbelow
        have hfile := Entry.mem_of_child? hfile
        simp only [List.mem_cons, List.not_mem_nil, Prod.mk.injEq, or_false] at hfile
        obtain ⟨rfl, rfl⟩ := hfile
        cases place <;> cases hend

/-- The sample disk is a proper one. -/
theorem proper_shipped : shipped.Proper := by
  have hone : ∀ {name}, ProperName name → (Entry.directory [(name, .file ⟨[], 0⟩)]).Proper :=
    fun hname =>
    .directory (by simpa using hname) (by simp [Entry.Proper.file])
  have hdist := hone (show ProperName "main.js" by decide)
  have hsrc := hone (show ProperName "dist.ts" by decide)
  have hproduct : product.Proper :=
    .directory (by decide) (by simp [Entry.Proper.file, hdist, hsrc])
  exact ⟨.directory (by decide) (by simpa using hproduct), rfl⟩

/-- No two of its names are the same. -/
theorem unambiguous_shipped : shipped.Unambiguous := by
  have hone : ∀ name, (Entry.directory [(name, .file ⟨[], 0⟩)]).Unambiguous := fun name =>
    .directory (by simp) (by simp [Entry.Unambiguous.file])
  have hproduct : product.Unambiguous :=
    .directory (by decide) (by simp [Entry.Unambiguous.file, hone])
  exact .directory (by decide) (by simpa using hproduct)

/-- A hidden file is listed, and so is one that is named like a directory that is left out; a file
    among the build products is not. -/
theorem scan_lists_admitted_shipped :
    shipped.Proper ∧ shipped.Unambiguous ∧ shipped.Opens base ∧ Distinct (shipped.scan base) ∧
      ofString "/build/./.lint.js" ∈ shipped.scan base ∧
      ofString "/build/./src/dist.ts" ∈ shipped.scan base ∧
      ofString "/build/./dist/main.js" ∉ shipped.scan base := by
  obtain ⟨hdistinct, -, hlists, -⟩ :=
    scan_lists_admitted proper_shipped unambiguous_shipped opens_base
  refine ⟨proper_shipped, unambiguous_shipped, opens_base, hdistinct,
    (hlists _).2 ⟨?_, by decide, by decide⟩, (hlists _).2 ⟨?_, by decide, by decide⟩, fun h => ?_⟩
  · exact ⟨product, [".lint.js"], ⟨[], 0⟩, entry_base, rfl, rfl⟩
  · exact ⟨product, ["src", "dist.ts"], ⟨[], 0⟩, entry_base, rfl, rfl⟩
  · exact absurd ((hlists _).1 h).2.2 (by decide)

end Sample

end Disk

end BlastRadius
