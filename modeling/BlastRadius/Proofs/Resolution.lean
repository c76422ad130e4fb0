import BlastRadius.Proofs.Created
import BlastRadius.Proofs.Extension
import BlastRadius.Proofs.Targets

namespace BlastRadius

/-!
# Resolution as the first hit

What a specifier may stand for, and in which order, does not depend on the files that are known. So
one file more or less changes an answer only if it is the answer itself, and a file can be named
from every directory.

* `Resolve.resolve?_stable` — one file more, or one file less.
* `Resolve.climb` — the specifier that leads from a directory to a file.
* `Resolve.normalize_climb` — where such a specifier leads.
* `Resolve.shadows` — what is tried before a file when its extension is left out.
* `Resolve.relative_round_trip` — a known file is found by the way that leads to it.
-/

open Component Disk BlastRadius.Path

namespace Resolve

/-! ### One file more or less -/

/-- **Resolution is stable.** With one more file known, a specifier stands for what it stood for, or
    for that file. Without a file that it did not stand for, it stands for what it stood for. -/
theorem resolve?_stable (c : Context) (specifier : String) (directory file : Path) :
    ({ c with known := c.known.add file }.resolve? specifier directory
      = c.resolve? specifier directory ∨
      ∃ hit, { c with known := c.known.add file }.resolve? specifier directory = some hit ∧
        hit.Same file) ∧
    ((∀ hit, c.resolve? specifier directory = some hit → ¬hit.Same file) →
      { c with known := c.known.erase file }.resolve? specifier directory
        = c.resolve? specifier directory) := by
  constructor
  · -- A new file changes a result only by being that result.
    have hbehind : c.Behind { c with known := c.known.add file } :=
      ⟨rfl, fun x hx => by simp [PathSet.contains_add, hx]⟩
    rcases hbehind.lags_resolve? specifier directory with heq | ⟨hit, hhit, hadded, hmissing⟩
    · exact Or.inl heq.symm
    · refine Or.inr ⟨hit, hhit, ?_⟩
      simpa [PathSet.contains_add, hmissing, same_comm] using hadded
  · intro hother
    have hbehind : Context.Behind { c with known := c.known.erase file } c :=
      ⟨rfl, fun x hx => by simp_all [PathMap.contains_erase]⟩
    rcases hbehind.lags_resolve? specifier directory with heq | ⟨hit, hhit, hknown, herased⟩
    · exact heq
    · refine absurd ?_ (hother hit hhit)
      simpa [PathMap.contains_erase, hknown, same_comm] using herased

namespace Sample

/-- A file whose name ends like that of a compiled one, beside one that might be its source. -/
def sources : Context :=
  ⟨.bare (ofString "/p"), .ofList [ofString "/p/a/util.js.tsx", ofString "/p/a/util.tsx"]⟩

/-- The source of a script is found before a longer file name. -/
theorem resolve?_sources :
    sources.resolve? "./a/util.js" (ofString "/p") = some (ofString "/p/a/util.tsx") := by
  decide +kernel

/-- Without the other file, the specifier still stands for the source. -/
theorem resolve?_stable_sources :
    ({ sources with known := sources.known.erase (ofString "/p/a/util.js.tsx") } : Context).resolve?
      "./a/util.js" (ofString "/p") = some (ofString "/p/a/util.tsx") := by
  refine ((resolve?_stable sources _ _ _).2 fun hit hhit => ?_).trans resolve?_sources
  obtain rfl := Option.some.inj (resolve?_sources.symm.trans hhit)
  decide

end Sample

/-! ### The way from a directory to a file -/

/-- The specifier that climbs over `ups` directories, or stays where it is, and then goes down. -/
def climb (ups : Nat) (down : List Component) : String :=
  String.ofList
    ((if ups = 0 then ['.', '/'] else (List.replicate ups ['.', '.', '/']).flatten)
      ++ joined (down.map text))

section
variable {ups : Nat} {down : List Component}

/-- The characters of a climbing specifier. -/
theorem toList_climb :
    (climb ups down).toList =
      (if ups = 0 then ['.', '/'] else (List.replicate ups ['.', '.', '/']).flatten)
        ++ joined (down.map text) := by
  rw [climb, String.toList_ofList]

/-- It begins with a dot. -/
theorem exists_toList_climb (ups : Nat) (down : List Component) :
    ∃ rest, (climb ups down).toList = '.' :: rest := by
  rw [toList_climb]
  cases ups with
  | zero => exact ⟨_, rfl⟩
  | succ n => exact ⟨_, rfl⟩

/-- It is anchored. -/
theorem isAnchored_climb : isAnchored (climb ups down).toList = true := by
  obtain ⟨rest, hrest⟩ := exists_toList_climb ups down
  rw [hrest]
  rfl

/-- It is not absolute. -/
theorem not_isAbsolute_climb : (ofString (climb ups down)).isAbsolute = false := by
  obtain ⟨rest, hrest⟩ := exists_toList_climb ups down
  rw [isAbsolute, chars_ofString, hrest]
  rfl

/-- Every step up is a segment. -/
theorem segments_ups (n : Nat) (s : List Char) :
    segments ((List.replicate n ['.', '.', '/']).flatten ++ s)
      = List.replicate n ['.', '.'] ++ segments s := by
  induction n with
  | zero => rfl
  | succ n ih =>
    have hsplit : (List.replicate (n + 1) ['.', '.', '/']).flatten ++ s =
        ['.', '.'] ++ '/' :: ((List.replicate n ['.', '.', '/']).flatten ++ s) := rfl
    rw [hsplit, segments_append, ih, List.replicate_succ]
    rfl

/-- Behind a directory, the specifier says so many steps up, and the steps down. -/
theorem filterMap_segments_climb (hdown : ∀ c ∈ down, c.Inner) :
    (segments (climb ups down).toList).filterMap ofSegment? = List.replicate ups .up ++ down := by
  rw [toList_climb]
  cases ups with
  | zero =>
    show (segments (['.'] ++ '/' :: joined (down.map text))).filterMap ofSegment? = down
    rw [segments_append, List.filterMap_append, filterMap_segments_joined hdown]
    rfl
  | succ n =>
    have hups : (List.replicate (n + 1) ['.', '.']).filterMap ofSegment?
        = List.replicate (n + 1) .up :=
      List.filterMap_replicate_of_some rfl
    rw [if_neg (Nat.succ_ne_zero n), segments_ups, List.filterMap_append, hups,
      filterMap_segments_joined hdown]

/-- As many steps up as there are names on the stack take them off. -/
theorem foldl_collapseStep_ups (names : List String) (stack : List Component) :
    (List.replicate names.length Component.up).foldl collapseStep (names.map .name ++ stack)
      = stack := by
  induction names with
  | nil => rfl
  | cons name names ih => exact ih

end

section
variable {shared below rest : List String}

/-- The way from a directory to a file leads to the file, over whichever directory above both of
    them it goes. -/
theorem normalize_climb (hdirectory : ∀ name ∈ shared ++ below, ProperName name)
    (hrest : ∀ name ∈ rest, ProperName name) :
    ((pathOf (shared ++ below)).child (climb below.length (rest.map .name))).normalize
      = pathOf (shared ++ rest) := by
  have hchars : (pathOf (shared ++ below)).chars ≠ [] := (canonical_pathOf hdirectory).chars_ne_nil
  have hcomponents : ((pathOf (shared ++ below)).child
      (climb below.length (rest.map .name))).components
        = .root :: (shared.map .name
          ++ (below.map .name ++ (List.replicate below.length .up ++ rest.map .name))) := by
    rw [child, components_join hchars not_isAbsolute_climb,
      ← filterMap_segments_of_relative not_isAbsolute_climb, chars_ofString,
      filterMap_segments_climb (inner_of_properName hrest), components_pathOf hdirectory,
      List.map_append, List.cons_append, List.append_assoc]
  have hups := foldl_collapseStep_ups below.reverse (shared.reverse.map .name ++ [.root])
  rw [List.length_reverse] at hups
  rw [Path.normalize, hcomponents, collapse, List.foldl_cons,
    show collapseStep [] .root = [.root] from rfl, List.foldl_append, foldl_collapseStep_names,
    List.foldl_append, foldl_collapseStep_names, List.foldl_append, hups,
    foldl_collapseStep_names, pathOf]
  simp [List.map_reverse]

/-- Two canonical paths that begin alike, by their names. -/
theorem exists_places {directory file : Path} (hdirectory : directory.Canonical)
    (hfile : file.Canonical) {shared below rest : List Component} (hshared : shared ≠ [])
    (hbelow : directory.components = shared ++ below) (hrest : file.components = shared ++ rest) :
    ∃ front back names : List String, (∀ name ∈ front ++ back, ProperName name) ∧
      (∀ name ∈ front ++ names, ProperName name) ∧ directory = pathOf (front ++ back) ∧
      file = pathOf (front ++ names) ∧ below = back.map .name ∧ rest = names.map .name := by
  obtain ⟨place, hplace, rfl⟩ := hdirectory
  obtain ⟨place', hplace', rfl⟩ := hfile
  obtain ⟨first, shared, rfl⟩ := List.exists_cons_of_ne_nil hshared
  rw [components_pathOf hplace, List.cons_append, List.cons.injEq, List.map_eq_append_iff] at hbelow
  rw [components_pathOf hplace', List.cons_append, List.cons.injEq, List.map_eq_append_iff] at hrest
  obtain ⟨-, front, back, rfl, hfront, rfl⟩ := hbelow
  obtain ⟨-, front', names, rfl, hfront', rfl⟩ := hrest
  have hinjective : Function.Injective Component.name := fun _ _ heq => Component.name.inj heq
  obtain rfl : front' = front := hinjective.list_map (hfront'.trans hfront.symm)
  exact ⟨front', back, names, hplace, hplace', rfl, rfl, rfl, rfl⟩

end

/-! ### Files whose extension is left out -/

/-- What is tried before the file `stem.ext` of a directory when its extension is left out: the bare
    name, the files that a file of this name may be made from, and the extensions that come
    first. -/
def shadows (parent : Path) (stem ext : String) : List Path :=
  parent.child stem
    :: (((parent.child stem).extension?.map sourceExtensions).getD []).map
      (parent.child stem).withExtension
    ++ (scriptExtensions.takeWhile (· != ext)).map fun other => parent.child (stem ++ "." ++ other)

section
variable {place : List String} {stem ext : String}

/-- A text at the end of a canonical path belongs to its last name. -/
theorem append_pathOf (place : List String) (name text : String) :
    (pathOf (place ++ [name])).append text = pathOf (place ++ [name ++ text]) := by
  apply ext_chars
  -- The last name comes last in the spelling, so it can be continued there.
  have hjoined : ∀ last : String, ∃ front, ∀ more : String,
      joined ((place ++ [last ++ more]).map String.toList)
        = front ++ last.toList ++ more.toList := by
    intro last
    by_cases hplace : place = []
    · exact ⟨[], fun more => by simp [hplace, joined]⟩
    · refine ⟨joined (place.map String.toList) ++ ['/'], fun more => ?_⟩
      rw [List.map_append, List.map_singleton, joined_append_singleton (by simpa using hplace)]
      simp
  obtain ⟨front, hfront⟩ := hjoined name
  have hname := hfront ""
  rw [String.append_empty, String.toList_empty, List.append_nil] at hname
  rw [append, chars_ofString, String.toList_append, ← chars, chars_pathOf, chars_pathOf, hname,
    hfront]
  rfl

/-- The stem of a proper name is proper, unless it is made of dots. -/
theorem properName_stem (hname : ProperName (stem ++ "." ++ ext)) (hstem : stem ∉ ["", ".", ".."]) :
    ProperName stem := by
  simp only [List.mem_cons, List.not_mem_nil, or_false, not_or] at hstem
  obtain ⟨hempty, hdot, hdots⟩ := hstem
  have hsep := hname.2.2
  simp only [String.toList_append, List.mem_append, not_or] at hsep
  refine ⟨?_, fun h => hdots (String.toList_inj.1 h), hsep.1.1⟩
  rw [isIdle, Bool.or_eq_false_iff]
  refine ⟨?_, ?_⟩
  · rw [List.isEmpty_eq_false_iff]
    exact fun h => hempty (String.toList_inj.1 h)
  · rw [beq_eq_false_iff_ne]
    exact fun h => hdot (String.toList_inj.1 h)

/-- A proper name with an extension is proper. -/
theorem properName_extended (hstem : ProperName stem) (hext : ext ∈ scriptExtensions) :
    ProperName (stem ++ "." ++ ext) := by
  have hproper : ∀ ext ∈ scriptExtensions, ProperExtension ext := by decide
  have hlast := hproper ext hext
  have hsep : '/' ∉ stem.toList ++ '.' :: ext.toList := by
    simp only [List.mem_append, List.mem_cons, not_or]
    exact ⟨hstem.2.2, by decide, hlast.2.1⟩
  have hname := properName_concat (properName_ne_nil hstem) hsep fun h => hlast.1 h.2
  rwa [show String.ofList (stem.toList ++ '.' :: ext.toList) = stem ++ "." ++ ext from
    String.toList_inj.1 (by simp)] at hname

/-- The extensions that are tried before one, and those behind it. -/
theorem exists_scriptExtensions (hext : ext ∈ scriptExtensions) :
    ∃ later, scriptExtensions = scriptExtensions.takeWhile (· != ext) ++ ext :: later := by
  generalize scriptExtensions = extensions at hext
  induction extensions with
  | nil => cases hext
  | cons first extensions ih =>
    by_cases hfirst : first = ext
    · exact ⟨extensions, by simp [hfirst]⟩
    · obtain ⟨later, hlater⟩ := ih ((List.mem_cons.1 hext).resolve_left (Ne.symm hfirst))
      refine ⟨later, ?_⟩
      rw [List.takeWhile_cons_of_pos (by simpa using hfirst), List.cons_append, ← hlater]

/-- The file comes right behind what is tried before it. -/
theorem exists_candidates (hplace : ∀ name ∈ place, ProperName name) (hstem : ProperName stem)
    (hext : ext ∈ scriptExtensions) :
    ∃ later, candidates ((pathOf place).child stem) =
      shadows (pathOf place) stem ext ++ pathOf (place ++ [stem ++ "." ++ ext]) :: later := by
  have happend : ∀ other ∈ scriptExtensions,
      ((pathOf place).child stem).append ("." ++ other)
        = (pathOf place).child (stem ++ "." ++ other) := by
    intro other hother
    rw [child_pathOf hplace hstem, append_pathOf, ← String.append_assoc,
      child_pathOf hplace (properName_extended hstem hother)]
  obtain ⟨later, hsplit⟩ := exists_scriptExtensions hext
  -- The candidates are cut where the extension has its place among all of them.
  have hextended : scriptExtensions.map
      (fun other => ((pathOf place).child stem).append ("." ++ other))
      = (scriptExtensions.takeWhile (· != ext)).map
      (fun other => (pathOf place).child (stem ++ "." ++ other)) ++
        pathOf (place ++ [stem ++ "." ++ ext]) ::
          later.map fun other => (pathOf place).child (stem ++ "." ++ other) := by
    rw [List.map_congr_left happend, ← child_pathOf hplace (properName_extended hstem hext)]
    conv => lhs; rw [hsplit]
    rw [List.map_append, List.map_cons]
  refine ⟨later.map (fun other => (pathOf place).child (stem ++ "." ++ other)) ++
    scriptExtensions.map (fun other => ((pathOf place).child stem).child ("index." ++ other)), ?_⟩
  rw [candidates, hextended, shadows]
  simp only [List.append_assoc, List.cons_append]

end

/-- What stands at the end of the last name stands at the end of the specifier. -/
theorem climb_concat (ups : Nat) (down : List Component) (name text : String) :
    climb ups (down ++ [.name (name ++ text)]) = climb ups (down ++ [.name name]) ++ text := by
  have hjoined : ∃ front, ∀ last : String,
      joined ((down ++ [Component.name last]).map Component.text) = front ++ last.toList := by
    by_cases hdown : down = []
    · exact ⟨[], fun last => by simp [hdown, joined, Component.text]⟩
    · refine ⟨joined (down.map Component.text) ++ ['/'], fun last => ?_⟩
      rw [List.map_append, List.map_singleton, joined_append_singleton (by simpa using hdown)]
      simp [Component.text]
  obtain ⟨front, hfront⟩ := hjoined
  apply String.toList_inj.1
  rw [String.toList_append, toList_climb, toList_climb, hfront, hfront, String.toList_append]
  simp only [List.append_assoc]

/-- The specifier without a text at its end goes down to the name without it. -/
theorem eq_climb_of_append {ups : Nat} {down : List Component} {name text bare : String}
    (h : climb ups (down ++ [.name (name ++ text)]) = bare ++ text) :
    bare = climb ups (down ++ [.name name]) := by
  rw [climb_concat] at h
  have hlist := congrArg String.toList h
  rw [String.toList_append, String.toList_append, List.append_cancel_right_eq] at hlist
  exact String.toList_inj.1 hlist.symm

/-- A way that only climbs ends with a separator, and so in no extension. -/
theorem climb_nil_ne_append (ups : Nat) (bare : String) {ext : String}
    (hext : ext ∈ scriptExtensions) : climb ups [] ≠ bare ++ "." ++ ext := by
  have hproper : ∀ ext ∈ scriptExtensions, ProperExtension ext := by decide
  have hend : (climb ups []).toList.getLast? = some '/' := by
    rw [toList_climb]
    cases ups with
    | zero => rfl
    | succ n => simp [List.replicate_succ', joined]
  intro h
  rw [h, String.toList_append, List.getLast?_append_of_ne_nil _ (hproper ext hext).1] at hend
  exact (hproper ext hext).2.1 (List.mem_of_getLast? hend)

section
variable {c : Context} {base : Path}

/-- A known base is found at once. -/
theorem probe?_of_contains (h : c.known.contains base = true) : c.probe? base = some base :=
  List.find?_cons_of_pos h

/-- A known file that comes behind some others is hit unless one of these is. -/
theorem probe?_of_candidates {tried later : List Path} {file : Path}
    (hcandidates : candidates base = tried ++ file :: later)
    (hfile : c.known.contains file = true) :
    c.probe? base = some ((tried.find? c.known.contains).getD file) := by
  rw [Context.probe?, hcandidates, List.find?_append, List.find?_cons_of_pos hfile]
  cases tried.find? c.known.contains with
  | none => rfl
  | some hit => rfl

end

/-- **The way to a file finds it.** Take a directory, a known file, and the way from the one to the
    other over any directory above both. As a specifier it stands for the file. Without the
    extension it stands for the file too, unless something is known that is tried before it; then
    for the first of that. -/
theorem relative_round_trip (c : Context) {directory file : Path} (hdirectory : directory.Canonical)
    (hfile : file.Canonical) (hknown : c.known.contains file = true)
    {shared below rest : List Component} (hshared : shared ≠ [])
    (hbelow : directory.components = shared ++ below) (hrest : file.components = shared ++ rest) :
    c.resolve? (climb below.length rest) directory = some file ∧
    ∀ parent stem ext bare, file.parent? = some parent →
      file.fileName? = some (stem ++ "." ++ ext) → ext ∈ scriptExtensions → stem ∉ ["", ".", ".."] →
      climb below.length rest = bare ++ "." ++ ext → c.resolve? bare directory
      = some (((shadows parent stem ext).find? c.known.contains).getD file) := by
  obtain ⟨front, back, names, hplace, hplace', rfl, rfl, rfl, rfl⟩ :=
    exists_places hdirectory hfile hshared hbelow hrest
  obtain ⟨hfront, hnames⟩ := List.forall_mem_append.1 hplace'
  rw [List.length_map]
  constructor
  · rw [Context.resolve?_anchored isAnchored_climb, normalize_climb hplace hnames,
      probe?_of_contains hknown]
    rfl
  · intro parent stem ext bare hparent hname hext hstem hbare
    -- The last name of the file is the last one of the way, so the way goes down.
    rcases List.eq_nil_or_concat' names with rfl | ⟨above, last, rfl⟩
    · exact absurd hbare (climb_nil_ne_append back.length bare hext)
    · obtain rfl : last = stem ++ "." ++ ext := by
        have hend := getLast?_of_fileName? hname
        rw [components_pathOf hplace', List.map_append, List.map_append, List.map_singleton,
          ← List.append_assoc, ← List.cons_append, List.getLast?_concat, Option.some_inj] at hend
        exact Component.name.inj hend
      rw [List.forall_mem_append, List.forall_mem_singleton] at hnames
      obtain ⟨habove, hlast⟩ := hnames
      have hstem := properName_stem hlast hstem
      have hparentPlace : ∀ name ∈ front ++ above, ProperName name :=
        List.forall_mem_append.2 ⟨hfront, habove⟩
      obtain rfl : bare = climb back.length ((above ++ [stem]).map .name) := by
        rw [List.map_append, List.map_singleton, String.append_assoc, String.append_assoc] at hbare
        rw [List.map_append, List.map_singleton]
        exact eq_climb_of_append hbare
      rw [← List.append_assoc, parent?_pathOf hparentPlace hlast, Option.some_inj] at hparent
      subst hparent
      obtain ⟨later, hcandidates⟩ := exists_candidates hparentPlace hstem hext
      rw [← List.append_assoc] at hknown
      rw [Context.resolve?_anchored isAnchored_climb,
        normalize_climb hplace
          (List.forall_mem_append.2 ⟨habove, List.forall_mem_singleton.2 hstem⟩),
        ← List.append_assoc, ← child_pathOf hparentPlace hstem,
        probe?_of_candidates hcandidates hknown, ← List.append_assoc]
      rfl

/-- From a directory on another branch, the file is found by its full name. Without its extension
    the name is that of a compiled file, and its source is found. -/
theorem Sample.relative_round_trip_sources :
    sources.resolve? "../../a/util.js.tsx" (ofString "/p/x/y")
      = some (ofString "/p/a/util.js.tsx") ∧
    sources.resolve? "../../a/util.js" (ofString "/p/x/y") = some (ofString "/p/a/util.tsx") := by
  have hdirectory : (ofString "/p/x/y").Canonical := ⟨["p", "x", "y"], by decide, by decide⟩
  have hfile : (ofString "/p/a/util.js.tsx").Canonical :=
    ⟨["p", "a", "util.js.tsx"], by decide, by decide⟩
  have hknown : sources.known.contains (ofString "/p/a/util.js.tsx") = true := by decide +kernel
  have hbelow : (ofString "/p/x/y").components = [.root, .name "p"] ++ [.name "x", .name "y"] := by
    decide
  have hrest : (ofString "/p/a/util.js.tsx").components
      = [.root, .name "p"] ++ [.name "a", .name "util.js.tsx"] := by
    decide
  have hfound := relative_round_trip sources hdirectory hfile hknown (by simp) hbelow hrest
  refine ⟨hfound.1, ?_⟩
  have hfirst : ((shadows (ofString "/p/a") "util.js" "tsx").find? sources.known.contains).getD
      (ofString "/p/a/util.js.tsx") = ofString "/p/a/util.tsx" := by decide +kernel
  rw [← hfirst]
  exact hfound.2 _ "util.js" "tsx" _ (by decide) (by decide) (by decide) (by decide) (by decide)

end Resolve

end BlastRadius
