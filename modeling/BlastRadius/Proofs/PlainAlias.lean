import BlastRadius.Proofs.AliasReach
import BlastRadius.Proofs.Determined

namespace BlastRadius

/-!
# Aliases without a star

A pattern without a star matches every specifier that begins with it, also where it ends within a
name, and the rest of the specifier is put right behind the targets. So `@acme/ui-kit` is looked for
beside the target of `@acme/ui`, among the names that go on from its own.

* `Path.Beside` — a path in the directory of another one that is not below that one.
* `Resolve.normalize_append` — where a target leads with such a rest behind it.
* `Resolve.StandsIn`, `Resolve.exists_components_of_candidate` — what a candidate has in the place
  of the last name.
* `Resolve.beside_of_candidate` — all candidates are beside the target.
* `Resolve.resolve?_plain` — a specifier that only one plain alias matches.
* `Resolve.plain_alias_within_name` — the theorem; `Resolve.Sample.plain_alias_meets_sibling` — it
  does lead somewhere.
-/

open Component Disk BlastRadius.Path Text

/-- A path is beside another one when it is below the directory of that one, but neither is that one
    nor below it. -/
def Path.Beside (file target : Path) : Prop :=
  ∃ parent, target.parent? = some parent ∧ file.isUnder parent = true ∧ file.isUnder target = false

namespace Resolve

/-! ### A rest within a name -/

section
variable {place : List String} {name : String} {segs : List (List Char)}

/-- Segments without a step up say names. -/
theorem exists_names_of_segments (hsep : ∀ segment ∈ segs, '/' ∉ segment)
    (hups : ['.', '.'] ∉ segs) :
    ∃ names : List String, (∀ name ∈ names, ProperName name) ∧
      segs.filterMap ofSegment? = names.map .name := by
  induction segs with
  | nil => exact ⟨[], by simp, rfl⟩
  | cons segment segs ih =>
    rw [List.mem_cons, not_or] at hups
    rw [List.forall_mem_cons] at hsep
    obtain ⟨names, hnames, heq⟩ := ih hsep.2 hups.2
    cases hsegment : ofSegment? segment with
    | none => exact ⟨names, hnames, by rw [List.filterMap_cons_none hsegment, heq]⟩
    | some c =>
      have hc := inner_of_ofSegment? hsep.1 hsegment
      rw [List.filterMap_cons_some hsegment, heq]
      cases c with
      | root => exact hc.elim
      | here => exact hc.elim
      -- Only two dots say a step up, and they are not among the segments.
      | up =>
        unfold ofSegment? at hsegment
        split at hsegment
        · cases hsegment
        · split at hsegment
          · next h => exact absurd h.symm hups.1
          · cases hsegment
      | name text => exact ⟨text :: names, List.forall_mem_cons.2 ⟨hc, hnames⟩, rfl⟩

/-- A name stays one when it goes on within the same segment. -/
theorem properName_append (hname : ProperName name) {first : List Char} (hfirst : first ≠ [])
    (hsep : '/' ∉ first) : ProperName (name ++ String.ofList first) := by
  obtain ⟨hidle, -, hname⟩ := hname
  obtain ⟨c, cs, hcs⟩ := List.exists_cons_of_ne_nil hfirst
  have hne : name.toList ≠ [] := by
    intro hnil
    simp [hnil, isIdle] at hidle
  obtain ⟨d, ds, hds⟩ := List.exists_cons_of_ne_nil hne
  have hlist : (name ++ String.ofList first).toList = d :: (ds ++ c :: cs) := by simp [hcs, hds]
  refine ⟨?_, ?_, ?_⟩ <;> rw [hlist]
  · simp [isIdle]
  · intro hdots
    -- Of two dots the first would be the name.
    obtain ⟨rfl, rfl⟩ : d = '.' ∧ ds = [] := by
      cases ds with
      | nil => exact ⟨(List.cons.inj hdots).1, rfl⟩
      | cons e ds => simp at hdots
    simp [hds, isIdle] at hidle
  · rw [← List.cons_append, ← hds, ← hcs, List.mem_append]
    exact not_or.2 ⟨hname, hsep⟩

/-- The components of a path with more behind its last name: the first segment goes on from the
    name, and the others are read for themselves. -/
theorem components_append {rest first : List Char} (h : segments rest = first :: segs)
    (hplace : ∀ x ∈ place ++ [name ++ String.ofList first], ProperName x) :
    ((pathOf (place ++ [name])).append (String.ofList rest)).components
      = .root :: (place ++ [name ++ String.ofList first]).map .name
        ++ segs.filterMap ofSegment? := by
  have hjoined := joined_segments rest
  rw [h] at hjoined
  rw [← components_pathOf hplace, ← append_pathOf]
  cases segs with
  | nil =>
    obtain rfl : first = rest := hjoined
    simp
  -- Only the first segment grows the last name, the others follow behind separators.
  | cons next segs =>
    have hsep : ∀ segment ∈ next :: segs, '/' ∉ segment := fun segment hmem =>
      separator_not_mem_segments (h ▸ List.mem_cons_of_mem _ hmem)
    have hne : ((pathOf (place ++ [name])).append (String.ofList first)).chars ≠ [] := by
      rw [append_pathOf]
      exact (canonical_pathOf hplace).chars_ne_nil
    have hchars : ((pathOf (place ++ [name])).append (String.ofList rest)).chars
        = ((pathOf (place ++ [name])).append (String.ofList first)).chars
          ++ '/' :: joined (next :: segs) := by
      rw [← hjoined, joined_cons_cons, append, append, chars_ofString, chars_ofString]
      simp
    rw [components_eq_ofText, hchars, ofText_append_separator, ofText_concat_separator hne,
      ← components_eq_ofText, segments_joined (by simp) hsep]

/-- **Where a rest within a name leads.** To another name in the same directory, which goes on from
    the first one, or below it. -/
theorem normalize_append {rest : String} (hplace : ∀ x ∈ place, ProperName x)
    (hname : ProperName name) (hrest : rest ≠ "") (hwithin : rest.toList.head? ≠ some '/')
    (hups : ['.', '.'] ∉ (segments rest.toList).tail) :
    ∃ first below, first ≠ "" ∧ (∀ x ∈ place ++ (name ++ first) :: below, ProperName x) ∧
      ((pathOf (place ++ [name])).append rest).normalize
        = pathOf (place ++ (name ++ first) :: below) := by
  obtain ⟨first, segs, hsegs⟩ := exists_segments_eq_cons rest.toList
  have hsep : ∀ segment ∈ first :: segs, '/' ∉ segment := fun segment hmem =>
    separator_not_mem_segments (hsegs ▸ hmem)
  -- The rest begins with something else than a separator, so its first segment is not empty.
  have hfirst : first ≠ [] := by
    rintro rfl
    have hjoined := joined_segments rest.toList
    rw [hsegs] at hjoined
    cases segs with
    | nil => exact hrest (String.toList_inj.1 hjoined.symm)
    | cons next segs =>
      rw [← hjoined] at hwithin
      exact hwithin rfl
  rw [List.forall_mem_cons] at hsep
  rw [hsegs, List.tail_cons] at hups
  have hlonger := properName_append hname hfirst hsep.1
  obtain ⟨below, hbelow, hnames⟩ := exists_names_of_segments hsep.2 hups
  have hall : ∀ x ∈ place ++ (name ++ String.ofList first) :: below, ProperName x :=
    List.forall_mem_append.2 ⟨hplace, List.forall_mem_cons.2 ⟨hlonger, hbelow⟩⟩
  refine ⟨String.ofList first, below, by simpa using hfirst, hall, ?_⟩
  have hsame : ((pathOf (place ++ [name])).append rest).Same
      (pathOf (place ++ (name ++ String.ofList first) :: below)) := by
    have hcomponents := components_append hsegs
      (List.forall_mem_append.2 ⟨hplace, List.forall_mem_singleton.2 hlonger⟩)
    rw [String.ofList_toList, hnames] at hcomponents
    rw [Same, hcomponents, components_pathOf hall]
    simp
  rw [normalize_congr hsame, (canonical_pathOf hall).normalize_eq]

end

/-! ### What is tried for a path -/

/-- What can stand in the place of the last name of a path, in a file that the path may stand
    for. -/
inductive StandsIn (last : String) : Component → Prop where
  | itself : StandsIn last (.name last)
  /-- The name that it is made from. -/
  | source {stem own ext : String} (hlast : last = stem ++ "." ++ own)
      (hext : ext ∈ sourceExtensions own) : StandsIn last (.name (stem ++ "." ++ ext))
  /-- What is left of a name like `..js` without its extension. -/
  | dots : StandsIn last .up
  | extended (ext : String) : StandsIn last (.name (last ++ "." ++ ext))

section
variable {front place : List String} {last name first : String} {file : Path}

/-- The components of a place with its last name apart. -/
theorem components_concat (hfront : ∀ x ∈ front, ProperName x) (hlast : ProperName last) :
    (pathOf (front ++ [last])).components = .root :: front.map .name ++ [.name last] := by
  rw [components_pathOf (List.forall_mem_append.2 ⟨hfront, List.forall_mem_singleton.2 hlast⟩)]
  simp

/-- The last name with the extension of a source. -/
theorem exists_components_withExtension (hfront : ∀ x ∈ front, ProperName x)
    (hlast : ProperName last) {ext : String}
    (hext : ext ∈ ((pathOf (front ++ [last])).extension?.map sourceExtensions).getD []) :
    ∃ c, StandsIn last c ∧
      ((pathOf (front ++ [last])).withExtension ext).components
        = .root :: (front.map .name ++ [c]) := by
  have hcomponents := components_concat hfront hlast
  have hfile : (pathOf (front ++ [last])).fileName? = some last :=
    fileName?_of_getLast? (by rw [hcomponents, List.getLast?_concat])
  -- Another extension is only tried where the name has one.
  cases hown : (splitExtension last.toList).2 with
  | none => simp [extension?, hfile, hown] at hext
  | some own =>
    have hsplit : splitExtension last.toList = ((splitExtension last.toList).1, some own) :=
      Prod.ext rfl hown
    have hsource : ext ∈ sourceExtensions (String.ofList own) := by
      simpa [extension?, hfile, hown] using hext
    have hname : last = String.ofList (splitExtension last.toList).1 ++ "."
        ++ String.ofList own := by
      apply String.toList_inj.1
      simpa using (eq_concat_of_splitExtension hsplit).1
    rw [components_withExtension hfile hsplit (properExtension_of_mem_sourceExtensions hsource),
      hcomponents, List.dropLast_concat, List.cons_append]
    refine ⟨_, ?_, rfl⟩
    split
    · exact .dots
    · have heq : String.ofList ((splitExtension last.toList).1 ++ '.' :: ext.toList)
          = String.ofList (splitExtension last.toList).1 ++ "." ++ ext :=
            String.toList_inj.1 (by simp)
      rw [heq]
      exact .source hname hsource

/-- Every file that a path may stand for keeps all its names but the last. -/
theorem exists_components_of_candidate (hfront : ∀ x ∈ front, ProperName x)
    (hlast : ProperName last) (h : file ∈ candidates (pathOf (front ++ [last]))) :
    ∃ c below, StandsIn last c ∧ file.components = .root :: (front.map .name ++ c :: below) := by
  have hall : ∀ x ∈ front ++ [last], ProperName x :=
    List.forall_mem_append.2 ⟨hfront, List.forall_mem_singleton.2 hlast⟩
  unfold candidates at h
  rw [List.mem_append, List.mem_append, List.mem_cons, List.mem_map, List.mem_map,
    List.mem_map] at h
  -- The four kinds of candidates: the base, its sources, with an extension, an index below it.
  obtain ((rfl | ⟨ext, hext, rfl⟩) | ⟨ext, hext, rfl⟩) | ⟨ext, hext, rfl⟩ := h
  · exact ⟨.name last, [], .itself, components_concat hfront hlast⟩
  · obtain ⟨c, hc, hcomponents⟩ := exists_components_withExtension hfront hlast hext
    exact ⟨c, [], hc, hcomponents⟩
  · refine ⟨.name (last ++ "." ++ ext), [], .extended ext, ?_⟩
    rw [append_pathOf, ← String.append_assoc]
    exact components_concat hfront (properName_extended hlast hext)
  · have hindex : ∀ ext ∈ scriptExtensions, ProperName ("index." ++ ext) := by decide
    refine ⟨.name last, [.name ("index." ++ ext)], .itself, ?_⟩
    rw [child_pathOf hall (hindex ext hext), components_concat hall (hindex ext hext)]
    simp

/-- No extension of a source begins a compiled one. -/
theorem not_prefix_of_mem_sourceExtensions {own ext : String} (h : ext ∈ sourceExtensions own) :
    ¬ext.toList <+: own.toList := by
  unfold sourceExtensions at h
  split at h
  case h_5 => cases h
  all_goals
    revert ext
    decide

/-- What stands in for a longer name is not the name itself. -/
theorem StandsIn.ne {c : Component} (h : StandsIn (name ++ first) c) (hfirst : first ≠ "") :
    c ≠ .name name := by
  intro hc
  cases h with
  | itself => exact hfirst (by simpa using Component.name.inj hc)
  -- The source extension would continue the one that it replaces, which none does.
  | @source stem own ext hlast hext =>
    obtain rfl := Component.name.inj hc
    apply not_prefix_of_mem_sourceExtensions hext
    have heq := congrArg String.toList hlast
    simp only [String.toList_append, List.append_assoc, List.append_cancel_left_eq] at heq
    exact ⟨first.toList, heq⟩
  | dots => cases hc
  | extended ext =>
    have hlength := congrArg String.length (Component.name.inj hc)
    simp only [String.length_append, show ".".length = 1 from rfl] at hlength
    omega

/-- Where a file has something else than the name, it is beside the name. -/
theorem beside_of_components (hplace : ∀ x ∈ place, ProperName x) (hname : ProperName name)
    {c : Component} {below : List Component} (hc : c ≠ .name name)
    (h : file.components = .root :: (place.map .name ++ c :: below)) :
    file.Beside (pathOf (place ++ [name])) := by
  have hall : ∀ x ∈ place ++ [name], ProperName x :=
    List.forall_mem_append.2 ⟨hplace, List.forall_mem_singleton.2 hname⟩
  refine ⟨pathOf place, parent?_pathOf hplace hname, ?_, ?_⟩
  · rw [isUnder, h, components_pathOf hplace, List.isPrefixOf_iff_prefix]
    exact ⟨c :: below, rfl⟩
  · rw [isUnder, h, components_pathOf hall, Bool.eq_false_iff, ne_eq, List.isPrefixOf_iff_prefix,
      List.map_append, List.cons_prefix_cons, List.prefix_append_right_inj]
    rintro ⟨-, hprefix⟩
    exact hc (List.cons_prefix_cons.1 hprefix).1.symm

/-- **All candidates are beside the target.** A rest that ends the target within a name leads past
    it. -/
theorem beside_of_candidate {target : Path} {rest : String} (htarget : target.Canonical)
    (hparent : target.parent? ≠ none) (hrest : rest ≠ "") (hwithin : rest.toList.head? ≠ some '/')
    (hups : ['.', '.'] ∉ (segments rest.toList).tail)
    (h : file ∈ candidates (target.append rest).normalize) : file.Beside target := by
  obtain ⟨place, hplace, rfl⟩ := htarget
  rcases List.eq_nil_or_concat place with rfl | ⟨place, name, rfl⟩
  · exact absurd (by decide) hparent
  rw [List.concat_eq_append] at hplace h ⊢
  rw [List.forall_mem_append, List.forall_mem_singleton] at hplace
  obtain ⟨first, below, hfirst, hall, hnormal⟩ :=
    normalize_append hplace.1 hplace.2 hrest hwithin hups
  rw [hnormal] at h
  have hne : Component.name (name ++ first) ≠ .name name := StandsIn.itself.ne hfirst
  rcases List.eq_nil_or_concat below with rfl | ⟨middle, last, rfl⟩
  · obtain ⟨c, more, hc, hcomponents⟩ :=
      exists_components_of_candidate hplace.1 (hall _ (by simp)) h
    exact beside_of_components hplace.1 hplace.2 (hc.ne hfirst) hcomponents
  · -- The longer name is not the last one, so it stays.
    rw [List.concat_eq_append, ← List.cons_append, ← List.append_assoc] at hall h
    rw [List.forall_mem_append, List.forall_mem_singleton] at hall
    obtain ⟨c, more, -, hcomponents⟩ := exists_components_of_candidate hall.1 hall.2 h
    have hlonger : file.components
        = .root :: (place.map .name
          ++ .name (name ++ first) :: (middle.map .name ++ c :: more)) := by
      rw [hcomponents]
      simp
    exact beside_of_components hplace.1 hplace.2 hne hlonger

end

/-! ### A table with one plain alias -/

section
variable {c : Context} {pattern rest : String} {targets : List Path}

/-- A pattern without a star at its end stands for what it is in front of. -/
theorem form_plain (h : pattern.toList.getLast? ≠ some '*') (targets : List Path) :
    Alias.form ⟨pattern, targets⟩ = ⟨pattern.toList, false⟩ := by
  unfold Alias.form
  split
  · next front hfront =>
    rw [← List.head?_reverse, hfront] at h
    exact absurd rfl h
  · simp

/-- A plain alias puts the rest right behind its targets. -/
theorem leads_plain (h : pattern.toList.getLast? ≠ some '*') (hrest : rest ≠ "")
    (targets : List Path) :
    Alias.leads ⟨pattern, targets⟩ (pattern ++ rest).toList
      = targets.map fun target => (target.append rest).normalize := by
  have hstrip : stripPrefix? pattern.toList (pattern ++ rest).toList = some rest.toList := by
    rw [stripPrefix?_eq_some_iff, String.toList_append]
  have hne : ¬rest.toList.isEmpty = true := by simpa using hrest
  rw [Alias.leads, form_plain h, hstrip, Option.map_some, Option.getD_some]
  refine List.map_congr_left fun target _ => ?_
  rw [aliasPath, if_neg hne, if_neg (by simp), String.ofList_toList]

/-- A bare specifier that the base has nothing for stands for the first file that a target leads
    to. -/
theorem resolve?_plain (hentries : c.aliases.entries = [⟨pattern, targets⟩])
    (hpattern : pattern.toList.getLast? ≠ some '*') (hrest : rest ≠ "")
    (hbare : Bare (pattern ++ rest))
    (hbase : (AliasTable.bare c.aliases.baseUrl).Misses c.known (pattern ++ rest)) (origin : Path) :
    c.resolve? (pattern ++ rest) origin
      = targets.findSome? fun target => c.probe? (target.append rest).normalize := by
  have hmissed := hbase.findSome?_eq_none
  have hleads : c.aliases.leads (pattern ++ rest)
      = (AliasTable.bare c.aliases.baseUrl).leads (pattern ++ rest)
        ++ targets.map fun target => (target.append rest).normalize := by
    rw [AliasTable.leads, AliasTable.leads, hentries, List.flatMap_singleton,
      leads_plain hpattern hrest]
    rfl
  rw [Context.resolve?_eq_findSome? hbare, hleads, List.findSome?_append, hmissed, Option.none_or,
    List.findSome?_map]
  rfl

/-- Probing finds nothing exactly where no candidate is known. -/
theorem Context.probe?_eq_none {base : Path} :
    c.probe? base = none ↔ ∀ file ∈ candidates base, c.known.contains file = false := by
  simp [Context.probe?]

end

/-- **A plain alias within a name.** Of a table with one alias whose pattern has no star, take a
    bare specifier that begins with the pattern and goes on within the same name, and that the base
    has nothing for.

    * It stands for nothing exactly when no file is known that a target may stand for with the rest
      put behind it.
    * It stands for the file that the first target leads to that leads to one.
    * If the targets are canonical paths other than the root, and the rest does not climb, then all
      these files are beside the targets, so that the specifier stands for nothing if no file beside
      a target is known. -/
theorem plain_alias_within_name (c : Context) (pattern rest : String) (targets : List Path)
    (origin : Path) (hentries : c.aliases.entries = [⟨pattern, targets⟩])
    (hpattern : pattern.toList.getLast? ≠ some '*') (hrest : rest ≠ "")
    (hwithin : rest.toList.head? ≠ some '/') (hbare : Bare (pattern ++ rest))
    (hbase : (AliasTable.bare c.aliases.baseUrl).Misses c.known (pattern ++ rest)) :
    (c.resolve? (pattern ++ rest) origin = none ↔
      ∀ target ∈ targets, ∀ file ∈ candidates (target.append rest).normalize,
        c.known.contains file = false) ∧
    (∀ hit, c.resolve? (pattern ++ rest) origin = some hit ↔
      ∃ earlier target later, targets = earlier ++ target :: later ∧
        c.probe? (target.append rest).normalize = some hit ∧
        ∀ other ∈ earlier, c.probe? (other.append rest).normalize = none) ∧
    ((∀ target ∈ targets, target.Canonical ∧ target.parent? ≠ none) →
      ['.', '.'] ∉ (segments rest.toList).tail →
        (∀ target ∈ targets, ∀ file ∈ candidates (target.append rest).normalize,
          file.Beside target) ∧
      ((∀ file, c.known.contains file = true → ∀ target ∈ targets, ¬file.Beside target) →
        c.resolve? (pattern ++ rest) origin = none)) := by
  have hresolve := resolve?_plain hentries hpattern hrest hbare hbase origin
  have hnone : c.resolve? (pattern ++ rest) origin = none ↔
      ∀ target ∈ targets, ∀ file ∈ candidates (target.append rest).normalize,
        c.known.contains file = false := by
    simp only [hresolve, List.findSome?_eq_none_iff, Context.probe?_eq_none]
  refine ⟨hnone, fun hit => ?_, fun htargets hups => ?_⟩
  · rw [hresolve, List.findSome?_eq_some_iff]
  · have hbeside : ∀ target ∈ targets, ∀ file ∈ candidates (target.append rest).normalize,
        file.Beside target :=
      fun target hmem file hfile =>
        beside_of_candidate (htargets target hmem).1 (htargets target hmem).2 hrest
          hwithin hups hfile
    refine ⟨hbeside, fun hknown => hnone.2 fun target hmem file hfile => ?_⟩
    rw [Bool.eq_false_iff]
    exact fun hcontains => hknown file hcontains target hmem (hbeside target hmem file hfile)

namespace Sample

/-- A table that has one package under its name. -/
def package : AliasTable :=
  ⟨ofString "/p", [⟨"@acme/ui", [ofString "/p/packages/ui"]⟩]⟩

/-- Only files of the package are known. -/
def lone : Context :=
  ⟨package, .ofList [ofString "/p/packages/ui/index.ts", ofString "/p/packages/ui/src/button.tsx"]⟩

/-- A file of another package is known, whose directory is called almost like that of the first. -/
def crowded : Context :=
  ⟨package, .ofList [ofString "/p/packages/ui/index.ts", ofString "/p/packages/ui-kit/index.ts"]⟩

/-- Where all known files lie under a base, so does any that is found. -/
theorem isUnder_of_known {files : List Path} {base file : Path}
    (h : ∀ f ∈ files, f.isUnder base = true) (hfile : (PathSet.ofList files).contains file = true) :
    file.isUnder base = true := by
  obtain ⟨f, hf, hsame⟩ := (PathSet.contains_ofList files file).1 hfile
  rw [isUnder, ← show f.components = file.components from hsame]
  exact h f hf

/-- The base has nothing for the name of another package when all files are packages'. -/
theorem misses_package {known : PathSet}
    (h : ∀ file, known.contains file = true → file.isUnder (ofString "/p/packages") = true) :
    (AliasTable.bare package.baseUrl).Misses known ("@acme/ui" ++ "-kit") := by
  intro base hbase file hfile
  have hleads : (AliasTable.bare package.baseUrl).leads ("@acme/ui" ++ "-kit")
      = [pathOf (["p", "@acme"] ++ ["ui-kit"])] := by decide
  rw [hleads, List.mem_singleton] at hbase
  subst hbase
  obtain ⟨c, below, -, hcomponents⟩ := exists_components_of_candidate (by decide) (by decide) hfile
  rw [Bool.eq_false_iff]
  intro hcontains
  have hunder := h file hcontains
  rw [isUnder, hcomponents, show (ofString "/p/packages").components
    = [.root, .name "p", .name "packages"] from rfl] at hunder
  simp at hunder

/-- The longer name is a bare one. -/
theorem bare_kit : Bare ("@acme/ui" ++ "-kit") :=
  ⟨by decide, by decide⟩

/-- Where only the package is known, the longer name finds nothing. -/
theorem plain_alias_within_name_lone :
    lone.aliases.entries = [⟨"@acme/ui", [ofString "/p/packages/ui"]⟩] ∧
    Bare ("@acme/ui" ++ "-kit") ∧
    (AliasTable.bare lone.aliases.baseUrl).Misses lone.known ("@acme/ui" ++ "-kit") ∧
    (ofString "/p/packages/ui").Canonical ∧ (ofString "/p/packages/ui").parent? ≠ none ∧
    lone.resolve? ("@acme/ui" ++ "-kit") (ofString "/p") = none := by
  have hbase : (AliasTable.bare lone.aliases.baseUrl).Misses lone.known ("@acme/ui" ++ "-kit") :=
    misses_package fun _ => isUnder_of_known (by decide)
  have htarget : (ofString "/p/packages/ui").Canonical :=
    ⟨["p", "packages", "ui"], by decide, by decide⟩
  have hparent : (ofString "/p/packages/ui").parent? ≠ none := by decide
  refine ⟨rfl, bare_kit, hbase, htarget, hparent, ?_⟩
  have hmain :=
    plain_alias_within_name lone "@acme/ui" "-kit" [ofString "/p/packages/ui"] (ofString "/p") rfl
    (by decide) (by decide) (by decide) bare_kit hbase
  refine (hmain.2.2 (by simpa using ⟨htarget, hparent⟩) (by decide)).2
    fun file hfile target hmem hbeside => ?_
  obtain rfl := List.mem_singleton.1 hmem
  obtain ⟨-, -, -, hnot⟩ := hbeside
  rw [isUnder_of_known (by decide) hfile] at hnot
  cases hnot

/-- A name of one package leads to a file of another. -/
theorem plain_alias_meets_sibling :
    crowded.aliases.entries = [⟨"@acme/ui", [ofString "/p/packages/ui"]⟩] ∧
    Bare ("@acme/ui" ++ "-kit") ∧
    (AliasTable.bare crowded.aliases.baseUrl).Misses crowded.known ("@acme/ui" ++ "-kit") ∧
    crowded.resolve? ("@acme/ui" ++ "-kit") (ofString "/p")
    = some (ofString "/p/packages/ui-kit/index.ts") := by
  refine ⟨rfl, bare_kit, ?_, by decide +kernel⟩
  exact misses_package fun _ => isUnder_of_known (by decide)

end Sample

end Resolve

end BlastRadius
