import BlastRadius.Proofs.Listing
import BlastRadius.Proofs.Resolution

namespace BlastRadius

/-!
# Aliases reach the files that they name

Configuration files name directories in a pattern with a star at its end. The table keeps such a
directory without the star, and resolution puts the rest of a specifier behind it again. What comes
out is the file that was meant, if it was not found before under some other path.

* `Path.child_relativeTo?` — the way from a directory to a file below it leads to the file.
* `Resolve.Alias.leads`, `Resolve.AliasTable.leads` — the paths that a bare specifier is looked up
  under, in order; `Resolve.Context.resolve?_eq_findSome?` — it stands for the first known file that
  one of them may stand for.
* `Resolve.AliasTable.Reaches`, `Resolve.reaches_of_entry` — a name leads to a directory and to all
  the files below.
* `Project.exists_compilerAlias`, `Project.mem_packageAliases` — the entries that configuration
  files give.
* `Project.aliases_reach` — the theorem.
-/

open Component Disk BlastRadius.Path Resolve Text

/-! ### The way to a file below a directory -/

namespace Path

variable {directory file rest : Path}

/-- What is left of a file behind a directory completes the directory. -/
theorem components_relativeTo? (hdirectory : directory.isAbsolute = true)
    (h : file.relativeTo? directory = some rest) :
    file.components = directory.components ++ rest.components := by
  obtain ⟨below, hbelow⟩ := List.head?_eq_some_iff.1 (isAbsolute_iff_head?.1 hdirectory)
  unfold relativeTo? at h
  split at h
  · next hfront =>
    obtain ⟨more, hmore⟩ := List.isPrefixOf_iff_prefix.1 hfront
    obtain rfl := Option.some.inj h
    rw [hbelow, List.length_cons, components_afterComponents_succ, ← hmore, hbelow,
      ← List.length_cons, List.drop_left]
  · cases h

/-- Seen from a directory above it, a canonical file is spelled with names only. -/
theorem name_of_mem_relativeTo? (hfile : file.Canonical) (hdirectory : directory.isAbsolute = true)
    (h : file.relativeTo? directory = some rest) :
    ∀ c ∈ rest.components, ∃ name, c = .name name := by
  intro c hc
  have hcomponents := components_relativeTo? hdirectory h
  obtain ⟨place, hplace, rfl⟩ := hfile
  obtain ⟨below, hbelow⟩ := List.head?_eq_some_iff.1 (isAbsolute_iff_head?.1 hdirectory)
  rw [components_pathOf hplace, hbelow, List.cons_append, List.cons.injEq] at hcomponents
  have hmem : c ∈ place.map Component.name := by
    rw [hcomponents.2]
    exact List.mem_append_right below hc
  obtain ⟨name, -, rfl⟩ := List.mem_map.1 hmem
  exact ⟨name, rfl⟩

/-- Such a spelling is relative. -/
theorem isAbsolute_relativeTo? (hfile : file.Canonical) (hdirectory : directory.isAbsolute = true)
    (h : file.relativeTo? directory = some rest) : rest.isAbsolute = false := by
  rw [Bool.eq_false_iff, ne_eq, isAbsolute_iff_head?]
  intro hhead
  obtain ⟨name, hname⟩ :=
    name_of_mem_relativeTo? hfile hdirectory h .root (List.mem_of_mem_head? hhead)
  cases hname

/-- **There and back.** The way from a directory to a file below it leads to the file. -/
theorem child_relativeTo? (hfile : file.Canonical) (hdirectory : directory.isAbsolute = true)
    (h : file.relativeTo? directory = some rest) :
    (directory.child rest.spelling).normalize = file := by
  have hchars : directory.chars ≠ [] := by
    obtain ⟨s, hs⟩ := exists_chars_of_isAbsolute hdirectory
    simp [hs]
  have hsame : (directory.child rest.spelling).Same file := by
    have hnames : rest.components.filter (· ≠ .here) = rest.components := by
      rw [List.filter_eq_self]
      intro c hc
      obtain ⟨name, rfl⟩ := name_of_mem_relativeTo? hfile hdirectory h c hc
      simp
    rw [child, show ofString rest.spelling = rest from ext_spelling rfl, Same,
      components_join hchars (isAbsolute_relativeTo? hfile hdirectory h), hnames,
      components_relativeTo? hdirectory h]
  rw [normalize_congr hsame, hfile.normalize_eq]

/-- It does not matter how a relative path is spelled that is seen from another one. -/
theorem child_congr {p : Path} (hp : p.chars ≠ []) {s t : String}
    (h : (ofString s).Same (ofString t)) : (p.child s).Same (p.child t) := by
  have habsolute := isAbsolute_congr h
  cases ht : (ofString t).isAbsolute with
  | true =>
    rw [ht] at habsolute
    rw [child, child, join, join, habsolute, ht]
    exact h
  | false =>
    rw [ht] at habsolute
    rw [Same, child, child, components_join hp habsolute, components_join hp ht]
    rw [show (ofString s).components = _ from h]

end Path

/-! ### Where a table leads -/

namespace Resolve

/-- The paths that an alias makes of a specifier, in order of preference. -/
def Alias.leads (a : Alias) (specifier : List Char) : List Path :=
  ((stripPrefix? a.form.front specifier).map fun rest =>
    a.targets.map (aliasPath a.form rest)).getD []

/-- The paths that a bare specifier is looked up under, in order. -/
def AliasTable.leads (t : AliasTable) (specifier : String) : List Path :=
  (t.baseUrl.child specifier).normalize :: t.entries.flatMap (·.leads specifier.toList)

/-- None of the files that these paths may stand for is known. -/
def AliasTable.Misses (t : AliasTable) (known : PathSet) (specifier : String) : Prop :=
  ∀ base ∈ t.leads specifier, ∀ candidate ∈ candidates base, known.contains candidate = false

/-- A text that is not empty and begins neither with a dot nor with a separator. -/
structure Bare (name : String) : Prop where
  nonempty : name ≠ ""
  unanchored : isAnchored name.toList = false

variable {c : Context} {t : AliasTable} {known : PathSet} {name specifier : String}
  {directory file rest : Path}

/-- Following an alias is probing its leads. -/
theorem Context.followAlias?_eq (c : Context) (specifier : List Char) (a : Alias) :
    c.followAlias? specifier a = (a.leads specifier).findSome? c.probe? := by
  unfold followAlias? Alias.leads
  cases stripPrefix? a.form.front specifier with
  | none => rfl
  | some rest =>
    show a.targets.findSome? (fun target => c.probe? (aliasPath a.form rest target))
      = (a.targets.map (aliasPath a.form rest)).findSome? c.probe?
    rw [List.findSome?_map]
    rfl

/-- Following one alias after the other is probing all their leads in order. -/
theorem Context.findSome?_followAlias? (c : Context) (specifier : List Char)
    (entries : List Alias) :
    entries.findSome? (c.followAlias? specifier)
      = (entries.flatMap (·.leads specifier)).findSome? c.probe? := by
  induction entries with
  | nil => rfl
  | cons a entries ih =>
    rw [List.findSome?_cons, List.flatMap_cons, List.findSome?_append, ← ih, ← c.followAlias?_eq]
    cases c.followAlias? specifier a with
    | none => rfl
    | some hit => rfl

/-- A bare specifier stands for the first known file that one of its paths may stand for. -/
theorem Context.resolve?_eq_findSome? (h : Bare specifier) (origin : Path) :
    c.resolve? specifier origin = (c.aliases.leads specifier).findSome? c.probe? := by
  have hne : ¬specifier.toList.isEmpty = true := by
    simpa using h.nonempty
  unfold resolve? AliasTable.leads
  dsimp only
  rw [if_neg hne, if_neg (by simp [h.unanchored]), List.findSome?_cons, c.findSome?_followAlias?]
  cases c.probe? (c.aliases.baseUrl.child specifier).normalize with
  | none => rfl
  | some hit => rfl

/-- Whatever is put behind it, a bare name stays bare. -/
theorem Bare.append (h : Bare name) (s : String) : Bare (name ++ s) := by
  obtain ⟨hne, hname⟩ := h
  have hlist : name.toList ≠ [] := by simpa using hne
  obtain ⟨c, cs, hcs⟩ := List.exists_cons_of_ne_nil hlist
  have happend : (name ++ s).toList = c :: (cs ++ s.toList) := by simp [hcs]
  refine ⟨fun hnil => ?_, ?_⟩
  · rw [hnil] at happend
    cases happend
  · rw [hcs] at hname
    rw [happend]
    unfold isAnchored at hname ⊢
    split at hname
    all_goals simp_all

/-- A name with a star behind it stands for whatever the name comes in front of. -/
theorem form_star (name : String) (targets : List Path) :
    Alias.form ⟨name ++ "/*", targets⟩ = ⟨name.toList ++ ['/'], true⟩ := by
  simp [Alias.form]

/-- Such an alias puts the rest of the specifier below each of its targets. -/
theorem leads_star (name : String) (targets : List Path) (rest : Path) :
    Alias.leads ⟨name ++ "/*", targets⟩ (name ++ "/" ++ rest.spelling).toList
      = targets.map (aliasPath ⟨name.toList ++ ['/'], true⟩ rest.chars) := by
  have hstrip : stripPrefix? (name.toList ++ ['/']) (name ++ "/" ++ rest.spelling).toList
      = some rest.chars := by
    rw [stripPrefix?_eq_some_iff]
    simp [Path.chars]
  rw [Alias.leads, form_star, hstrip]
  rfl

/-- The separator that was taken off a target comes back. -/
theorem aliasPath_same (hfile : file.Canonical) (hdirectory : directory.isAbsolute = true)
    (h : file.relativeTo? directory = some rest) (front : List Char) :
    (aliasPath ⟨front, true⟩ rest.chars directory).Same file := by
  have hrelative := isAbsolute_relativeTo? hfile hdirectory h
  unfold aliasPath
  split
  · next hempty =>
    -- Nothing is left, so the file is the directory.
    have hrest : rest.components = [] := by
      rw [components_eq_ofText, List.isEmpty_iff.1 hempty]
      rfl
    rw [Same, components_relativeTo? hdirectory h, hrest, List.append_nil]
  · have hdrop : rest.chars.dropWhile (· == '/') = rest.chars := by
      unfold isAbsolute at hrelative
      cases hchars : rest.chars with
      | nil => rfl
      | cons c s =>
        rw [hchars] at hrelative
        exact List.dropWhile_cons_of_neg (by simpa using hrelative)
    rw [if_pos rfl, hdrop, Path.chars, String.ofList_toList, child_relativeTo? hfile hdirectory h]
    exact Same.refl file

/-! ### Names that reach a directory -/

/-- A name leads to a directory: the table has an entry for it, and whatever files are known, the
    name with the way to a known file below the directory behind it stands for some known file from
    everywhere. It stands for that very file if nothing is known under the paths that come before
    the one with this directory. -/
structure AliasTable.Reaches (t : AliasTable) (name : String) (directory : Path) : Prop where
  entry : ∃ a ∈ t.entries, a.pattern = name ++ "/*" ∧ directory ∈ a.targets
  found : ∀ known : PathSet, known.Canonical →
    ∀ file ∈ known.paths, ∀ rest, file.relativeTo? directory = some rest → ∀ origin, ∃ hit,
      Context.resolve? ⟨t, known⟩ (name ++ "/" ++ rest.spelling) origin = some hit ∧
      known.contains hit = true ∧ ∀ before after earlier later,
        t.entries = before ++ ⟨name ++ "/*", earlier ++ directory :: later⟩ :: after →
          AliasTable.Misses ⟨t.baseUrl, before ++ [⟨name ++ "/*", earlier⟩]⟩ known
          (name ++ "/" ++ rest.spelling) →
        hit.Same file

/-- Where a table misses, its leads find nothing. -/
theorem AliasTable.Misses.findSome?_eq_none (h : t.Misses c.known specifier) :
    (t.leads specifier).findSome? c.probe? = none := by
  rw [List.findSome?_eq_none_iff]
  intro base hbase
  apply List.find?_eq_none.2
  intro candidate hcandidate
  simpa using h base hbase candidate hcandidate

/-- The paths of a table, up to the one that a target makes, and those behind it. -/
theorem exists_leads_eq {before after : List Alias} {earlier later : List Path} (rest : Path)
    (h : t.entries = before ++ ⟨name ++ "/*", earlier ++ directory :: later⟩ :: after) :
    ∃ behind, t.leads (name ++ "/" ++ rest.spelling)
      = AliasTable.leads ⟨t.baseUrl, before ++ [⟨name ++ "/*", earlier⟩]⟩
        (name ++ "/" ++ rest.spelling)
        ++ aliasPath ⟨name.toList ++ ['/'], true⟩ rest.chars directory :: behind := by
  refine ⟨later.map (aliasPath ⟨name.toList ++ ['/'], true⟩ rest.chars) ++
    after.flatMap (·.leads (name ++ "/" ++ rest.spelling).toList), ?_⟩
  rw [AliasTable.leads, AliasTable.leads, h]
  simp only [List.flatMap_append, List.flatMap_cons, List.flatMap_nil, leads_star, List.map_append,
    List.map_cons, List.append_assoc, List.cons_append, List.append_nil]

/-- One place of a table where the target stands. -/
theorem resolve?_of_entry {before after : List Alias} {earlier later : List Path}
    (hname : Bare name) (hdirectory : directory.isAbsolute = true) (hknown : known.Canonical)
    (hfile : file ∈ known.paths) (hrest : file.relativeTo? directory = some rest) (origin : Path)
    (h : t.entries = before ++ ⟨name ++ "/*", earlier ++ directory :: later⟩ :: after) :
    ∃ hit, Context.resolve? ⟨t, known⟩ (name ++ "/" ++ rest.spelling) origin = some hit ∧
      known.contains hit = true ∧
      (AliasTable.Misses ⟨t.baseUrl, before ++ [⟨name ++ "/*", earlier⟩]⟩ known
        (name ++ "/" ++ rest.spelling) → hit.Same file) := by
  have hsame := aliasPath_same (hknown.of_mem_paths hfile) hdirectory hrest (name.toList ++ ['/'])
  -- Put below the directory again, the rest of the specifier is the file.
  have hcontains : known.contains (aliasPath ⟨name.toList ++ ['/'], true⟩ rest.chars directory)
      = true := by
    rw [known.contains_congr hsame]
    exact PathMap.listed_paths.1 (listed_of_mem hfile)
  obtain ⟨behind, hleads⟩ := exists_leads_eq rest h
  have hbare : Bare (name ++ "/" ++ rest.spelling) := (hname.append "/").append rest.spelling
  rw [Context.resolve?_eq_findSome? hbare, hleads, List.findSome?_append, List.findSome?_cons,
    probe?_of_contains hcontains]
  -- Either an earlier lead is found first, or this one is.
  cases hbefore : List.findSome? _
    (AliasTable.leads ⟨t.baseUrl, before ++ [⟨name ++ "/*", earlier⟩]⟩ _) with
  | none => exact ⟨_, rfl, hcontains, fun _ => hsame⟩
  | some hit =>
    obtain ⟨base, -, hprobe⟩ := List.exists_of_findSome?_eq_some hbefore
    refine ⟨hit, rfl, Context.contains_of_probe? hprobe, fun hmisses => ?_⟩
    have hnone := AliasTable.Misses.findSome?_eq_none (c := ⟨t, known⟩) hmisses
    rw [hnone] at hbefore
    cases hbefore

/-- **Names.** An entry of the table for all that is below a name makes the name reach each of its
    directories. -/
theorem reaches_of_entry (hname : Bare name) (hdirectory : directory.isAbsolute = true)
    (h : ∃ a ∈ t.entries, a.pattern = name ++ "/*" ∧ directory ∈ a.targets) :
    t.Reaches name directory where
  entry := h
  found known hknown file hfile rest hrest origin := by
    obtain ⟨⟨pattern, targets⟩, ha, rfl, htarget⟩ := h
    obtain ⟨before, after, hentries⟩ := List.append_of_mem ha
    obtain ⟨earlier, later, rfl⟩ := List.append_of_mem htarget
    obtain ⟨hit, hhit, hcontains, -⟩ :=
      resolve?_of_entry hname hdirectory hknown hfile hrest origin hentries
    refine ⟨hit, hhit, hcontains, fun before after earlier later hentries => ?_⟩
    -- The answer is the same, whichever place of the table is looked at.
    obtain ⟨hit', hhit', -, hsame⟩ :=
      resolve?_of_entry hname hdirectory hknown hfile hrest origin hentries
    obtain rfl := Option.some.inj (hhit.symm.trans hhit')
    exact hsame

end Resolve

/-! ### What configuration files name -/

namespace Project

variable {p : Project} {d : Disk} {root above directory : Path} {options : CompilerOptions}
  {manifest package : Manifest} {name pattern text : String}

/-- The directory that the paths of compiler options are seen from. -/
def CompilerOptions.base (options : CompilerOptions) (directory : Path) : Path :=
  (options.baseUrl.map fun url => (directory.child url).normalize).getD directory

/-- The base of the paths is canonical when the directory of the options is. -/
theorem canonical_base (hdirectory : directory.Canonical) (options : CompilerOptions) :
    (options.base directory).Canonical := by
  unfold CompilerOptions.base
  cases options.baseUrl with
  | none => exact hdirectory
  | some url => exact canonical_normalize (isAbsolute_join hdirectory.isAbsolute)

/-- The separator before a star is dropped with it. -/
theorem targetPath_star (habove : above.chars ≠ []) (htext : text ≠ "") :
    targetPath above (text ++ "/*") = (above.child text).normalize := by
  have hwithout : withoutStar (text ++ "/*").toList = text.toList ++ ['/'] := by
    have hlist : (text ++ "/*").toList = text.toList ++ ['/'] ++ ['*'] := by simp
    rw [withoutStar, hlist, if_pos List.getLast?_concat, List.dropLast_concat]
  rw [targetPath, hwithout]
  apply normalize_congr
  apply child_congr habove
  rw [Same, components_eq_ofText, components_eq_ofText, chars_ofString, chars_ofString,
    String.toList_ofList]
  exact ofText_concat_separator (by simpa using htext)

/-- Compiler options stand in the root. -/
theorem directory_of_findOptions? (hroot : root.Canonical)
    (h : findOptions? d root = some (directory, options)) : directory = root := by
  obtain ⟨place, hplace, rfl⟩ := hroot
  obtain ⟨file, hfile, hread⟩ := List.exists_of_findSome?_eq_some h
  obtain ⟨found, -, heq⟩ := Option.map_eq_some_iff.1 hread
  have hproper : ∀ file ∈ compilerFiles, ProperName file := by decide
  have hparent := parent?_pathOf hplace (hproper file hfile)
  rw [← child_pathOf hplace (hproper file hfile)] at hparent
  rw [hparent] at heq
  exact (congrArg Prod.fst heq).symm

/-- The compiler options give one alias for each of their paths that has a target. -/
theorem entries_compilerAliases (h : findOptions? d root = some (directory, options)) :
    (compilerAliases d root).entries
      = options.paths.filterMap fun entry => aliasOf? (options.base directory) entry.1 entry.2 := by
  unfold compilerAliases
  rw [h]
  rfl

/-- A path with a target gives an alias. -/
theorem aliasOf?_of_mem {targets : Json} {target : String} (h : target ∈ stringsOf targets)
    (above : Path) (pattern : String) :
    aliasOf? above pattern targets
      = some ⟨pattern, (stringsOf targets).map (targetPath above)⟩ := by
  unfold aliasOf?
  cases hstrings : stringsOf targets with
  | nil =>
    rw [hstrings] at h
    cases h
  | cons first others => rfl

/-- The entry that a pattern of compiler options gives. -/
theorem exists_compilerAlias {targets : Json} {target : String}
    (h : findOptions? d root = some (directory, options))
    (hpattern : (pattern, targets) ∈ options.paths) (htarget : target ∈ stringsOf targets) :
    ∃ a ∈ (loadAliases d root).entries,
      a.pattern = pattern ∧ targetPath (options.base directory) target ∈ a.targets := by
  have halias := aliasOf?_of_mem htarget (options.base directory) pattern
  have hcompiler : ⟨pattern, (stringsOf targets).map (targetPath (options.base directory))⟩
      ∈ (compilerAliases d root).entries := by
    rw [entries_compilerAliases h]
    exact List.mem_filterMap.2 ⟨_, hpattern, halias⟩
  exact ⟨_, List.mem_append_left (workspaceAliases d root) hcompiler, rfl,
    List.mem_map_of_mem htarget⟩

/-- The aliases of a package have an entry for what is below its directory. -/
theorem mem_packageAliases
    (hpackage : readConfig? d manifest? (directory.child "package.json") = some package)
    (hname : package.name = some name) :
    ⟨name ++ "/*", [directory]⟩ ∈ packageAliases d directory := by
  unfold packageAliases
  rw [hpackage]
  dsimp only
  rw [hname]
  exact List.mem_cons_of_mem _ List.mem_cons_self

/-- The aliases of a package that some pattern of the root manifest stands for are in the table. -/
theorem mem_loadAliases_of_package {patterns : List String} {a : Alias}
    (hmanifest : readConfig? d manifest? (root.child "package.json") = some manifest)
    (hworkspaces : manifest.workspaces = some patterns) (hpattern : pattern ∈ patterns)
    (hdirectory : directory ∈ expandPattern d root pattern) (ha : a ∈ packageAliases d directory) :
    a ∈ (loadAliases d root).entries := by
  have hworkspace : a ∈ workspaceAliases d root := by
    unfold workspaceAliases
    rw [hmanifest, Option.bind_some, hworkspaces]
    exact List.mem_flatMap.2 ⟨directory, List.mem_flatMap.2 ⟨pattern, hpattern, hdirectory⟩, ha⟩
  exact List.mem_append_right (compilerAliases d root).entries hworkspace

/-- What a directory lists are children of it. -/
theorem exists_child_of_mem_list {children : List Path} (h : d.list above = .ok children)
    (hmem : directory ∈ children) : ∃ key, directory = above.child key := by
  unfold Disk.list at h
  cases hentry : d.entry above with
  | error cause =>
    rw [hentry] at h
    cases h
  | ok e =>
    rw [hentry] at h
    cases e with
    | file data => cases h
    | directory entries =>
      obtain rfl := Except.ok.inj h
      obtain ⟨entry, -, rfl⟩ := List.mem_map.1 hmem
      exact ⟨entry.1, rfl⟩

/-- Below an absolute root, a pattern stands for absolute directories. -/
theorem isAbsolute_of_mem_expandPattern (hroot : root.isAbsolute = true)
    (h : directory ∈ expandPattern d root pattern) : directory.isAbsolute = true := by
  unfold expandPattern at h
  dsimp only at h
  split at h
  · split at h
    · next children hchildren =>
      rw [List.mem_mergeSort, List.mem_filter] at h
      obtain ⟨key, rfl⟩ := exists_child_of_mem_list hchildren h.1
      exact isAbsolute_join (isAbsolute_join hroot)
    · cases h
  · split at h
    · obtain rfl := List.mem_singleton.1 h
      exact isAbsolute_join hroot
    · cases h

/-! ### What projects resolve against -/

/-- Changes leave the aliases alone. -/
theorem aliases_follow (p : Project) (history : List (Disk × Change)) :
    (p.follow history).aliases = p.aliases := by
  induction history generalizing p with
  | nil => rfl
  | cons event history ih =>
    rw [follow, List.foldl_cons]
    exact (ih _).trans (aliases_applyChange p event.1 event.2)

/-- A change keeps the known files canonical. -/
theorem canonical_known_applyChange (hroot : p.root.Canonical) (h : p.known.Canonical) (d : Disk)
    (c : Change) : (p.applyChange d c).1.known.Canonical := by
  rcases applyChange_cases p d c with hnothing | ⟨-, -, node, hrevisited⟩ | ⟨-, hforgotten⟩
  · rwa [hnothing]
  · rw [hrevisited.known]
    exact h.insert (canonical_identity hroot c.path) ()
  · rw [hforgotten.known]
    exact h.erase _

/-- So does a whole history of changes. -/
theorem canonical_known_follow (hroot : p.root.Canonical) (h : p.known.Canonical)
    (history : List (Disk × Change)) : (p.follow history).known.Canonical := by
  induction history generalizing p with
  | nil => exact h
  | cons event history ih =>
    rw [follow, List.foldl_cons]
    refine ih ?_ (canonical_known_applyChange hroot h event.1 event.2)
    rwa [root_applyChange]

/-! ### The theorem -/

/-- The directories that configuration files put behind a name. -/
inductive Configured (d : Disk) (root : Path) (name : String) : Path → Prop where
  /-- The compiler options in force say so in one of their paths. -/
  | option {directory : Path} {options : CompilerOptions} {targets : Json} {text : String}
      (hoptions : findOptions? d root = some (directory, options))
      (hpattern : (name ++ "/*", targets) ∈ options.paths)
      (htarget : text ++ "/*" ∈ stringsOf targets) (htext : text ≠ "") :
      Configured d root name ((options.base directory).child text).normalize
  /-- A workspace package in the directory has this name. -/
  | package {directory : Path} {manifest package : Manifest} {patterns : List String}
      {pattern : String}
      (hmanifest : readConfig? d manifest? (root.child "package.json") = some manifest)
      (hworkspaces : manifest.workspaces = some patterns) (hpattern : pattern ∈ patterns)
      (hdirectory : directory ∈ expandPattern d root pattern)
      (hpackage : readConfig? d manifest? (directory.child "package.json") = some package)
      (hname : package.name = some name) : Configured d root name directory

/-- A directory that a name is configured for is reached by it. -/
theorem Configured.reaches (hroot : root.Canonical) (hname : Bare name)
    (h : Configured d root name directory) : (loadAliases d root).Reaches name directory := by
  cases h with
  | @option _ options _ _ hoptions hpattern htarget htext =>
    obtain rfl := directory_of_findOptions? hroot hoptions
    have hbase := canonical_base hroot options
    apply reaches_of_entry hname (canonical_normalize (isAbsolute_join hbase.isAbsolute)).isAbsolute
    obtain ⟨a, ha, hpattern, htarget⟩ := exists_compilerAlias hoptions hpattern htarget
    rw [targetPath_star hbase.chars_ne_nil htext] at htarget
    exact ⟨a, ha, hpattern, htarget⟩
  | package hmanifest hworkspaces hpattern hdirectory hpackage hpackageName =>
    apply reaches_of_entry hname (isAbsolute_of_mem_expandPattern hroot.isAbsolute hdirectory)
    have hentry := mem_packageAliases hpackage hpackageName
    exact ⟨_, mem_loadAliases_of_package hmanifest hworkspaces hpattern hdirectory hentry, rfl,
      List.mem_cons_self⟩

/-- **Aliases reach the files that they name.** After an analysis and any changes, a project
    resolves against the table that was loaded then, and against canonical paths. In this table
    every bare name that configuration files put before a directory reaches the directory, and with
    it all the known files below. -/
theorem aliases_reach (p : Project) (d : Disk) (history : List (Disk × Change)) (hp : p.Opened)
    (hd : d.Proper) :
    ((p.analyze d).follow history).aliases = loadAliases d p.root ∧
    ((p.analyze d).follow history).known.Canonical ∧ ∀ name directory, Bare name →
      Configured d p.root name directory → (loadAliases d p.root).Reaches name directory := by
  refine ⟨?_, ?_, fun name directory hname h => h.reaches hp.canonical hname⟩
  · rw [aliases_follow, aliases_analyze]
  · refine canonical_known_follow ?_ ?_ history
    · rw [root_analyze]
      exact hp.canonical
    · rw [known_analyze]
      exact PathSet.canonical_ofList fun f hf => canonical_of_mem_scan hd hp.canonical hf

namespace Sample

/-- The package of a workspace. -/
def unit : Entry :=
  .directory [("package.json", plain "\x7b\"name\":\"@s/u\"\x7d")]

/-- The directory that the one package lies in. -/
def packages : Entry :=
  .directory [("u", unit)]

/-- A tree with compiler options and a workspace package. -/
def configured : Disk where
  top := .directory [
    ("package.json", plain "\x7b\"workspaces\":[\"./packages/u\"]\x7d"),
    ("packages", packages),
    ("tsconfig.json", plain
      "\x7b\"compilerOptions\":\x7b\"baseUrl\":\"src\",\"paths\":\x7b\"@lib/*\":[\"../lib/*\"]\x7d\x7d\x7d")]
  workdir := []

/-- The sample disk is a proper one. -/
theorem proper_configured : configured.Proper := by
  have hunit : unit.Proper := .directory (by decide) (by simp [plain, Entry.Proper.file])
  have hpackages : packages.Proper := .directory (by decide) (by simp [hunit])
  exact ⟨.directory (by decide) (by simp [plain, Entry.Proper.file, hpackages]), rfl⟩

/-- Its compiler options give the library a name. -/
theorem configured_option : Configured configured slash "@lib" (ofString "/lib") := by
  -- Two configured values cannot be compared by evaluation, so only their texts are.
  have hread : (findOptions? configured slash).map (fun found => (found.1, found.2.baseUrl,
      found.2.paths.map fun entry => (entry.1, stringsOf entry.2)))
        = some (slash, some "src", [("@lib/*", ["../lib/*"])]) := by
    decide +kernel
  obtain ⟨⟨directory, options⟩, hoptions, heq⟩ := Option.map_eq_some_iff.1 hread
  obtain ⟨rfl, hurl, hpaths⟩ : directory = slash ∧ options.baseUrl = some "src" ∧
      options.paths.map (fun entry => (entry.1, stringsOf entry.2))
        = [("@lib/*", ["../lib/*"])] := by
    simpa using heq
  obtain ⟨⟨pattern, targets⟩, hpattern, hentry⟩ :
    ∃ entry ∈ options.paths, (entry.1, stringsOf entry.2)
      = ("@lib/*", ["../lib/*"]) := List.mem_map.1 (hpaths ▸ List.mem_singleton_self _)
  obtain ⟨rfl, htargets⟩ := Prod.mk.inj hentry
  have hdirectory : ((options.base slash).child "../lib").normalize = ofString "/lib" := by
    rw [CompilerOptions.base, hurl]
    decide
  rw [← hdirectory]
  exact .option hoptions hpattern (by rw [htargets]; decide) (by decide)

/-- Its workspace gives the package a name. -/
theorem configured_package : Configured configured slash "@s/u" (ofString "/packages/u") := by
  have hroot : (readConfig? configured manifest? (slash.child "package.json")).map (·.workspaces)
      = some (some ["./packages/u"]) := by
    decide +kernel
  have hpackage : (readConfig? configured manifest?
      ((ofString "/packages/u").child "package.json")).map (·.name)
      = some (some "@s/u") := by
    decide +kernel
  obtain ⟨manifest, hmanifest, hworkspaces⟩ := Option.map_eq_some_iff.1 hroot
  obtain ⟨package, hread, hname⟩ := Option.map_eq_some_iff.1 hpackage
  exact .package hmanifest hworkspaces (List.mem_singleton_self _) (by decide +kernel) hread hname

/-- On the sample disk both kinds of names reach their directories, and a file is found. -/
theorem aliases_reach_configured :
    (new none).Opened ∧ configured.Proper ∧
    (Bare "@lib" ∧ Configured configured slash "@lib" (ofString "/lib") ∧
      (loadAliases configured slash).Reaches "@lib" (ofString "/lib")) ∧
    (Bare "@s/u" ∧ Configured configured slash "@s/u" (ofString "/packages/u") ∧
      (loadAliases configured slash).Reaches "@s/u" (ofString "/packages/u")) ∧
    ∃ hit, Context.resolve? ⟨loadAliases configured slash, .ofList [ofString "/lib/deep/x.ts"]⟩
      "@lib/deep/x.ts" slash
      = some hit ∧ hit.Same (ofString "/lib/deep/x.ts") := by
  have hreach := (aliases_reach (new none) configured [] (opened_new none) proper_configured).2.2
  have hlib : Bare "@lib" := ⟨by decide, by decide⟩
  have hu : Bare "@s/u" := ⟨by decide, by decide⟩
  have hfile : (ofString "/lib/deep/x.ts").Canonical :=
    ⟨["lib", "deep", "x.ts"], by decide, by decide⟩
  obtain ⟨hit, hhit, hcontains, -⟩ :=
    (hreach _ _ hlib configured_option).found (.ofList [ofString "/lib/deep/x.ts"])
    (PathSet.canonical_ofList (by simpa using hfile)) (ofString "/lib/deep/x.ts")
      (by decide +kernel)
    (ofString "deep/x.ts") (by decide) slash
  -- Only this file is known.
  have hsame : hit.Same (ofString "/lib/deep/x.ts") := by
    obtain ⟨file, hmem, hsame⟩ := (PathSet.contains_ofList _ hit).1 hcontains
    rw [List.mem_singleton.1 hmem] at hsame
    exact hsame.symm
  exact ⟨opened_new none, proper_configured,
    ⟨hlib, configured_option, hreach _ _ hlib configured_option⟩,
    ⟨hu, configured_package, hreach _ _ hu configured_package⟩, hit, hhit, hsame⟩

end Sample

end Project

end BlastRadius
