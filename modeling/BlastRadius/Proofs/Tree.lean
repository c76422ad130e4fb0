import BlastRadius.Disk.Scan
import BlastRadius.Disk.Write
import BlastRadius.Proofs.Canonical
import Mathlib.Data.List.Induction

namespace BlastRadius

/-!
# Disks whose entries have proper names

* `Entry.Proper`, `Disk.Proper` — every entry has a name that a path can say; kept by everything
  that writes to a disk (`Disk.Proper.writeFile`, `Disk.Proper.makeDirectory`,
  `Disk.Proper.remove`).
* `Entry.Holds`, `Entry.Proper.mem_scripts` — the files of a tree, and which of them a scan lists.
* `Disk.step_eq_ok`, `Disk.walk_pathOf` — what one step along a path can do, and where a canonical
  path leads.
* `Disk.Proper.mem_scan` — the files that a scan lists are canonical, and changes of them matter.
-/

open Component Disk BlastRadius.Path Resolve

/-! ### Proper trees -/

/-- Every entry of a directory has a name that a path can say. -/
inductive Entry.Proper : Entry → Prop where
  | file (data : FileData) : Entry.Proper (.file data)
  | directory {children : List (String × Entry)} (names : ∀ c ∈ children, ProperName c.1)
      (entries : ∀ c ∈ children, Entry.Proper c.2) : Entry.Proper (.directory children)

namespace Entry

variable {e : Entry} {name : String} {children : List (String × Entry)}

/-- A child that is found is one of the children. -/
theorem mem_of_child? {child : Entry} (h : (Entry.directory children).child? name = some child) :
    (name, child) ∈ children := by
  obtain ⟨c, hc, rfl⟩ := Option.map_eq_some_iff.1 h
  obtain rfl : c.1 = name := by simpa using List.find?_some hc
  exact List.mem_of_find?_eq_some hc

/-- The children of a proper entry are proper. -/
theorem Proper.child? (h : e.Proper) {child : Entry} (hchild : e.child? name = some child) :
    ProperName name ∧ child.Proper := by
  cases h with
  | file data => cases hchild
  | directory names entries =>
    have hmem := mem_of_child? hchild
    exact ⟨names _ hmem, entries _ hmem⟩

/-- A place that is there is made of proper names, and a proper entry stands there. -/
theorem Proper.find? (h : e.Proper) {place : List String} {found : Entry}
    (hfound : e.find? place = some found) : (∀ name ∈ place, ProperName name) ∧ found.Proper := by
  induction place generalizing e with
  | nil =>
    cases hfound
    exact ⟨by simp, h⟩
  | cons name place ih =>
    obtain ⟨child, hchild, hrest⟩ := Option.bind_eq_some_iff.1 hfound
    obtain ⟨hname, hproper⟩ := h.child? hchild
    obtain ⟨hnames, hfound⟩ := ih hproper hrest
    exact ⟨List.forall_mem_cons.2 ⟨hname, hnames⟩, hfound⟩

/-- A place is found step by step. -/
theorem find?_append (e : Entry) (front back : List String) :
    e.find? (front ++ back) = (e.find? front).bind (Entry.find? back) := by
  induction front generalizing e with
  | nil => rfl
  | cons name front ih =>
    rw [List.cons_append, Entry.find?, Entry.find?, Option.bind_assoc]
    congr 1
    funext child
    exact ih child

/-- Where an entry of changed entries comes from. -/
theorem mem_alterChild {f : Option Entry → Option Entry} {c : String × Entry}
    (h : c ∈ alterChild name f children) :
    c ∈ children ∨ c.1 = name ∧
    (f none = some c.2 ∨ ∃ e, (name, e) ∈ children ∧ f (some e) = some c.2) := by
  induction children with
  | nil =>
    obtain ⟨e, he, rfl⟩ := List.mem_map.1 h
    exact Or.inr ⟨rfl, Or.inl (Option.mem_toList.1 he)⟩
  | cons other children ih =>
    rw [alterChild] at h
    split at h
    -- The child of that name is replaced, all others stay.
    case isTrue hname =>
      rcases List.mem_append.1 h with h | h
      · obtain ⟨e, he, rfl⟩ := List.mem_map.1 h
        refine Or.inr ⟨rfl, Or.inr ⟨other.2, ?_, Option.mem_toList.1 he⟩⟩
        rw [← hname]
        exact List.mem_cons_self
      · exact Or.inl (List.mem_cons_of_mem other h)
    case isFalse hname =>
      rcases List.mem_cons.1 h with rfl | h
      · exact Or.inl List.mem_cons_self
      · rcases ih h with h | ⟨hc, hnone | ⟨e, he, hsome⟩⟩
        · exact Or.inl (List.mem_cons_of_mem other h)
        · exact Or.inr ⟨hc, Or.inl hnone⟩
        · exact Or.inr ⟨hc, Or.inr ⟨e, List.mem_cons_of_mem other he, hsome⟩⟩

/-- Altering a child keeps a directory proper if the new entry is. -/
theorem Proper.alterChild (h : (Entry.directory children).Proper) {f : Option Entry → Option Entry}
    (hnone : ∀ e, f none = some e → ProperName name ∧ e.Proper)
    (hsome : ∀ old e, old.Proper → f (some old) = some e → e.Proper) :
    (Entry.directory (alterChild name f children)).Proper := by
  cases h with
  | directory names entries =>
    constructor
    case names =>
      intro c hc
      rcases mem_alterChild hc with hc | ⟨rfl, hnew | ⟨old, hold, -⟩⟩
      · exact names c hc
      · exact (hnone c.2 hnew).1
      · exact names (c.1, old) hold
    case entries =>
      intro c hc
      rcases mem_alterChild hc with hc | ⟨-, hnew | ⟨old, hold, hf⟩⟩
      · exact entries c hc
      · exact (hnone c.2 hnew).2
      · exact hsome old c.2 (entries _ hold) hf

/-- A tree stays proper if what is put into it is proper and has a proper name. -/
theorem Proper.alter {f : Option Entry → Option Entry} (hf : ∀ o e, f o = some e → e.Proper)
    (place : List String) (hname : ∀ e, f none = some e → ∀ name ∈ place.getLast?, ProperName name)
    (h : e.Proper) : (e.alter f place).Proper := by
  induction place generalizing e with
  | nil =>
    rw [Entry.alter]
    cases hfe : f (some e) with
    | none => exact h
    | some e' => exact hf _ e' hfe
  | cons name place ih =>
    cases e with
    | file data =>
      cases place with
      | nil => exact h
      | cons next place => exact h
    | directory children =>
      cases place with
      | nil =>
        exact h.alterChild (fun e he => ⟨hname e he name rfl, hf none e he⟩) fun old e _ he =>
          hf _ e he
      | cons next place =>
        -- Directories on the way are never made, so `f` meets a missing entry at the end only.
        refine h.alterChild (fun e he => absurd he (by simp)) fun old e hold he => ?_
        cases he
        exact ih (fun e he name hlast => hname e he name (by rwa [List.getLast?_cons_cons])) hold

/-- Altering something below keeps a directory. -/
theorem isDirectory_alter {f : Option Entry → Option Entry} {place : List String}
    (hplace : place ≠ []) (h : e.isDirectory = true) : (e.alter f place).isDirectory = true := by
  cases e with
  | file data => cases h
  | directory children =>
    match place with
    | [] => exact absurd rfl hplace
    | [_] => rfl
    | _ :: _ :: _ => rfl

end Entry

/-! ### The files of a tree -/

/-- The path of what some names lead to, seen from `here`. -/
def Path.descend (here : Path) (names : List String) : Path :=
  names.foldl Path.child here

/-- Going down no names stays here. -/
@[simp] theorem Path.descend_nil (here : Path) : here.descend [] = here := rfl

/-- Going down is going to a child first. -/
theorem Path.descend_cons (here : Path) (name : String) (rest : List String) :
    here.descend (name :: rest) = (here.child name).descend rest := rfl

/-- Going down from a place. -/
theorem Path.descend_pathOf {place rest : List String}
    (h : ∀ name ∈ place ++ rest, ProperName name) :
    (pathOf place).descend rest = pathOf (place ++ rest) := by
  induction rest generalizing place with
  | nil => rw [List.append_nil, descend_nil]
  | cons name rest ih =>
    have hstep : place ++ name :: rest = place ++ [name] ++ rest := by simp
    rw [hstep] at h ⊢
    obtain ⟨hplace, hname⟩ := List.forall_mem_append.1 (List.forall_mem_append.1 h).1
    rw [← ih h, ← child_pathOf hplace (List.forall_mem_singleton.1 hname), descend_cons]

namespace Entry

variable {e : Entry} {here p : Path} {children : List (String × Entry)}

/-- Some names lead to a file of a tree. -/
inductive Holds : Entry → List String → FileData → Prop where
  | file (data : FileData) : Holds (.file data) [] data
  | directory {children : List (String × Entry)} {c : String × Entry} {rest : List String}
      {data : FileData} (hc : c ∈ children) (h : Holds c.2 rest data) :
      Holds (.directory children) (c.1 :: rest) data

/-- A proper entry holds files under proper names. -/
theorem Proper.properName_of_holds (he : e.Proper) {rest : List String} {data : FileData}
    (h : e.Holds rest data) : ∀ name ∈ rest, ProperName name := by
  induction h with
  | file data => simp
  | directory hc _ ih =>
    cases he with
    | directory names entries => exact List.forall_mem_cons.2 ⟨names _ hc, ih (entries _ hc)⟩

/-- A directory holds files below it, a file holds itself. -/
theorem Holds.ne_nil {rest : List String} {data : FileData} (h : e.Holds rest data) :
    e.isDirectory = true ↔ rest ≠ [] := by
  cases h with
  | file data => simp [isDirectory]
  | directory hc h => simp [isDirectory]

/-- A file that is found is held. -/
theorem holds_of_find? {rest : List String} {data : FileData}
    (h : e.find? rest = some (.file data)) : e.Holds rest data := by
  induction rest generalizing e with
  | nil =>
    cases h
    exact .file data
  | cons name rest ih =>
    obtain ⟨child, hchild, hrest⟩ := Option.bind_eq_some_iff.1 h
    cases e with
    | file other => cases hchild
    | directory children => exact .directory (mem_of_child? hchild) (ih hrest)

/-- The scripts of a directory are those of its children that are not excluded. -/
theorem mem_scriptsIn :
    p ∈ scriptsIn here children ↔
      ∃ c ∈ children, ¬(c.2.isDirectory && isExcludedName c.1) = true ∧
        p ∈ c.2.scripts (here.child c.1) := by
  induction children with
  | nil => simp [scriptsIn]
  | cons c children ih =>
    rw [scriptsIn, List.mem_append, ih, List.exists_mem_cons_iff]
    refine or_congr_left ?_
    split
    · next hleft => simp [hleft]
    · next hkept => simp [hkept]

/-- No directory on the way that some names lead has a path too long to be opened. -/
def Passable (here : Path) (names : List String) : Prop :=
  ∀ front, front <+: names → front ≠ names → (here.descend front).isLong = false

/-- A place is passable if this directory can be opened, and the rest is. -/
theorem passable_cons {name : String} {rest : List String} :
    Passable here (name :: rest) ↔ here.isLong = false ∧ Passable (here.child name) rest := by
  constructor
  · intro h
    refine ⟨h [] List.nil_prefix (by simp),
      fun front hfront hne => h (name :: front) ?_ (by simpa using hne)⟩
    exact (List.prefix_cons_inj name).2 hfront
  · rintro ⟨hhere, hrest⟩ front hfront hne
    rcases List.prefix_cons_iff.1 hfront with rfl | ⟨front', rfl, hfront'⟩
    · exact hhere
    · exact hrest front' hfront' (by simpa using hne)

/-- **The listed files** of a tree are its script files with no directory on the way that is left
    out or that cannot be opened. -/
theorem Proper.mem_scripts (he : e.Proper) :
    p ∈ e.scripts here ↔
      ∃ rest data, e.Holds rest data ∧ p = here.descend rest ∧ isScript p = true ∧
        rest.dropLast.any isExcludedName = false ∧ Passable here rest := by
  induction he generalizing here with
  | file data =>
    rw [scripts]
    constructor
    · intro hp
      split at hp
      · next hscript =>
        obtain rfl := List.mem_singleton.1 hp
        refine ⟨[], data, .file data, rfl, hscript, rfl, fun front hfront hne => ?_⟩
        exact absurd (List.prefix_nil.1 hfront) hne
      · exact absurd hp List.not_mem_nil
    · rintro ⟨rest, data', hholds, rfl, hscript, -⟩
      cases hholds
      rw [descend_nil] at hscript ⊢
      rw [if_pos hscript]
      exact List.mem_singleton.2 rfl
  | @directory children names entries ih =>
    have hlong : p ∈ (Entry.directory children).scripts here ↔
        here.isLong = false ∧ p ∈ scriptsIn here children := by
      rw [scripts]
      cases here.isLong <;> simp
    rw [hlong, mem_scriptsIn]
    -- A directory on the way is left out exactly when it is not the last name, which is that of the
    -- file.
    have hways : ∀ {c : String × Entry} {rest : List String} {data : FileData},
        c.2.Holds rest data → ((c.1 :: rest).dropLast.any isExcludedName = false ↔
          ¬(c.2.isDirectory && isExcludedName c.1) = true ∧
          rest.dropLast.any isExcludedName = false) := by
      intro c rest data hholds
      have hdirectory := hholds.ne_nil
      cases rest with
      | nil => simp_all
      | cons next rest => simp_all [List.dropLast_cons_cons]
    constructor
    · rintro ⟨hhere, c, hc, hkept, hp⟩
      obtain ⟨rest, data, hholds, rfl, hscript, hexcluded, hpass⟩ := (ih c hc).1 hp
      exact ⟨c.1 :: rest, data, .directory hc hholds, rfl, hscript,
        (hways hholds).2 ⟨hkept, hexcluded⟩, passable_cons.2 ⟨hhere, hpass⟩⟩
    · rintro ⟨rest, data, hholds, rfl, hscript, hexcluded, hpass⟩
      cases hholds with
      | @directory _ c rest _ hc hholds =>
        obtain ⟨hkept, hexcluded⟩ := (hways hholds).1 hexcluded
        obtain ⟨hhere, hpass⟩ := passable_cons.1 hpass
        exact ⟨hhere, c, hc, hkept,
          (ih c hc).2 ⟨rest, data, hholds, rfl, hscript, hexcluded, hpass⟩⟩

end Entry

/-! ### Proper disks -/

namespace Disk

variable {d d' : Disk} {p : Path}

/-- A disk is a directory in which every entry has a proper name. -/
structure Proper (d : Disk) : Prop where
  top : d.top.Proper
  isDirectory : d.top.isDirectory = true

/-- What stands at a place of a proper disk is proper, and so are the names. -/
theorem Proper.at? (h : d.Proper) {place : List String} {e : Entry} (he : d.at? place = some e) :
    (∀ name ∈ place, ProperName name) ∧ e.Proper :=
  h.top.find? he

/-- Altering an entry keeps a disk proper. -/
theorem Proper.alter (h : d.Proper) {f : Option Entry → Option Entry}
    (hf : ∀ o e, f o = some e → e.Proper) {place : List String} (hplace : place ≠ [])
    (hname : ∀ e, f none = some e → ∀ name ∈ place.getLast?, ProperName name) :
    Proper { d with top := d.top.alter f place } where
  top := h.top.alter hf place hname
  isDirectory := Entry.isDirectory_alter hplace h.isDirectory

/-- So does putting one at a proper name. -/
theorem Proper.put (h : d.Proper) {place : List String} {name : String} (hname : ProperName name)
    {e : Entry} (he : e.Proper) : (d.put (place ++ [name]) e).Proper := by
  refine h.alter (fun o e' he' => ?_) (by simp) fun _ _ last hlast => ?_
  · cases he'
    exact he
  · rw [List.getLast?_concat] at hlast
    cases hlast
    exact hname

/-- Two operations succeed if both do. -/
theorem bind_eq_ok {α β : Type} {x : Except DiskError α} {f : α → Except DiskError β} {b : β} :
    x >>= f = .ok b ↔ ∃ a, x = .ok a ∧ f a = .ok b := by
  cases x with
  | error e =>
    constructor
    · intro h
      cases h
    · rintro ⟨a, ha, -⟩
      cases ha
  | ok a =>
    constructor
    · intro h
      exact ⟨a, rfl, h⟩
    · rintro ⟨a, ha, h⟩
      cases ha
      exact h

/-- The segments of a path up to the last one that is not empty. -/
def keptSegments (p : Path) : List (List Char) :=
  ((segments p.chars).reverse.dropWhile List.isEmpty).reverse

/-- What a spot says about the path that names it. -/
theorem spot_eq_some {spot : Spot} (h : d.spot p = .ok (some spot)) :
    ∃ place children, accept p = .ok () ∧ (keptSegments p).getLast? = some spot.name ∧
      d.follow (d.start p) (keptSegments p).dropLast = .ok place ∧
      d.at? place.reverse = some (.directory children) ∧
      spot = ⟨place.reverse, spot.name, (keptSegments p).length < (segments p.chars).length⟩ := by
  unfold Disk.spot at h
  obtain ⟨⟨⟩, haccept, h⟩ := bind_eq_ok.1 h
  dsimp only at h
  rw [← keptSegments] at h
  -- Separators at the end are left out, so the last segment says the name.
  cases hlast : (keptSegments p).getLast? with
  | none =>
    rw [hlast] at h
    cases h
  | some last =>
    rw [hlast] at h
    obtain ⟨place, hplace, h⟩ := bind_eq_ok.1 h
    cases hat : d.at? place.reverse with
    | none =>
      rw [hat] at h
      cases h
    | some e =>
      rw [hat] at h
      cases e with
      | file data => cases h
      | directory children =>
        cases h
        exact ⟨place, children, haccept, rfl, hplace, hat, rfl⟩

/-- The last name of a path to something new is a proper name, unless it only says where to go. -/
theorem properName_spot {spot : Spot} (h : d.spot p = .ok (some spot))
    (hstep : ¬isStep spot.name = true) : ProperName (String.ofList spot.name) := by
  obtain ⟨place, children, -, hlast, -, -, -⟩ := spot_eq_some h
  -- The name is a segment of the path, and the last one that is not empty.
  have hsegment : spot.name ∈ segments p.chars := by
    have hmem := List.mem_of_getLast? hlast
    rw [keptSegments, List.mem_reverse] at hmem
    exact List.mem_reverse.1 ((List.dropWhile_sublist _).subset hmem)
  have hne : spot.name.isEmpty = false := by
    have hhead := List.head?_dropWhile_not List.isEmpty (segments p.chars).reverse
    rw [keptSegments, List.getLast?_reverse] at hlast
    rw [hlast] at hhead
    exact hhead
  unfold isStep at hstep
  rw [Bool.or_eq_true, not_or, beq_iff_eq, beq_iff_eq] at hstep
  refine ⟨?_, ?_, ?_⟩
  · rw [String.toList_ofList, isIdle, hne]
    simpa using hstep.1
  · rw [String.toList_ofList]
    exact hstep.2
  · rw [String.toList_ofList]
    exact separator_not_mem_segments hsegment

/-! ### What writing keeps -/

/-- A file that is written is put at a spot that has a proper name. -/
theorem writeFile_eq_ok {data : FileData} (h : d.writeFile p data = .ok d') :
    ∃ place name, ProperName name ∧ d' = d.put (place ++ [name]) (.file data) := by
  unfold Disk.writeFile at h
  obtain ⟨spot?, hspot, h⟩ := bind_eq_ok.1 h
  cases spot? with
  | none => cases h
  | some spot =>
    dsimp only at h
    -- A step to a directory, a long name and a directory in the way are errors.
    split at h
    · cases h
    · next hstep =>
      split at h
      · cases h
      · split at h
        · cases h
        · cases h
          exact ⟨spot.place, _, properName_spot hspot fun hname => hstep (Or.inl hname), rfl⟩

/-- A directory that is made is put at a spot that has a proper name. -/
theorem makeDirectory_eq_ok (h : d.makeDirectory p = .ok d') :
    ∃ place name, ProperName name ∧ d' = d.put (place ++ [name]) (.directory []) := by
  unfold Disk.makeDirectory at h
  obtain ⟨spot?, hspot, h⟩ := bind_eq_ok.1 h
  cases spot? with
  | none => cases h
  | some spot =>
    dsimp only at h
    -- A step, a long name and anything in the way are errors.
    split at h
    · cases h
    · next hstep =>
      split at h
      · cases h
      · split at h
        · cases h
        · cases h
          exact ⟨spot.place, _, properName_spot hspot hstep, rfl⟩

/-- Writing a file keeps a disk proper. -/
theorem Proper.writeFile (h : d.Proper) {data : FileData} (hd' : d.writeFile p data = .ok d') :
    d'.Proper := by
  obtain ⟨place, name, hname, rfl⟩ := writeFile_eq_ok hd'
  exact h.put hname (.file data)

/-- So does making a directory. -/
theorem Proper.makeDirectory (h : d.Proper) (hd' : d.makeDirectory p = .ok d') : d'.Proper := by
  obtain ⟨place, name, hname, rfl⟩ := makeDirectory_eq_ok hd'
  exact h.put hname (.directory (by simp) (by simp))

/-- So does removing. -/
theorem Proper.remove (h : d.Proper) (p : Path) : (d.remove p).Proper := by
  unfold Disk.remove
  split
  · split
    · exact h
    · next hplace =>
      refine h.alter (fun o e he => ?_) (by simpa using hplace) fun e he => ?_
      · cases he
      · cases he
  · exact h

/-! ### Following paths -/

/-- The last segment is followed last. -/
theorem follow_concat {start place : List String} {front : List (List Char)} {segment : List Char} :
    d.follow start (front ++ [segment]) = .ok place ↔
      ∃ above, d.follow start front = .ok above ∧ d.step above segment = .ok place := by
  unfold follow
  rw [List.foldlM_append, bind_eq_ok]
  simp only [List.foldlM_cons, List.foldlM_nil]
  refine exists_congr fun above => and_congr_right fun _ => ?_
  rw [bind_pure]

/-- The three kinds of steps, all of them from a directory. -/
theorem step_eq_ok {above place : List String} {segment : List Char}
    (h : d.step above segment = .ok place) :
    ∃ children, d.at? above.reverse = some (.directory children) ∧
      (isIdle segment = true ∧ place = above ∨
        segment = ['.', '.'] ∧ place = above.tail ∨
        isIdle segment = false ∧ segment ≠ ['.', '.'] ∧ isLongName segment = false ∧
          place = String.ofList segment :: above) := by
  unfold step at h
  cases hat : d.at? above.reverse with
  | none =>
    rw [hat] at h
    cases h
  | some e =>
    rw [hat] at h
    cases e with
    | file data => cases h
    | directory children =>
      refine ⟨children, rfl, ?_⟩
      dsimp only at h
      -- An idle segment stays, two dots go up, and any other goes down if it is there.
      split at h
      · next hidle =>
        cases h
        exact Or.inl ⟨hidle, rfl⟩
      · next hidle =>
        split at h
        · next hup =>
          cases h
          exact Or.inr (Or.inl ⟨hup, rfl⟩)
        · next hup =>
          split at h
          · cases h
          · next hlong =>
            split at h
            · cases h
              exact Or.inr (Or.inr ⟨by simpa using hidle, hup, by simpa using hlong, rfl⟩)
            · cases h

/-- A proper name leads one step down. -/
theorem step_properName {above place : List String} {name : String} (hname : ProperName name)
    (h : d.step above name.toList = .ok place) : place = name :: above := by
  obtain ⟨children, -, ⟨hidle, -⟩ | ⟨hup, -⟩ | ⟨-, -, -, hplace⟩⟩ := step_eq_ok h
  · rw [hname.1] at hidle
    cases hidle
  · exact absurd hup hname.2.1
  · rw [hplace, String.ofList_toList]

/-- Proper names lead down. -/
theorem follow_names {names start place : List String} (hnames : ∀ name ∈ names, ProperName name)
    (h : d.follow start (names.map String.toList) = .ok place) :
    place = names.reverse ++ start := by
  induction names using List.reverseRecOn generalizing place with
  | nil =>
    cases h
    rfl
  | append_singleton names name ih =>
    rw [List.map_append, List.map_singleton, follow_concat] at h
    obtain ⟨above, habove, hstep⟩ := h
    obtain ⟨hnames, hname⟩ := List.forall_mem_append.1 hnames
    rw [step_properName (List.forall_mem_singleton.1 hname) hstep, ih hnames habove,
      List.reverse_append]
    rfl

/-- A path is located if it is accepted, and can be walked. -/
theorem locate_eq_ok {place : List String} :
    d.locate p = .ok place ↔ accept p = .ok () ∧ d.walk p = .ok place := by
  unfold locate
  rw [bind_eq_ok]
  exact ⟨fun ⟨⟨⟩, haccept, h⟩ => ⟨haccept, h⟩, fun ⟨haccept, h⟩ => ⟨(), haccept, h⟩⟩

/-- Walking follows the segments. -/
theorem walk_eq_ok {place : List String} :
    d.walk p = .ok place ↔ d.follow (d.start p) (segments p.chars) = .ok place.reverse := by
  unfold walk
  cases hfollow : d.follow (d.start p) (segments p.chars) with
  | error e => simp [Except.map]
  | ok found => simp [Except.map, List.reverse_eq_iff]

/-- A canonical path leads to its place, if it leads anywhere. -/
theorem walk_pathOf {place found : List String} (hplace : ∀ name ∈ place, ProperName name)
    (h : d.walk (pathOf place) = .ok found) : found = place := by
  rw [walk_eq_ok, chars_pathOf, segments_cons_separator] at h
  have hstart : d.start (pathOf place) = [] := if_pos (isAbsolute_pathOf place)
  -- The segment before the first separator is empty, and so is the one behind it in the path of the
  -- root.
  have hskip : ∀ {segs : List (List Char)} {found : List String},
      d.follow [] ([] :: segs) = .ok found → d.follow [] segs = .ok found := by
    intro segs found h
    unfold follow at h
    rw [List.foldlM_cons, bind_eq_ok] at h
    obtain ⟨above, hstep, h⟩ := h
    obtain ⟨children, -, ⟨-, rfl⟩ | ⟨hup, -⟩ | ⟨hidle, -⟩⟩ := step_eq_ok hstep
    · exact h
    · cases hup
    · cases hidle
  rw [hstart] at h
  have h := hskip h
  by_cases hne : place = []
  · subst hne
    have h := hskip h
    cases hfound : found.reverse with
    | nil => exact List.reverse_eq_nil_iff.1 hfound
    | cons name rest =>
      rw [hfound] at h
      cases h
  · rw [segments_joined_names hne hplace] at h
    have heq := follow_names hplace h
    rw [List.append_nil] at heq
    exact List.reverse_injective heq

/-- An entry stands at the place of its path. -/
theorem entry_eq_ok {e : Entry} :
    d.entry p = .ok e ↔ ∃ place, d.locate p = .ok place ∧ d.at? place = some e := by
  unfold Disk.entry
  rw [bind_eq_ok]
  refine exists_congr fun place => and_congr_right fun _ => ?_
  cases d.at? place with
  | none => simp
  | some found => simp

/-- What is read is a file at the place of its path. -/
theorem read_eq_ok {data : FileData} :
    d.read p = .ok data ↔ ∃ place, d.locate p = .ok place ∧ d.at? place = some (.file data) := by
  unfold read
  rw [bind_eq_ok]
  constructor
  · rintro ⟨e, he, h⟩
    cases e with
    | file found =>
      cases h
      exact entry_eq_ok.1 he
    | directory children => cases h
  · intro h
    exact ⟨.file data, entry_eq_ok.2 h, rfl⟩

/-- The files that a scan lists are canonical script files below the root, and none of them is left
    out. -/
theorem Proper.mem_scan (h : d.Proper) {place : List String}
    (hplace : ∀ name ∈ place, ProperName name) {f : Path} (hf : f ∈ d.scan (pathOf place)) :
    f.Canonical ∧ f.isUnder (pathOf place) = true ∧ isScript f = true ∧
      isExcluded (pathOf place) f = false := by
  unfold scan at hf
  cases hentry : d.entry (pathOf place) with
  | error e =>
    rw [hentry] at hf
    exact absurd hf List.not_mem_nil
  | ok e =>
    rw [hentry, List.mem_mergeSort] at hf
    obtain ⟨found, -, he⟩ := entry_eq_ok.1 hentry
    -- Where the root leads does not matter: the files are named after the root as it is spelled.
    have hproper := (h.at? he).2
    obtain ⟨rest, data, hholds, rfl, hscript, hways, -⟩ := hproper.mem_scripts.1 hf
    have hnames := List.forall_mem_append.2 ⟨hplace, hproper.properName_of_holds hholds⟩
    rw [descend_pathOf hnames] at hscript ⊢
    exact ⟨canonical_pathOf hnames, isUnder_pathOf hnames, hscript,
      by rw [isExcluded_pathOf hnames, hways]⟩

/-- The scan lists the script files below the root if they are in order. -/
theorem scan_of_scripts {entry : Entry} {root : Path} {files : List Path}
    (hentry : d.entry root = .ok entry) (hscripts : entry.scripts root = files)
    (hsorted : files.Pairwise fun a b => precedes a b = true) : d.scan root = files := by
  unfold scan
  rw [hentry]
  show (entry.scripts root).mergeSort precedes = files
  rw [hscripts]
  exact List.mergeSort_of_pairwise hsorted

end Disk

end BlastRadius
