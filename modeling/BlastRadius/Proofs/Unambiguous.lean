import BlastRadius.Proofs.Tree

namespace BlastRadius

/-!
# Disks whose names are unambiguous

No two entries of a directory have the same name, so a path leads to what a scan saw there.

* `Entry.Unambiguous`, `Disk.Unambiguous` — kept by everything that writes to a disk
  (`Disk.Unambiguous.writeFile`, `Disk.Unambiguous.makeDirectory`, `Disk.Unambiguous.remove`).
* `Disk.Unambiguous.file_of_mem_scan` — what a scan lists are files.
* `Disk.stamp_of_read`, `Disk.Unambiguous.read_of_stamp` — the stamps of files.
-/

open Component Disk BlastRadius.Path Resolve

/-! ### Unambiguous trees -/

/-- No two entries of a directory have the same name. -/
inductive Entry.Unambiguous : Entry → Prop where
  | file (data : FileData) : Entry.Unambiguous (.file data)
  | directory {children : List (String × Entry)} (names : (children.map (·.1)).Nodup)
      (entries : ∀ c ∈ children, Entry.Unambiguous c.2) : Entry.Unambiguous (.directory children)

namespace Entry

variable {e : Entry} {name : String} {children : List (String × Entry)}

/-- Where names come once, every child is found. -/
theorem child?_of_mem (hnames : (children.map (·.1)).Nodup) {c : String × Entry}
    (hc : c ∈ children) : (Entry.directory children).child? c.1 = some c.2 := by
  unfold child?
  refine Option.map_eq_some_iff.2 ⟨c, ?_, rfl⟩
  cases hfound : children.find? (·.1 == c.1) with
  | none => exact absurd (List.find?_eq_none.1 hfound c hc) (by simp)
  | some found =>
    have hname : found.1 = c.1 := by simpa using List.find?_some hfound
    rw [List.inj_on_of_nodup_map hnames (List.mem_of_find?_eq_some hfound) hc hname]

/-- Altering a child keeps names that come once. -/
theorem nodup_alterChild (h : (children.map (·.1)).Nodup) (f : Option Entry → Option Entry) :
    ((alterChild name f children).map (·.1)).Nodup := by
  induction children with
  | nil => cases hf : f none <;> simp [alterChild, hf]
  | cons other children ih =>
    rw [List.map_cons, List.nodup_cons] at h
    rw [alterChild]
    split
    case isTrue hname =>
      rw [hname] at h
      cases hf : f (some other.2) with
      | none => simpa [hf] using h.2
      | some e => simpa [hf] using h
    case isFalse hname =>
      rw [List.map_cons, List.nodup_cons]
      refine ⟨fun hmem => ?_, ih h.2⟩
      -- A name that was not there before is the one that was made.
      obtain ⟨c, hc, hother⟩ := List.mem_map.1 hmem
      rcases mem_alterChild hc with hc | ⟨hc, -⟩
      · exact h.1 (List.mem_map.2 ⟨c, hc, hother⟩)
      · exact hname (hother.symm.trans hc)

/-- Altering a child keeps a directory unambiguous if the new entry is. -/
theorem Unambiguous.alterChild (h : (Entry.directory children).Unambiguous)
    {f : Option Entry → Option Entry} (hnone : ∀ e, f none = some e → e.Unambiguous)
    (hsome : ∀ old e, old.Unambiguous → f (some old) = some e → e.Unambiguous) :
    (Entry.directory (alterChild name f children)).Unambiguous := by
  cases h with
  | directory names entries =>
    refine .directory (nodup_alterChild names f) fun c hc => ?_
    rcases mem_alterChild hc with hc | ⟨-, hnew | ⟨old, hold, hf⟩⟩
    · exact entries c hc
    · exact hnone c.2 hnew
    · exact hsome old c.2 (entries _ hold) hf

/-- What is found in an unambiguous entry is unambiguous. -/
theorem Unambiguous.find? (h : e.Unambiguous) {place : List String} {found : Entry}
    (hfound : e.find? place = some found) : found.Unambiguous := by
  induction place generalizing e with
  | nil =>
    cases hfound
    exact h
  | cons name place ih =>
    obtain ⟨child, hchild, hrest⟩ := Option.bind_eq_some_iff.1 hfound
    cases h with
    | file data => cases hchild
    | directory names entries => exact ih (entries _ (mem_of_child? hchild)) hrest

/-- A tree stays unambiguous if what is put into it is. -/
theorem Unambiguous.alter {f : Option Entry → Option Entry}
    (hf : ∀ o e, f o = some e → e.Unambiguous) (place : List String) (h : e.Unambiguous) :
    (e.alter f place).Unambiguous := by
  induction place generalizing e with
  | nil =>
    rw [Entry.alter]
    cases hfe : f (some e) with
    | none => exact h
    | some e' => exact hf _ e' hfe
  | cons name place ih =>
    cases e with
    | file data =>
      cases place with
      | nil => exact h
      | cons next place => exact h
    | directory children =>
      cases place with
      | nil => exact h.alterChild (hf none) fun old e _ => hf (some old) e
      | cons next place =>
        refine h.alterChild (fun e he => absurd he (by simp)) fun old e hold he => ?_
        cases he
        exact ih hold

/-- Names that lead to a file are its place. -/
theorem Unambiguous.find?_of_holds (h : e.Unambiguous) {rest : List String} {data : FileData}
    (hholds : e.Holds rest data) : e.find? rest = some (.file data) := by
  induction hholds with
  | file data => rfl
  | directory hc _ ih =>
    cases h with
    | directory hunique hentries =>
      rw [Entry.find?, child?_of_mem hunique hc]
      exact ih (hentries _ hc)

end Entry

/-! ### Unambiguous disks -/

namespace Disk

variable {d d' : Disk} {p f : Path} {data : FileData}

/-- No two entries of a directory on the disk have the same name. -/
def Unambiguous (d : Disk) : Prop :=
  d.top.Unambiguous

/-- So is what stands at a place of an unambiguous disk. -/
theorem Unambiguous.at? (h : d.Unambiguous) {place : List String} {e : Entry}
    (he : d.at? place = some e) : e.Unambiguous :=
  Entry.Unambiguous.find? h he

/-- Putting an unambiguous entry keeps a disk unambiguous. -/
theorem Unambiguous.put (h : d.Unambiguous) (place : List String) {e : Entry} (he : e.Unambiguous) :
    (d.put place e).Unambiguous := by
  refine Entry.Unambiguous.alter (fun o e' he' => ?_) place h
  cases he'
  exact he

/-- So does writing a file. -/
theorem Unambiguous.writeFile (h : d.Unambiguous) (hd' : d.writeFile p data = .ok d') :
    d'.Unambiguous := by
  obtain ⟨place, name, -, rfl⟩ := writeFile_eq_ok hd'
  exact h.put _ (.file data)

/-- So does making a directory. -/
theorem Unambiguous.makeDirectory (h : d.Unambiguous) (hd' : d.makeDirectory p = .ok d') :
    d'.Unambiguous := by
  obtain ⟨place, name, -, rfl⟩ := makeDirectory_eq_ok hd'
  exact h.put _ (.directory (by simp) (by simp))

/-- So does removing. -/
theorem Unambiguous.remove (h : d.Unambiguous) (p : Path) : (d.remove p).Unambiguous := by
  unfold Disk.remove
  split
  · split
    · exact h
    · exact Entry.Unambiguous.alter (fun o e he => by cases he) _ h
  · exact h

/-! ### The files that a scan lists -/

/-- What a scan lists are files. -/
theorem Unambiguous.file_of_mem_scan (h : d.Unambiguous) (hd : d.Proper) {root : Path}
    (hroot : root.Canonical) (hf : f ∈ d.scan root) {e : Entry} (he : d.entry f = .ok e) :
    ∃ data, e = .file data := by
  obtain ⟨place, hplace, rfl⟩ := hroot
  unfold scan at hf
  cases hentry : d.entry (pathOf place) with
  | error _ =>
    rw [hentry] at hf
    exact absurd hf List.not_mem_nil
  | ok top =>
    rw [hentry, List.mem_mergeSort] at hf
    obtain ⟨found, hlocate, htop⟩ := entry_eq_ok.1 hentry
    obtain rfl := walk_pathOf hplace (locate_eq_ok.1 hlocate).2
    obtain ⟨-, hproper⟩ := hd.at? htop
    obtain ⟨rest, data, hholds, rfl, -⟩ := hproper.mem_scripts.1 hf
    have hfile := (h.at? htop).find?_of_holds hholds
    have hnames := List.forall_mem_append.2 ⟨hplace, hproper.properName_of_holds hholds⟩
    rw [descend_pathOf hnames] at he
    -- The path of the file leads to the place where the scan saw it.
    obtain ⟨there, hthere, hat⟩ := entry_eq_ok.1 he
    obtain rfl := walk_pathOf hnames (locate_eq_ok.1 hthere).2
    refine ⟨data, Option.some.inj (hat.symm.trans ?_)⟩
    rw [Disk.at?, Entry.find?_append, show d.top.find? found = some top from htop]
    exact hfile

/-! ### Stamps -/

/-- The stamp of a file. -/
def stampOf (data : FileData) : Stamp :=
  ⟨data.modified, data.bytes.length⟩

/-- A file that can be read has the stamp of its data. -/
theorem stamp_of_read (h : d.read p = .ok data) : d.stamp p = .ok (stampOf data) := by
  obtain ⟨e, he, hread⟩ := bind_eq_ok.1 h
  cases e with
  | directory children => cases hread
  | file found =>
    cases hread
    exact bind_eq_ok.2 ⟨_, he, rfl⟩

/-- What a scan lists can be read if it has a stamp. -/
theorem Unambiguous.read_of_stamp (h : d.Unambiguous) (hd : d.Proper) {root : Path}
    (hroot : root.Canonical) (hf : f ∈ d.scan root) {stamp : Stamp}
    (hstamp : d.stamp f = .ok stamp) : ∃ data, d.read f = .ok data ∧ stamp = stampOf data := by
  obtain ⟨e, he, -⟩ := bind_eq_ok.1 hstamp
  obtain ⟨data, rfl⟩ := h.file_of_mem_scan hd hroot hf he
  have hread : d.read f = .ok data := bind_eq_ok.2 ⟨_, he, rfl⟩
  exact ⟨data, hread, Except.ok.inj (hstamp.symm.trans (stamp_of_read hread))⟩

end Disk

end BlastRadius
