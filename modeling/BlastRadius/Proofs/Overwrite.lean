import BlastRadius.Project.Aliases
import BlastRadius.Proofs.Tree

namespace BlastRadius

/-!
# Overwriting a file

When a file that is there gets other bytes, the tree keeps its form: every path leads where it led,
all other files are read as before, and a scan lists the same files. Aliases come from configuration
files only, so they stay when a script file is overwritten.

* `Entry.overwrite`, `Entry.find?_overwrite` — the tree with other bytes in a file, place by place.
* `Disk.SameForm` — two disks with the same directories and files, but for the bytes in them.
* `Disk.read_put`, `Disk.scan_put`, `loadAliases_put` — what is read, listed and loaded then.
* `Disk.Proper.writeFile_of_read` — writing to a file that can be read overwrites it.
-/

open Component Disk BlastRadius.Path Project Resolve

namespace Entry

variable {e child : Entry} {key other : String} {children : List (String × Entry)}
  {data old : FileData}
  {place : List String}

/-- The names in a directory. -/
def names? : Entry → Option (List String)
  | .file _ => none
  | .directory children => some (children.map (·.1))

/-- What stands in a file. -/
def data? : Entry → Option FileData
  | .file data => some data
  | .directory _ => none

/-- The tree with other bytes in the file at a place. -/
def overwrite (data : FileData) (place : List String) (e : Entry) : Entry :=
  e.alter (fun _ => some (.file data)) place

/-! ### One directory -/

/-- A child is looked for from the first on. -/
theorem child?_directory_cons (c : String × Entry) :
    (Entry.directory (c :: children)).child? key
      = if c.1 = key then some c.2 else (Entry.directory children).child? key := by
  rw [child?, List.find?_cons]
  by_cases hc : c.1 = key
  · rw [if_pos hc, show (c.1 == key) = true from beq_iff_eq.2 hc]
    rfl
  · rw [if_neg hc, show (c.1 == key) = false from beq_eq_false_iff_ne.2 hc]
    rfl

/-- Altering one child leaves the others alone. -/
theorem child?_alterChild_ne (f : Option Entry → Option Entry) (h : other ≠ key) :
    (Entry.directory (alterChild other f children)).child? key
      = (Entry.directory children).child? key := by
  induction children with
  | nil =>
    rw [alterChild]
    cases f none with
    | none => rfl
    | some e => exact (child?_directory_cons (other, e)).trans (if_neg h)
  | cons c children ih =>
    rw [alterChild]
    -- The altered child may go away, but no other does.
    by_cases hc : c.1 = other
    · rw [if_pos hc, child?_directory_cons c, if_neg (by rw [hc]; exact h)]
      cases f (some c.2) with
      | none => rfl
      | some e => exact (child?_directory_cons (other, e)).trans (if_neg h)
    · rw [if_neg hc, child?_directory_cons, child?_directory_cons, ih]

/-- An entry is changed in its place. -/
theorem alterChild_of_child? {f : Option Entry → Option Entry} {e' : Entry}
    (hchild : (Entry.directory children).child? key = some child) (hf : f (some child) = some e') :
    ∃ front back, children = front ++ (key, child) :: back ∧
      alterChild key f children = front ++ (key, e') :: back ∧
      (Entry.directory (alterChild key f children)).child? key = some e' := by
  induction children with
  | nil => cases hchild
  | cons c children ih =>
    obtain ⟨name, entry⟩ := c
    rw [child?_directory_cons] at hchild
    rw [alterChild]
    -- The first child of the name is altered, and is the one that is looked up.
    by_cases hname : name = key
    · subst hname
      rw [if_pos rfl, Option.some.injEq] at hchild
      subst hchild
      rw [if_pos rfl, hf]
      exact ⟨[], children, rfl, rfl, (child?_directory_cons (name, e')).trans (if_pos rfl)⟩
    · rw [if_neg hname] at hchild
      obtain ⟨front, back, rfl, halter, hread⟩ := ih hchild
      rw [if_neg hname]
      refine ⟨(name, entry) :: front, back, rfl, by rw [halter]; rfl, ?_⟩
      rw [child?_directory_cons, if_neg hname, hread]

/-! ### The whole tree -/

/-- Overwriting a file below a directory overwrites it in one entry of the directory. -/
theorem overwrite_cons (data : FileData) (hfile : e.find? (key :: place) = some (.file old)) :
    ∃ front back child, e = .directory (front ++ (key, child) :: back) ∧
      child.find? place = some (.file old) ∧ e.child? key = some child ∧
      e.overwrite data (key :: place)
        = .directory (front ++ (key, child.overwrite data place) :: back) ∧
      (e.overwrite data (key :: place)).child? key = some (child.overwrite data place) ∧
      ∀ name, key ≠ name → (e.overwrite data (key :: place)).child? name = e.child? name := by
  obtain ⟨child, hchild, hrest⟩ := Option.bind_eq_some_iff.1 hfile
  cases e with
  | file data => cases hchild
  | directory children =>
    -- Both equations of `alter` change the entry in the same way.
    obtain ⟨f, hf, halter⟩ : ∃ f : Option Entry → Option Entry,
        f (some child) = some (child.overwrite data place) ∧
        (Entry.directory children).overwrite data (key :: place)
          = .directory (alterChild key f children) := by
      cases place with
      | nil => exact ⟨_, rfl, rfl⟩
      | cons next place => exact ⟨_, rfl, rfl⟩
    obtain ⟨front, back, rfl, hentries, hread⟩ := alterChild_of_child? hchild hf
    refine ⟨front, back, child, rfl, hrest, hchild,
      by rw [halter, hentries], by rw [halter, hread], ?_⟩
    intro name hname
    rw [halter, child?_alterChild_ne f hname]

/-- A file at the empty place is the entry itself. -/
theorem eq_file_of_find?_nil (h : e.find? [] = some (.file old)) : e = .file old :=
  Option.some.inj h

/-- What stands at a place when a file was overwritten. -/
theorem find?_overwrite (hfile : e.find? place = some (.file old)) (asked : List String) :
    (e.overwrite data place).find? asked =
      if asked <+: place then (e.find? asked).map (overwrite data (place.drop asked.length))
      else e.find? asked := by
  induction place generalizing e asked with
  | nil =>
    obtain rfl := eq_file_of_find?_nil hfile
    cases asked with
    | nil => rfl
    | cons name asked =>
      -- There is nothing below a file, before and after.
      rw [if_neg (by simp)]
      rfl
  | cons key place ih =>
    cases asked with
    | nil => rw [if_pos List.nil_prefix]; rfl
    | cons name asked =>
      obtain ⟨front, back, child, -, hchildfile, hchild, -, hread, hothers⟩ :=
        overwrite_cons data hfile
      -- The ways to the file and to what is asked for part at the first name that differs.
      rw [find?, find?]
      by_cases hname : key = name
      · subst hname
        rw [hread, hchild, Option.bind_some, Option.bind_some, ih hchildfile, List.length_cons,
          List.drop_succ_cons]
        simp only [List.cons_prefix_cons, true_and]
      · rw [hothers name hname, if_neg]
        rw [List.cons_prefix_cons, not_and]
        intro heq
        exact absurd heq.symm hname

/-- Overwriting a file keeps the names of a directory. -/
theorem names?_overwrite (hfile : e.find? place = some (.file old)) :
    (e.overwrite data place).names? = e.names? := by
  cases place with
  | nil =>
    obtain rfl := eq_file_of_find?_nil hfile
    rfl
  | cons key place =>
    obtain ⟨front, back, child, rfl, -, -, halter, -, -⟩ := overwrite_cons data hfile
    rw [halter, names?, names?, List.map_append, List.map_append, List.map_cons, List.map_cons]

/-- Overwriting a file further down keeps the data of an entry. -/
theorem data?_overwrite (hplace : place ≠ []) (hfile : e.find? place = some (.file old)) :
    (e.overwrite data place).data? = e.data? := by
  cases place with
  | nil => exact absurd rfl hplace
  | cons key place =>
    obtain ⟨front, back, child, rfl, -, -, halter, -, -⟩ := overwrite_cons data hfile
    rw [halter]
    rfl

/-- A directory is what has names. -/
theorem isDirectory_eq (e : Entry) : e.isDirectory = e.names?.isSome := by
  cases e with
  | file data => rfl
  | directory children => rfl

/-- The scripts of two lists of children. -/
theorem scriptsIn_append (here : Path) (front back : List (String × Entry)) :
    scriptsIn here (front ++ back) = scriptsIn here front ++ scriptsIn here back := by
  induction front with
  | nil => rfl
  | cons c front ih => rw [List.cons_append, scriptsIn, scriptsIn, ih, List.append_assoc]

/-- The script files of a tree do not depend on what stands in them. -/
theorem scripts_overwrite (hfile : e.find? place = some (.file old)) (here : Path) :
    (e.overwrite data place).scripts here = e.scripts here := by
  induction place generalizing e here with
  | nil =>
    obtain rfl := eq_file_of_find?_nil hfile
    rfl
  | cons key place ih =>
    obtain ⟨front, back, child, rfl, hchildfile, -, halter, -, -⟩ := overwrite_cons data hfile
    rw [halter, scripts, scripts, scriptsIn_append, scriptsIn_append, scriptsIn, scriptsIn,
      ih hchildfile, isDirectory_eq, isDirectory_eq, names?_overwrite hchildfile]

end Entry

/-! ### Disks of the same form -/

namespace Disk

variable {d d' : Disk} {p : Path} {place : List String} {data old : FileData}

/-- The same directories with the same names in them, and the same files but for what stands in
    them. -/
structure SameForm (d d' : Disk) : Prop where
  names : ∀ place, (d'.at? place).map Entry.names? = (d.at? place).map Entry.names?
  workdir : d'.workdir = d.workdir

namespace SameForm

/-- What stands at a place on two disks of the same form. -/
theorem cases_at? (h : SameForm d d') (place : List String) :
    d.at? place = none ∧ d'.at? place = none ∨
    (∃ data data', d.at? place = some (.file data) ∧ d'.at? place = some (.file data')) ∨
    ∃ children children', d.at? place = some (.directory children) ∧
      d'.at? place = some (.directory children') ∧ children.map (·.1) = children'.map (·.1) := by
  have hnames := h.names place
  cases hd : d.at? place with
  | none =>
    rw [hd] at hnames
    exact Or.inl ⟨rfl, Option.map_eq_none_iff.1 hnames⟩
  | some e =>
    rw [hd] at hnames
    obtain ⟨e', he', heq⟩ := Option.map_eq_some_iff.1 hnames
    refine Or.inr ?_
    cases e with
    | file data =>
      cases e' with
      | file data' => exact Or.inl ⟨data, data', rfl, he'⟩
      | directory children' => cases heq
    | directory children =>
      cases e' with
      | file data' => cases heq
      | directory children' =>
        exact Or.inr ⟨children, children', rfl, he', (Option.some.inj heq).symm⟩

/-- There is a child exactly for each name. -/
theorem isSome_child? (children : List (String × Entry)) (key : String) :
    ((Entry.directory children).child? key).isSome = (children.map (·.1)).contains key := by
  induction children with
  | nil => rfl
  | cons c children ih =>
    rw [Entry.child?_directory_cons, List.map_cons, List.contains_cons, ← ih]
    by_cases hc : c.1 = key
    · simp [hc]
    · rw [if_neg hc, show (key == c.1) = false from beq_eq_false_iff_ne.2 fun heq => hc heq.symm,
        Bool.false_or]

/-- Going one step depends on the form only. -/
theorem step (h : SameForm d d') : d'.step = d.step := by
  funext above segment
  unfold Disk.step
  rcases h.cases_at? above.reverse with ⟨hd, hd'⟩ | ⟨a, b, hd, hd'⟩ | ⟨a, b, hd, hd', hnames⟩
  · rw [hd, hd']
  · rw [hd, hd']
  · rw [hd, hd']
    dsimp only
    rw [isSome_child?, isSome_child?, hnames]

/-- So does locating a path. -/
theorem locate (h : SameForm d d') : d'.locate = d.locate := by
  funext p
  unfold Disk.locate walk follow start
  rw [h.step, h.workdir]

/-- An entry is what stands at the place of a path. -/
theorem entry_of_locate (hplace : d.locate p = .ok place) :
    d.entry p = match d.at? place with
      | some e => .ok e
      | none => .error .notFound := by
  unfold Disk.entry
  rw [hplace]
  rfl

/-- What a path leads to on two disks of the same form. -/
theorem cases_entry (h : SameForm d d') (p : Path) :
    (∃ e, d.entry p = .error e ∧ d'.entry p = .error e) ∨
    (∃ data data', d.entry p = .ok (.file data) ∧ d'.entry p = .ok (.file data')) ∨
    ∃ children children', d.entry p = .ok (.directory children) ∧
      d'.entry p = .ok (.directory children') ∧ children.map (·.1) = children'.map (·.1) := by
  cases hplace : d.locate p with
  | error e =>
    refine Or.inl ⟨e, ?_, ?_⟩
    · unfold Disk.entry
      rw [hplace]
      rfl
    · unfold Disk.entry
      rw [h.locate, hplace]
      rfl
  | ok place =>
    have hplace' : d'.locate p = .ok place := by rw [h.locate, hplace]
    rw [entry_of_locate hplace, entry_of_locate hplace']
    rcases h.cases_at? place with
      ⟨hd, hd'⟩ | ⟨data, data', hd, hd'⟩ | ⟨children, children', hd, hd', hnames⟩
    · rw [hd, hd']
      exact Or.inl ⟨_, rfl, rfl⟩
    · rw [hd, hd']
      exact Or.inr (Or.inl ⟨data, data', rfl, rfl⟩)
    · rw [hd, hd']
      exact Or.inr (Or.inr ⟨children, children', rfl, rfl, hnames⟩)

/-- Being a directory depends on the form only. -/
theorem isDirectory (h : SameForm d d') : d'.isDirectory = d.isDirectory := by
  funext p
  unfold Disk.isDirectory
  rcases h.cases_entry p with ⟨e, hd, hd'⟩ | ⟨a, b, hd, hd'⟩ | ⟨a, b, hd, hd', -⟩
  · rw [hd, hd']
  · rw [hd, hd']
    rfl
  · rw [hd, hd']
    rfl

/-- So does being a file. -/
theorem isFile (h : SameForm d d') : d'.isFile = d.isFile := by
  funext p
  unfold Disk.isFile
  rcases h.cases_entry p with ⟨e, hd, hd'⟩ | ⟨a, b, hd, hd'⟩ | ⟨a, b, hd, hd', -⟩
  · rw [hd, hd']
  · rw [hd, hd']
    rfl
  · rw [hd, hd']
    rfl

/-- So does what a directory lists. -/
theorem list (h : SameForm d d') : d'.list = d.list := by
  funext p
  unfold Disk.list
  rcases h.cases_entry p with ⟨e, hd, hd'⟩ | ⟨a, b, hd, hd'⟩ | ⟨a, b, hd, hd', hnames⟩
  · rw [hd, hd']
  · rw [hd, hd']
    rfl
  · rw [hd, hd']
    show Except.ok (b.map fun c => p.child c.1) = Except.ok (a.map fun c => p.child c.1)
    have hmap : ∀ children : List (String × Entry),
        children.map (fun c => p.child c.1) = (children.map (·.1)).map p.child := by
      intro children
      rw [List.map_map]
      rfl
    rw [hmap, hmap, hnames]

end SameForm

/-! ### Overwriting a file on a disk -/

/-- Putting a file where one was keeps the form. -/
theorem sameForm_put (hfile : d.at? place = some (.file old)) (data : FileData) :
    SameForm d (d.put place (.file data)) where
  names asked := by
    show ((d.top.overwrite data place).find? asked).map Entry.names? = _
    rw [Entry.find?_overwrite hfile]
    split
    · next hasked =>
      -- On the way to the file an entry changes, but its names do not.
      obtain ⟨rest, rfl⟩ := hasked
      rw [at?, Entry.find?_append] at hfile
      obtain ⟨e, he, hrest⟩ := Option.bind_eq_some_iff.1 hfile
      rw [at?, he, List.drop_left, Option.map_some, Option.map_some, Option.map_some,
        Entry.names?_overwrite hrest]
    · rfl
  workdir := rfl

/-- Putting a file changes the data of one place. -/
theorem data?_put (hfile : d.at? place = some (.file old)) (data : FileData) (asked : List String) :
    ((d.put place (.file data)).at? asked).bind Entry.data? =
      if asked = place then some data else (d.at? asked).bind Entry.data? := by
  show ((d.top.overwrite data place).find? asked).bind Entry.data? = _
  rw [Entry.find?_overwrite hfile]
  by_cases hasked : asked <+: place
  · rw [if_pos hasked]
    obtain ⟨rest, rfl⟩ := hasked
    rw [at?, Entry.find?_append] at hfile
    obtain ⟨e, he, hrest⟩ := Option.bind_eq_some_iff.1 hfile
    rw [at?, he, List.drop_left, Option.map_some, Option.bind_some, Option.bind_some]
    -- Either this is the file, or it is a directory above it.
    by_cases hnil : rest = []
    · subst hnil
      rw [if_pos (by rw [List.append_nil]), Entry.eq_file_of_find?_nil hrest]
      rfl
    · rw [if_neg (by simpa using hnil), Entry.data?_overwrite hnil hrest]
  · rw [if_neg hasked, if_neg]
    · rfl
    · rintro rfl
      exact hasked List.prefix_rfl

/-- What is read is the data at the place of the path. -/
theorem read_eq_bind (d : Disk) (p : Path) :
    (d.read p).toOption = (d.locate p).toOption.bind fun place =>
      (d.at? place).bind Entry.data? := by
  unfold read Disk.entry
  cases d.locate p with
  | error e => rfl
  | ok place =>
    show Except.toOption (Except.bind (match d.at? place with
      | some e => Except.ok e
      | none => Except.error DiskError.notFound) _) = (d.at? place).bind Entry.data?
    cases d.at? place with
    | none => rfl
    | some e =>
      cases e with
      | file data => rfl
      | directory children => rfl

/-- What can be read after a file was overwritten. -/
theorem read_put (hfile : d.at? place = some (.file old)) (data : FileData) (p : Path) :
    ((d.put place (.file data)).read p).toOption =
      if d.locate p = .ok place then some data else (d.read p).toOption := by
  rw [read_eq_bind, read_eq_bind, (sameForm_put hfile data).locate]
  cases d.locate p with
  | error e => rw [if_neg (by simp)]; rfl
  | ok asked =>
    show ((d.put place (.file data)).at? asked).bind Entry.data? = _
    rw [data?_put hfile]
    simp only [Except.ok.injEq]
    rfl

/-- Putting a file where one was keeps the scan. -/
theorem scan_put (hfile : d.at? place = some (.file old)) (data : FileData) (root : Path) :
    (d.put place (.file data)).scan root = d.scan root := by
  have hform := sameForm_put hfile data
  unfold scan
  cases hlocate : d.locate root with
  | error e =>
    unfold Disk.entry
    rw [hform.locate, hlocate]
    rfl
  | ok asked =>
    have hlocate' : (d.put place (.file data)).locate root = .ok asked := by
      rw [hform.locate, hlocate]
    have hat : (d.put place (.file data)).at? asked = _ := Entry.find?_overwrite hfile asked
    rw [SameForm.entry_of_locate hlocate, SameForm.entry_of_locate hlocate', hat]
    by_cases hasked : asked <+: place
    · -- The root is on the way to the file.
      rw [if_pos hasked]
      obtain ⟨rest, rfl⟩ := hasked
      rw [at?, Entry.find?_append] at hfile
      obtain ⟨e, he, hrest⟩ := Option.bind_eq_some_iff.1 hfile
      rw [at?, he, List.drop_left, Option.map_some]
      show ((e.overwrite data rest).scripts root).mergeSort Path.precedes
          = (e.scripts root).mergeSort _
      rw [Entry.scripts_overwrite hrest]
    · rw [if_neg hasked]
      rfl

/-- What has something below it is a directory. -/
theorem at?_concat {above : List String} {key : String} {e : Entry}
    (h : d.at? (above ++ [key]) = some e) :
    ∃ children, d.at? above = some (.directory children) := by
  rw [at?, Entry.find?_append] at h
  obtain ⟨parent, hparent, hchild⟩ := Option.bind_eq_some_iff.1 h
  cases parent with
  | file data => cases hchild
  | directory children => exact ⟨children, hparent⟩

/-- Above a directory there is a directory. -/
theorem Proper.at?_tail (h : d.Proper) {above : List String} {children : List (String × Entry)}
    (habove : d.at? above.reverse = some (.directory children)) :
    ∃ children', d.at? above.tail.reverse = some (.directory children') := by
  cases above with
  | nil =>
    have hdirectory := h.isDirectory
    cases htop : d.top with
    | file data =>
      rw [htop] at hdirectory
      cases hdirectory
    | directory children => exact ⟨children, congrArg some htop⟩
  | cons key above =>
    rw [List.reverse_cons] at habove
    exact at?_concat habove

/-- A path that leads to a file ends with the name of the file. -/
theorem Proper.locate_file (h : d.Proper) (hlocate : d.locate p = .ok place)
    (hfile : d.at? place = some (.file old)) :
    ∃ front segment above children, segments p.chars = front ++ [segment] ∧
      d.follow (d.start p) front = .ok above ∧ d.at? above.reverse = some (.directory children) ∧
      isIdle segment = false ∧ segment ≠ ['.', '.'] ∧ isLongName segment = false ∧
      place = above.reverse ++ [String.ofList segment] := by
  have hwalk := walk_eq_ok.1 (locate_eq_ok.1 hlocate).2
  obtain ⟨first, rest, hcons⟩ := exists_segments_eq_cons p.chars
  obtain ⟨front, segment, hsegs⟩ :=
    (List.eq_nil_or_concat' (segments p.chars)).resolve_left (by simp [hcons])
  rw [hsegs, follow_concat] at hwalk
  obtain ⟨above, habove, hstep⟩ := hwalk
  obtain ⟨children, hchildren, hkind⟩ := step_eq_ok hstep
  refine ⟨front, segment, above, children, hsegs, habove, hchildren, ?_⟩
  rcases hkind with ⟨-, heq⟩ | ⟨-, heq⟩ | ⟨hidle, hup, hlong, heq⟩
  · -- A step that leads nowhere ends at a directory.
    rw [← heq, List.reverse_reverse, hfile] at hchildren
    cases hchildren
  · -- So does a step up.
    obtain ⟨children', hchildren'⟩ := h.at?_tail hchildren
    rw [← heq, List.reverse_reverse, hfile] at hchildren'
    cases hchildren'
  · exact ⟨hidle, hup, hlong, by rw [← List.reverse_cons, ← heq, List.reverse_reverse]⟩

/-- Writing to a file that can be read gives it other bytes. -/
theorem Proper.writeFile_of_read (h : d.Proper) (hread : d.read p = .ok old) (data : FileData) :
    ∃ place, d.locate p = .ok place ∧ d.at? place = some (.file old) ∧
      d.writeFile p data = .ok (d.put place (.file data)) := by
  obtain ⟨place, hlocate, hfile⟩ := read_eq_ok.1 hread
  refine ⟨place, hlocate, hfile, ?_⟩
  obtain ⟨front, segment, above, children, hsegs, habove, hchildren, hidle, hup, hlong, rfl⟩ :=
    h.locate_file hlocate hfile
  obtain ⟨hempty, hdot⟩ : segment.isEmpty = false ∧ segment ≠ ['.'] := by
    rw [isIdle, Bool.or_eq_false_iff, beq_eq_false_iff_ne] at hidle
    exact hidle
  -- The path does not end with a separator, since its last segment is the name of the file.
  have hkept : keptSegments p = front ++ [segment] := by
    rw [keptSegments, hsegs, List.reverse_append, List.reverse_singleton, List.singleton_append,
      List.dropWhile_cons_of_neg (by simp [hempty]), List.reverse_cons, List.reverse_reverse]
  have hspot : d.spot p = .ok (some ⟨above.reverse, segment, false⟩) := by
    unfold Disk.spot
    rw [(locate_eq_ok.1 hlocate).1]
    dsimp only [bind, Except.bind]
    rw [← keptSegments, hkept, List.getLast?_concat]
    dsimp only
    rw [List.dropLast_concat, habove]
    dsimp only
    rw [hchildren]
    dsimp only
    rw [hsegs, decide_eq_false (Nat.lt_irrefl _)]
  unfold Disk.writeFile
  rw [hspot]
  dsimp only [bind, Except.bind]
  rw [if_neg (by simp [isStep, hdot, hup]), if_neg (by simp [hlong]), hfile]

end Disk

/-! ### Configuration files -/

/-- A path with a name behind it ends with this name. -/
theorem segments_child (base : Path) {key : String} (hkey : ProperName key) :
    ∃ front, segments (base.child key).chars = front ++ [key.toList] := by
  have hlast : segments key.toList = [key.toList] := segments_of_separator_not_mem hkey.2.2
  by_cases hbase : base.chars = []
  · have hchild : base.child key = ofString key := by simp [Path.child, Path.join, hbase]
    rw [hchild, chars_ofString, hlast]
    exact ⟨[], rfl⟩
  · rw [Path.child, chars_join (not_isAbsolute_ofString hkey) hbase, chars_ofString]
    split
    · next hseparator =>
      obtain ⟨front, hfront⟩ := List.getLast?_eq_some_iff.1 hseparator
      rw [hfront, List.append_assoc, List.singleton_append, segments_append, hlast]
      exact ⟨segments front, rfl⟩
    · rw [segments_append, hlast]
      exact ⟨segments base.chars, rfl⟩

/-- A proper child is located at a place that ends with its name. -/
theorem getLast?_of_locate_child {d : Disk} {base : Path} {key : String} (hkey : ProperName key)
    {place : List String} (h : d.locate (base.child key) = .ok place) :
    place.getLast? = some key := by
  obtain ⟨front, hsegs⟩ := segments_child base hkey
  have hwalk := walk_eq_ok.1 (locate_eq_ok.1 h).2
  rw [hsegs, follow_concat] at hwalk
  obtain ⟨above, -, hstep⟩ := hwalk
  rw [← List.reverse_reverse place, step_properName hkey hstep, List.reverse_cons,
    List.getLast?_concat]

/-- The names of the files that aliases are read from. -/
def configNames : List String :=
  ["tsconfig.json", "jsconfig.json", "package.json"]

/-- The names of configuration files are proper. -/
theorem properName_of_mem_configNames : ∀ key ∈ configNames, ProperName key := by
  decide

/-- Overwriting another file does not change a configuration. -/
theorem readConfig?_put {d : Disk} {place : List String} {old : FileData}
    (hfile : d.at? place = some (.file old))
    (hplace : ∀ key ∈ configNames, place.getLast? ≠ some key) (data : FileData) {α : Type}
    (form? : Json.Tree → Option α) (base : Path) {key : String} (hkey : key ∈ configNames) :
    readConfig? (d.put place (.file data)) form? (base.child key)
      = readConfig? d form? (base.child key) := by
  unfold readConfig?
  rw [read_put hfile, if_neg]
  -- The path of a configuration file leads to a place that ends with its name.
  intro hlocate
  exact hplace key hkey (getLast?_of_locate_child (properName_of_mem_configNames key hkey) hlocate)

/-- Overwriting a file that is no configuration file does not change the aliases. -/
theorem loadAliases_put {d : Disk} {place : List String} {old : FileData}
    (hfile : d.at? place = some (.file old))
    (hplace : ∀ key ∈ configNames, place.getLast? ≠ some key) (data : FileData) (root : Path) :
    loadAliases (d.put place (.file data)) root = loadAliases d root := by
  have hform := sameForm_put hfile data
  -- Each part reads configuration files, of which none is written, and the form of the disk.
  have hoptions : findOptions? (d.put place (.file data)) root = findOptions? d root := by
    unfold findOptions? compilerFiles
    simp only [List.findSome?_cons, List.findSome?_nil]
    rw [readConfig?_put hfile hplace data _ root (by decide),
      readConfig?_put hfile hplace data _ root (by decide)]
  have hexpand : expandPattern (d.put place (.file data)) = expandPattern d := by
    funext root pattern
    unfold expandPattern
    rw [hform.list, hform.isDirectory]
  have hpackage : packageAliases (d.put place (.file data)) = packageAliases d := by
    funext directory
    unfold packageAliases packageEntry
    rw [readConfig?_put hfile hplace data _ directory (by decide), hform.isFile]
  unfold loadAliases compilerAliases workspaceAliases
  rw [hoptions, hexpand, hpackage, readConfig?_put hfile hplace data _ root (by decide)]

/-- A configuration file is no script file. -/
theorem getLast?_ne_of_isScript {place : List String} (hplace : ∀ name ∈ place, ProperName name)
    (h : isScript (pathOf place) = true) : ∀ key ∈ configNames, place.getLast? ≠ some key := by
  intro key hkey hlast
  have hname : (pathOf place).fileName? = some key := by
    obtain ⟨front, rfl⟩ := List.getLast?_eq_some_iff.1 hlast
    rw [fileName?, components_pathOf hplace, List.map_append, List.map_singleton,
      ← List.cons_append, List.getLast?_concat]
  unfold isScript extension? at h
  rw [hname] at h
  have hnot : ∀ key ∈ configNames,
      ((splitExtension key.toList).2 >>= fun last => pure (String.ofList last)).any
        scriptExtensions.contains
        = false := by
    decide
  cases h.symm.trans (hnot key hkey)

end BlastRadius
