import BlastRadius.Graph.Saved
import BlastRadius.Proofs.Rendered
import BlastRadius.Proofs.Utf8

namespace BlastRadius

/-!
# The text of a snapshot

A snapshot is rendered as nested records, and each record is read back from the tree of its object.

* `Json.fields?_tree` — the fields of an object whose keys are distinct.
* `Graph.importEdge?_toJson`, `Graph.export?_exportJson`, `Graph.snapshotNode?_toJson`,
  `Graph.snapshotEdge?_toJson`, `Graph.snapshot?_toJson` — a reader for each record gives back what
  was written.
* `Graph.Snapshot.Fits` — all numbers of a snapshot have 64 bits.
* `Graph.read_render_snapshot` — a rendered snapshot is read back, in either layout.
-/

open Json Json.Tree Text

namespace Json

/-! ### Plain values -/

/-- A string is read back. -/
@[simp] theorem text?_str (s : String) : (Json.str s).tree.text? = some s := rfl

/-- A truth value is read back. -/
@[simp] theorem bool?_bool (b : Bool) : (Json.bool b).tree.bool? = some b := by
  cases b <;> rfl

/-- A natural number is read back. -/
@[simp] theorem nat?_nat (n : Nat) : (Json.nat n).tree.nat? = some n := by
  simp [Json.nat, tree, nat?]

/-- The trees of items, one by one. -/
theorem itemTrees_eq_map (items : List Json) : itemTrees items = items.map tree := by
  induction items with
  | nil => rfl
  | cons item items ih => rw [itemTrees, ih, List.map_cons]

/-- A list is read back if its items are. -/
theorem list?_arr {α : Type} {toJson : α → Json} {item? : Tree → Option α} {values : List α}
    (h : ∀ value ∈ values, item? (toJson value).tree = some value) :
    (Json.arr (values.map toJson)).tree.list? item? = some values := by
  rw [tree, list?, itemTrees_eq_map, List.map_map]
  induction values with
  | nil => rfl
  | cons value values ih =>
    obtain ⟨hvalue, hvalues⟩ := List.forall_mem_cons.1 h
    simp [hvalue, ih hvalues]

/-- A string that may be missing is read back if it is where it is there. -/
theorem optional_ofOption {α : Type} {toJson : α → Json} {value? : Tree → Option α}
    (hstr : ∀ value, ∃ s, toJson value = .str s)
    (h : ∀ value, value? (toJson value).tree = some value) (value : Option α) :
    optional value? (some (Json.ofOption toJson value).tree) = some value := by
  cases value with
  | none => rfl
  | some value =>
    obtain ⟨s, hs⟩ := hstr value
    have hread := h value
    rw [hs] at hread
    rw [ofOption, hs]
    -- A string is never taken for a missing value.
    show (value? (Json.str s).tree).map some = _
    rw [hread]
    rfl

/-! ### Records -/

variable {fields : List (String × Json)} {names : List String}

/-- Every field has a name. -/
theorem namedFields?_fieldTrees (fields : List (String × Json)) :
    namedFields? (fieldTrees fields) = some (fields.map fun field => (field.1, field.2.tree)) := by
  induction fields with
  | nil => rfl
  | cons field fields ih => simp [fieldTrees, namedFields?, ih]

/-- A field whose name comes once has one value. -/
theorem valuesOf_of_mem {values : List (String × Tree)} (h : (values.map (·.1)).Nodup)
    {key : String} {value : Tree} (hvalue : (key, value) ∈ values) :
    valuesOf values key = [value] := by
  induction values with
  | nil => cases hvalue
  | cons first values ih =>
    rw [List.map_cons, List.nodup_cons] at h
    -- The field is the first of its name, and no later one has that name.
    rcases List.mem_cons.1 hvalue with rfl | hmem
    · have hothers : values.filter (·.1 == key) = [] := by
        rw [List.filter_eq_nil_iff]
        intro other hother heq
        exact h.1 (List.mem_map.2 ⟨other, hother, beq_iff_eq.1 heq⟩)
      simp [valuesOf, hothers]
    · have hne : first.1 ≠ key := by
        rintro rfl
        exact h.1 (List.mem_map.2 ⟨_, hmem, rfl⟩)
      rw [valuesOf, List.filter_cons_of_neg (by simpa using hne)]
      exact ih h.2 hmem

/-- The fields of an object whose keys are distinct. -/
theorem fields?_tree (h : names.Nodup) (hnames : fields.map (·.1) = names) :
    (Json.obj fields).tree.fields? names = some (fields.map fun field => some field.2.tree) := by
  subst hnames
  have hvalues : ∀ field ∈ fields,
      valuesOf (fields.map fun field => (field.1, field.2.tree)) field.1 = [field.2.tree] := by
    intro field hfield
    refine valuesOf_of_mem ?_ (List.mem_map.2 ⟨field, hfield, rfl⟩)
    rw [List.map_map]
    exact h
  -- Each name finds the value of its own field and nothing else.
  have hlength : ((fields.map (·.1)).all fun name =>
      (valuesOf (fields.map fun field => (field.1, field.2.tree)) name).length ≤ 1) = true := by
    rw [List.all_map, List.all_eq_true]
    intro field hfield
    simp [hvalues field hfield]
  rw [tree, fields?, namedFields?_fieldTrees]
  show (if _ then _ else _) = _
  rw [if_pos hlength, List.map_map]
  refine congrArg some (List.map_congr_left fun field hfield => ?_)
  simp [hvalues field hfield]

/-- A record is read back field by field. -/
theorem record?_tree (h : names.Nodup) (hnames : fields.map (·.1) = names) (least : Nat) :
    (Json.obj fields).tree.record? names least = some (fields.map fun field => some field.2.tree) :=
  fields?_tree h hnames

end Json

namespace Graph

/-! ### The records of a snapshot -/

/-- A path is read back. -/
@[simp] theorem path?_pathJson (p : Path) : path? (pathJson p).tree = some p :=
  congrArg some (Path.ext_spelling rfl)

/-- A kind is read back from its name. -/
@[simp] theorem kind?_kindName (kind : Statement.ExportKind) :
    kind? (Json.str (kindName kind)).tree = some kind := by
  cases kind <;> rfl

/-- An import is read back. -/
theorem importEdge?_toJson (e : ImportEdge) : importEdge? e.toJson.tree = some e := by
  have htarget : optional path? (some (Json.ofOption pathJson e.target).tree) = some e.target :=
    optional_ofOption (fun p => ⟨p.spelling, rfl⟩) path?_pathJson e.target
  have hsymbols : (textsJson e.symbols).tree.list? text? = some e.symbols :=
    list?_arr fun symbol _ => text?_str symbol
  rw [importEdge?, ImportEdge.toJson, record?_tree (by decide) (by rfl)]
  simp [required, htarget, hsymbols]

/-- An export is read back. -/
theorem export?_exportJson (e : Statement.Export) : export? (exportJson e).tree = some e := by
  have hsource : optional text? (some (Json.ofOption .str e.source).tree) = some e.source :=
    optional_ofOption (fun s => ⟨s, rfl⟩) text?_str e.source
  rw [export?, exportJson, record?_tree (by decide) (by rfl)]
  simp [required, hsource]

/-- An edge is read back. -/
theorem snapshotEdge?_toJson (e : SnapshotEdge) : snapshotEdge? e.toJson.tree = some e := by
  rw [snapshotEdge?, SnapshotEdge.toJson, record?_tree (by decide) (by rfl)]
  simp [required]

/-- All numbers of an analysed file have 64 bits. -/
structure FileNode.Fits (n : FileNode) : Prop where
  imports : ∀ e ∈ n.imports, e.line < 2 ^ 64
  exports : ∀ e ∈ n.exports, e.line < 2 ^ 64
  lastModified : n.lastModified < 2 ^ 64
  size : n.size < 2 ^ 64
  lineCount : n.lineCount < 2 ^ 64

/-- All numbers of a file of a snapshot have 64 bits. -/
structure SnapshotNode.Fits (n : SnapshotNode) : Prop where
  node : n.node.Fits
  dependentCount : n.dependentCount < 2 ^ 64
  dependencyCount : n.dependencyCount < 2 ^ 64

/-- All numbers of a snapshot have 64 bits. -/
structure Snapshot.Fits (s : Snapshot) : Prop where
  lastUpdated : s.lastUpdated < 2 ^ 64
  nodes : ∀ n ∈ s.nodes, n.Fits

variable {depth : Nat}

/-- A number of 64 bits can be written. -/
theorem writable_nat {n : Nat} (h : n < 2 ^ 64) : Writable depth (.nat n) :=
  .num ⟨by omega, by omega⟩

/-- An optional value can be written if the value can. -/
theorem writable_ofOption {α : Type} {toJson : α → Json}
    (h : ∀ value, Writable depth (toJson value)) (value : Option α) :
    Writable depth (.ofOption toJson value) := by
  cases value with
  | none => exact .null
  | some value => exact h value

/-- A list can be written if its items can. -/
theorem writable_map {α : Type} {toJson : α → Json} {values : List α}
    (h : ∀ value ∈ values, Writable depth (toJson value)) :
    Writable (depth + 1) (.arr (values.map toJson)) :=
  .arr (List.forall_mem_map.2 h)

/-- An import can be written. -/
theorem writable_importEdge {e : ImportEdge} (h : e.line < 2 ^ 64) :
    Writable (depth + 2) e.toJson := by
  have htarget : Writable (depth + 1) (.ofOption pathJson e.target) :=
    writable_ofOption (fun _ => .str _) _
  have hsymbols : Writable (depth + 1) (textsJson e.symbols) :=
    writable_map fun symbol _ => .str symbol
  refine .obj ?_
  simp [pathJson, Writable.str, Writable.bool, htarget, hsymbols, writable_nat h]

/-- An export can be written. -/
theorem writable_export {e : Statement.Export} (h : e.line < 2 ^ 64) :
    Writable (depth + 2) (exportJson e) := by
  have hsource : Writable (depth + 1) (.ofOption .str e.source) :=
    writable_ofOption (fun _ => .str _) _
  refine .obj ?_
  simp [Writable.str, Writable.bool, hsource, writable_nat h]

/-- A node that fits can be written. -/
theorem SnapshotNode.Fits.writable {n : SnapshotNode} (h : n.Fits) :
    Writable (depth + 4) n.toJson := by
  have himports : Writable (depth + 3) (.arr (n.node.imports.map (·.toJson))) :=
    writable_map fun e he => writable_importEdge (h.node.imports e he)
  have hexports : Writable (depth + 3) (.arr (n.node.exports.map exportJson)) :=
    writable_map fun e he => writable_export (h.node.exports e he)
  refine .obj ?_
  simp [FileNode.jsonFields, pathJson, Writable.str, himports, hexports,
    writable_nat h.node.lastModified, writable_nat h.node.size, writable_nat h.node.lineCount,
    writable_nat h.dependentCount, writable_nat h.dependencyCount]

/-- A node is read back. -/
theorem snapshotNode?_toJson {n : SnapshotNode} (h : n.Fits) :
    snapshotNode? n.toJson.tree = some n := by
  -- Unlike the other records, a file is first read as a whole: all its parts must have a value, at
  -- this depth.
  have hwritable : Writable 4 n.toJson := h.writable
  have hvalue : n.toJson.tree.value? (depthLimit - 2) = some n.toJson :=
    hwritable.value?_tree (by decide)
  have himports : (Json.arr (n.node.imports.map (·.toJson))).tree.list? importEdge?
      = some n.node.imports :=
    list?_arr fun e _ => importEdge?_toJson e
  have hexports : (Json.arr (n.node.exports.map exportJson)).tree.list? export?
      = some n.node.exports :=
    list?_arr fun e _ => export?_exportJson e
  rw [snapshotNode?, hvalue, SnapshotNode.toJson, fields?_tree (by decide) (by rfl)]
  simp [FileNode.jsonFields, required, himports, hexports]

/-- A snapshot that fits can be written. -/
theorem Snapshot.Fits.writable {s : Snapshot} (h : s.Fits) : Writable 6 s.toJson := by
  have hnodes : Writable 5 (.arr (s.nodes.map (·.toJson))) :=
    writable_map fun n hn => (h.nodes n hn).writable
  have hedges : Writable 5 (.arr (s.edges.map (·.toJson))) :=
    writable_map fun e _ => .obj (by simp [pathJson, Writable.str])
  refine .obj ?_
  simp [pathJson, Writable.str, hnodes, hedges, writable_nat h.lastUpdated]

/-- A snapshot is read back. -/
theorem snapshot?_toJson {s : Snapshot} (h : s.Fits) : snapshot? s.toJson.tree = some s := by
  have hnodes : (Json.arr (s.nodes.map (·.toJson))).tree.list? snapshotNode? = some s.nodes :=
    list?_arr fun n hn => snapshotNode?_toJson (h.nodes n hn)
  have hedges : (Json.arr (s.edges.map (·.toJson))).tree.list? snapshotEdge? = some s.edges :=
    list?_arr fun e _ => snapshotEdge?_toJson e
  rw [snapshot?, Snapshot.toJson, record?_tree (by decide) (by rfl)]
  simp [required, hnodes, hedges]

/-! ### The text of a snapshot -/

/-- **A rendered snapshot is read back**, if it has the version that can be read. -/
theorem Snapshot.Fits.read_render {s : Snapshot} (h : s.Fits)
    (hversion : s.version = snapshotVersion) (layout : Layout) :
    Snapshot.read (s.render layout).toList = .ok s := by
  have htree : ((tree? (s.render layout).toList).bind snapshot?) = some s := by
    rw [Snapshot.render, h.writable.tree?_render, Option.bind_some, snapshot?_toJson h]
  rw [Snapshot.read, htree]
  exact if_pos hversion

/-- Loading is reading the content of a file. -/
theorem Snapshot.load_of_read {d : Disk} {file : Path} {content : List Char} {modified : Nat}
    (h : d.read file = .ok ⟨utf8 content, modified⟩) :
    Snapshot.load d file = Snapshot.read content := by
  rw [Snapshot.load, h]
  simp [Except.toOption, decode?_utf8]

/-- **The picture of a graph survives its text.** It is read back from the text in either layout,
    and so it is from every file that holds this text. -/
theorem read_render_snapshot {g : Graph} {lastUpdated : Nat} (h : (g.snapshot lastUpdated).Fits)
    (layout : Layout) :
    Snapshot.read ((g.snapshot lastUpdated).render layout).toList = .ok (g.snapshot lastUpdated) ∧
    ∀ (d : Disk) (file : Path) (modified : Nat),
      d.read file = .ok ⟨utf8 ((g.snapshot lastUpdated).render layout).toList, modified⟩ →
      Snapshot.load d file = .ok (g.snapshot lastUpdated) := by
  have hread := h.read_render rfl layout
  refine ⟨hread, fun d file modified hfile => ?_⟩
  rw [Snapshot.load_of_read hfile, hread]

namespace Sample

/-- The largest number of 64 bits. -/
def largest : Nat :=
  2 ^ 64 - 1

/-- A file whose texts hold quotation marks, backslashes, control characters and a character beyond
    the basic plane. -/
def odd : FileNode where
  path := Path.ofString "/a\"b\\c\n\x01.ts"
  relativePath := Path.ofString "\x7f\ue000😀.ts"
  imports := [{
    source := Path.ofString "/a\"b\\c\n\x01.ts"
    target := none
    specifier := "./\t\x1f"
    symbols := ["\x00", "default"]
    isTypeOnly := true
    isDynamic := false
    line := largest }]
  exports :=
    [{ name := "\r", kind := .namespaceDecl, line := 1, isReexport := true, source := some "/" }]
  lastModified := largest
  hash := ""
  size := 0
  lineCount := 10

/-- The graph of the one odd file. -/
def oddGraph : Graph :=
  Graph.ofNodes (Path.ofString "/") [odd]

/-- A disk with one file. -/
def holding (bytes : List UInt8) : Disk :=
  ⟨.directory [("graph.json", .file ⟨bytes, 0⟩)], []⟩

/-- Its snapshot fits, with the largest time there is. -/
theorem fits_oddGraph : (oddGraph.snapshot largest).Fits where
  lastUpdated := by decide
  nodes := by
    have hnodes : (oddGraph.snapshot largest).nodes = [⟨odd, 0, 0⟩] := by decide
    rw [hnodes, List.forall_mem_singleton]
    exact ⟨⟨by decide, by decide, by decide, by decide, by decide⟩, by decide, by decide⟩

/-- The picture of the odd file is read back from its text, and from a file with the indented
    text. -/
theorem read_render_snapshot_odd :
    (oddGraph.snapshot largest).Fits ∧
    Snapshot.read ((oddGraph.snapshot largest).render .compact).toList
      = .ok (oddGraph.snapshot largest) ∧
    Snapshot.load (holding (utf8 ((oddGraph.snapshot largest).render .indented).toList))
      (Path.ofString "/graph.json") = .ok (oddGraph.snapshot largest) :=
  ⟨fits_oddGraph, (read_render_snapshot fits_oddGraph .compact).1,
    (read_render_snapshot fits_oddGraph .indented).2 _ _ 0 rfl⟩

end Sample

end Graph

end BlastRadius
