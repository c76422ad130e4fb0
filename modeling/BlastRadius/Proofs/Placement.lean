import BlastRadius.Project.Analysis
import BlastRadius.Proofs.FirstExport
import BlastRadius.Proofs.Grounded

namespace BlastRadius

/-!
# Where statements stand

Three forms of imports are looked for in a text, each on its own. The first character behind
`import` and blanks belongs to one of them only, so no `import` is read twice. The line of a
statement is found by halving the table of line starts, and is the number of line breaks before it,
plus one.

* `apart_importForms` — at most one form reads an import anywhere.
* `pairwise_imports` — the imports of a text, from left to right.
* `statements_placed` — the offsets and lines of the statements of a file.
-/

open Source Text Text.Reading

namespace Statement

/-- The characters that what is bound can begin with. -/
def startsBinding (c : Char) : Bool :=
  isNameStart c || c == '*' || c == '\x7b'

/-- What stands behind `import` and blanks where something is bound. -/
def bindingBehind : Reading ImportHead := do
  let marker ← Reading.optional (do text "type"; blanks1)
  let main ← Reading.optional defaultBinding
  let whole ← Reading.optional moduleBinding
  let named ← Reading.optional namedBindings
  text "from"
  blanks
  let opening ← quote ['"', '\'']
  return {
    symbols := (main.toList ++ whole.toList).map (fun binding => String.ofList binding.chars)
      ++ (named.map importedNames).getD []
    isTypeOnly := marker.isSome
    opening }

/-- Bindings begin with a name, a star or a brace. -/
theorem starts_bindingBehind : Starts bindingBehind startsBinding := by
  have hmarker : Starts (text "type" >>= fun _ => blanks1) startsBinding :=
    (starts_text "type" rfl).bind _
  have hmain : Starts defaultBinding startsBinding :=
    (starts_name.mono fun c hc => by simp [startsBinding, hc]).bind _
  have hwhole : Starts moduleBinding startsBinding := (starts_text "*" rfl).bind _
  have hnamed : Starts namedBindings startsBinding := ((starts_text "\x7b" rfl).bind _).bind _
  -- Each part may be missing, and the word `from` at the end begins as a name does.
  exact hmarker.optional_bind (hmain.optional_bind (hwhole.optional_bind (hnamed.optional_bind
    ((starts_text "from" rfl).bind _))))

/-- An import with bindings is its word, blanks and the bindings. -/
theorem bindingImport_eq :
    bindingImport = (text "import" >>= fun _ => blanks1 >>= fun _ => bindingBehind) := rfl

/-- Behind `import` and blanks the three forms begin with different characters. -/
theorem apart_importForms : [bindingImport, bareImport, dynamicImport].Pairwise fun form other =>
    ∀ here, form here = [] ∨ other here = [] := by
  -- The first character behind the blanks tells the three forms apart.
  have hquote : ∀ c, ['"', '\''].contains c = true →
      startsBinding c = false ∧ (c == '(') = false := by
    intro c hc
    rcases List.mem_cons.1 (List.contains_iff_mem.1 hc) with rfl | hc
    · exact ⟨rfl, rfl⟩
    · rw [List.mem_singleton.1 hc]
      exact ⟨rfl, rfl⟩
  have hparenthesis : ∀ c, (c == '(') = true → startsBinding c = false := by
    intro c hc
    rw [beq_iff_eq.1 hc]
    rfl
  refine .cons (List.forall_mem_cons.2 ⟨fun here => ?_, List.forall_mem_singleton.2 fun here => ?_⟩)
    (List.pairwise_pair.2 fun here => ?_)
  · rw [bindingImport_eq]
    exact (eq_nil_or_eq_nil gap_blanks gap_blanks1 ((starts_quote _).bind _) starts_bindingBehind
      (fun c hc => (hquote c hc).1) here).symm
  · rw [bindingImport_eq]
    exact (eq_nil_or_eq_nil gap_blanks gap_blanks1 ((starts_text "(" rfl).bind _)
      starts_bindingBehind hparenthesis here).symm
  · exact eq_nil_or_eq_nil gap_blanks gap_blanks ((starts_quote _).bind _)
      ((starts_text "(" rfl).bind _) (fun c hc => (hquote c hc).2) here

variable {masked source : List Char}

/-- The imports of one form are found from the front on. -/
theorem pairwise_importsOf (form : Reading ImportHead) (isDynamic : Bool) :
    (importsOf form isDynamic masked source).Pairwise fun i j => i.offset < j.offset := by
  refine pairwise_filterMap_atWordStarts fun x i hmake => ?_
  obtain ⟨specifier, -, hi⟩ := Option.bind_eq_some_iff.1 hmake
  split at hi
  · cases hi
  · rw [← Option.some.inj hi]

/-- Two forms that exclude each other find no import at the same offset. -/
theorem offset_ne_of_mem_importsOf {form other : Reading ImportHead} {isDynamic isDynamic' : Bool}
    {i j : Import} (hforms : ∀ here, form here = [] ∨ other here = [])
    (hi : i ∈ importsOf form isDynamic masked source)
    (hj : j ∈ importsOf other isDynamic' masked source) : i.offset ≠ j.offset := by
  obtain ⟨here, head, _, hfound, -, hoffset, -⟩ := mem_importsOf hi
  obtain ⟨there, head', _, hfound', -, hoffset', -⟩ := mem_importsOf hj
  obtain ⟨hhere, rest, hread⟩ := mem_atWordStarts hfound
  obtain ⟨hthere, rest', hread'⟩ := mem_atWordStarts hfound'
  intro heq
  obtain rfl : here = there := offsetOf_inj hhere hthere (hoffset.symm.trans (heq.trans hoffset'))
  rcases hforms here with hnone | hnone
  · exact List.not_mem_nil (hnone ▸ hread)
  · exact List.not_mem_nil (hnone ▸ hread')

/-- All imports come in the order of their offsets. -/
theorem pairwise_imports (masked source : List Char) :
    (imports masked source).Pairwise fun i j => i.offset < j.offset := by
  have hne : ∀ form isDynamic,
      (importsOf form isDynamic masked source).Pairwise fun i j => i.offset ≠ j.offset :=
    fun form isDynamic => (pairwise_importsOf form isDynamic).imp Nat.ne_of_lt
  have hforms := apart_importForms
  simp only [List.pairwise_cons, List.forall_mem_cons] at hforms
  obtain ⟨⟨hbare, hdynamic, -⟩, ⟨hlast, -⟩, -⟩ := hforms
  -- No two forms are read at the same place, so no two imports have the same offset.
  have hdistinct : (importsOf bindingImport false masked source
      ++ importsOf bareImport false masked source
      ++ importsOf dynamicImport true masked source).Pairwise fun i j => i.offset ≠ j.offset := by
    refine List.pairwise_append.2
      ⟨List.pairwise_append.2 ⟨hne _ _, hne _ _, fun i hi j hj => ?_⟩, hne _ _, fun i hi j hj => ?_⟩
    · exact offset_ne_of_mem_importsOf hbare hi hj
    · rcases List.mem_append.1 hi with hi | hi
      · exact offset_ne_of_mem_importsOf hdynamic hi hj
      · exact offset_ne_of_mem_importsOf hlast hi hj
  have hsorted :
      (imports masked source).Pairwise fun i j => decide (i.offset ≤ j.offset) = true := by
    refine List.pairwise_mergeSort (fun i j k hij hjk => ?_) (fun i j => ?_) _
    · simp only [decide_eq_true_eq] at *
      omega
    · simp only [Bool.or_eq_true, decide_eq_true_eq]
      omega
  have hboth := hsorted.and ((List.mergeSort_perm _ _).symm.pairwise hdistinct fun h => h.symm)
  refine hboth.imp fun {i j} h => ?_
  exact Nat.lt_of_le_of_ne (of_decide_eq_true h.1) h.2

end Statement

namespace Project

open BlastRadius.Graph Statement

/-- **The statements of a file are placed.** At no place more than one form of imports reads
    anything, and the offsets of the imports of a file increase strictly. The line of an import, and
    that of an export, is one more than the number of line breaks in the text before its offset; it
    lies between one and the number of lines; and the lines of imports do not decrease. -/
theorem statements_placed (root : Path) (context : Resolve.Context) (path : Path)
    (content : List Char) (lastModified : Nat) (size : Option Nat) :
    let masked := mask .literals content
    let node := analyzeText root context path content lastModified size
    ([bindingImport, bareImport, dynamicImport].Pairwise fun form other => ∀ here, form here = [] ∨
      other here = []) ∧
    (imports masked content).Pairwise (fun i j => i.offset < j.offset) ∧
    List.Forall₂ (fun (edge : ImportEdge) (i : Import) => edge.specifier = i.specifier ∧
      edge.line = 1 + ((utf8 content).take i.offset).count newline) node.imports
        (imports masked content) ∧
    (∀ e ∈ node.exports, ∃ spot, FirstOfName masked content spot e ∧
      e.line = 1 + ((utf8 content).take spot.offset).count newline) ∧
    (∀ line ∈ node.imports.map (·.line) ++ node.exports.map (·.line), 1 ≤ line ∧
      line ≤ node.lineCount) ∧
    (node.imports.map (·.line)).Pairwise (· ≤ ·) := by
  intro masked node
  -- Every export of the file is the first of its name.
  have hexports : ∀ e ∈ node.exports, ∃ spot, FirstOfName masked content spot e ∧
      e.line = lineOf content spot.offset := by
    intro e he
    obtain ⟨row, hrow, hfirst, -⟩ := exists_row_exports masked content
    obtain ⟨x, hx, rfl⟩ := List.mem_map.1 (hrow ▸ he : e ∈ row.map Prod.snd)
    exact ⟨x.1, (hfirst x).1 hx, ((hfirst x).1 hx).occurs.line_eq⟩
  have hbounds : ∀ offset, 1 ≤ lineOf content offset ∧ lineOf content offset ≤ node.lineCount :=
    fun offset => ⟨one_le_lineOf content offset, lineOf_le_lineCount content offset⟩
  refine ⟨apart_importForms, pairwise_imports masked content, ?_, ?_, ?_, ?_⟩
  · refine List.forall₂_map_left_iff.2 (List.forall₂_same.2 fun i _ => ⟨rfl, ?_⟩)
    exact lineOf_eq content i.offset
  · intro e he
    obtain ⟨spot, hfirst, hline⟩ := hexports e he
    exact ⟨spot, hfirst, hline.trans (lineOf_eq content spot.offset)⟩
  · intro line hline
    rcases List.mem_append.1 hline with hline | hline
    · obtain ⟨edge, hedge, rfl⟩ := List.mem_map.1 hline
      obtain ⟨i, -, rfl⟩ := List.mem_map.1 hedge
      exact hbounds i.offset
    · obtain ⟨e, he, rfl⟩ := List.mem_map.1 hline
      obtain ⟨spot, -, heq⟩ := hexports e he
      rw [heq]
      exact hbounds spot.offset
  · refine List.pairwise_map.2
      (List.pairwise_map.2 ((pairwise_imports masked content).imp fun {i j} hlt => ?_))
    exact lineOf_mono content (Nat.le_of_lt hlt)

namespace Sample

/-- A file with a comment inside an import and an export on the next line. -/
def commentedNode : FileNode :=
  analyzeText (Path.ofString "/p") ⟨⟨Path.ofString "/p", []⟩, PathSet.ofList []⟩
    (Path.ofString "/p/a.ts") Statement.Sample.commented 0 none

/-- The one export of the sample is on its second line. -/
theorem exports_commentedNode :
    commentedNode.exports = [⟨"*", .unknown, 2, true, some "export \\\"c"⟩] := by
  change exports (mask .literals Statement.Sample.commented) Statement.Sample.commented = _
  rw [exports, Statement.Sample.foundExports_commented]
  simp [firstOfEachName]

/-- The export of that file stands on its second line, which is one of its lines. -/
theorem statements_placed_commented :
    (⟨"*", .unknown, 2, true, some "export \\\"c"⟩ ∈ commentedNode.exports ∧
      ∃ spot, FirstOfName (mask .literals Statement.Sample.commented)
        Statement.Sample.commented spot
          ⟨"*", .unknown, 2, true, some "export \\\"c"⟩ ∧
        2 = 1 + ((utf8 Statement.Sample.commented).take spot.offset).count newline) ∧
    2 ∈ commentedNode.imports.map (·.line) ++ commentedNode.exports.map (·.line) ∧
    1 ≤ 2 ∧ 2 ≤ commentedNode.lineCount := by
  obtain ⟨-, -, -, hexports, hbounds, -⟩ := statements_placed (Path.ofString "/p")
    ⟨⟨Path.ofString "/p", []⟩, PathSet.ofList []⟩ (Path.ofString "/p/a.ts")
      Statement.Sample.commented 0 none
  have hexport : ⟨"*", .unknown, 2, true, some "export \\\"c"⟩ ∈ commentedNode.exports := by
    rw [exports_commentedNode]
    exact List.mem_singleton_self _
  have hline : 2 ∈ commentedNode.imports.map (·.line) ++ commentedNode.exports.map (·.line) := by
    rw [exports_commentedNode]
    exact List.mem_append_right _ (List.mem_singleton_self 2)
  exact ⟨⟨hexport, hexports _ hexport⟩, hline, hbounds 2 hline⟩

end Sample

end Project

end BlastRadius
