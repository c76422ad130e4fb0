import BlastRadius.Project.Analysis
import BlastRadius.Proofs.Extension
import BlastRadius.Resolve.Fingerprint
import Mathlib.Data.List.Forall2
import Mathlib.Data.List.Sort

namespace BlastRadius

/-!
# What an analysis is determined by

A fingerprint stands for the known files and the alias table, with all paths taken by their
components. An analysis looks at more than that: at the root of the project, and at how the targets
of aliases end.

* `Resolve.Context.Alike` — contexts that agree in what goes into a fingerprint;
  `Alike.fingerprint_eq`.
* `Resolve.Context.Alike.resolve?` — if also the targets of their aliases end alike, all specifiers
  are resolved alike.
* `Project.analysis_determined` — then all files are analysed alike, under one root.
* `Project.Sample.analysis_not_determined` — neither of the two can be left out.
-/

open BlastRadius.Path

namespace Resolve

/-! ### Contexts with one fingerprint -/

/-- Aliases for one pattern, with targets that are related one by one. -/
structure Alias.Alike (R : Path → Path → Prop) (a b : Alias) : Prop where
  pattern : a.pattern = b.pattern
  targets : List.Forall₂ R a.targets b.targets

/-- Contexts that know the same files from the same base, and whose aliases are alike one by one.
    What goes into a fingerprint is the same for both if the targets are related by being the same
    paths. -/
structure Context.Alike (R : Path → Path → Prop) (c d : Context) : Prop where
  known : ∀ p, c.known.contains p = d.known.contains p
  baseUrl : c.aliases.baseUrl.Same d.aliases.baseUrl
  entries : List.Forall₂ (Alias.Alike R) c.aliases.entries d.aliases.entries

/-- What targets have in common can be weakened. -/
theorem Context.Alike.mono {R S : Path → Path → Prop} {c d : Context} (h : c.Alike R d)
    (hRS : ∀ p q, R p q → S p q) : c.Alike S d :=
  ⟨h.known, h.baseUrl, h.entries.imp fun _ _ halike => ⟨halike.pattern, halike.targets.imp hRS⟩⟩

/-- The fingerprint of files that are in order. -/
theorem fingerprint_of_ordered {files : List Path}
    (h : files.Pairwise fun a b => precedes a b = true) (aliases : AliasTable) :
    (fingerprint files aliases).bytes =
      counted Path.imprint files ++ aliases.baseUrl.imprint
        ++ counted Alias.bytes aliases.entries := by
  rw [fingerprint, List.mergeSort_of_pairwise h]

/-- Lists that agree item by item have the same bytes. -/
theorem counted_congr {α : Type} {R : α → α → Prop} {bytes : α → List UInt8} {xs ys : List α}
    (h : List.Forall₂ R xs ys) (hbytes : ∀ x y, R x y → bytes x = bytes y) :
    counted bytes xs = counted bytes ys := by
  have hmap : xs.map bytes = ys.map bytes := by
    induction h with
    | nil => rfl
    | cons hxy _ ih => rw [List.map_cons, List.map_cons, hbytes _ _ hxy, ih]
  rw [counted, counted, h.length_eq, List.flatMap_def, List.flatMap_def, hmap]

/-- The known files are in the order of their paths. -/
theorem ordered_known (c : Context) : c.known.paths.Pairwise fun a b => precedes a b = true :=
  (PathMap.ordered_paths c.known).imp fun {p q} h => by simpa [h] using precedes_total p q

/-- Sets that contain the same paths list the same paths. -/
theorem same_paths {s t : PathSet} (h : ∀ p, s.contains p = t.contains p) :
    List.Forall₂ Path.Same s.paths t.paths := by
  have hirrefl : Std.Irrefl fun a b : List Component => compare a b = .lt :=
    ⟨fun a h => by simp at h⟩
  have hantisymm : Std.Antisymm fun a b : List Component => compare a b = .lt :=
    ⟨fun a b h h' => by simp [Std.OrientedCmp.gt_of_lt h] at h'⟩
  -- The keys of both sets are strictly ordered lists with the same members.
  have hkeys : s.paths.map (·.components) = t.paths.map (·.components) := by
    have hordered : ∀ u : PathSet,
        (u.paths.map (·.components)).Pairwise fun a b => compare a b = .lt :=
      fun u => PathMap.map_components_paths u ▸ Std.ExtTreeMap.ordered_keys
    have hmem : ∀ u : PathSet, ∀ p : Path, p.components ∈ u.paths.map (·.components) ↔
        u.contains p = true :=
      fun u p => listed_iff_mem_map.symm.trans PathMap.listed_paths
    refine (hordered s).eq_of_mem_iff (hordered t) fun components => ⟨fun hs => ?_, fun ht => ?_⟩
    · obtain ⟨p, hp, rfl⟩ := List.mem_map.1 hs
      rw [hmem, ← h, ← hmem]
      exact hs
    · obtain ⟨p, hp, rfl⟩ := List.mem_map.1 ht
      rw [hmem, h, ← hmem]
      exact ht
  rw [← List.forall₂_eq_eq_eq, List.forall₂_map_left_iff, List.forall₂_map_right_iff] at hkeys
  exact hkeys

/-- Contexts that are alike have the same fingerprint. -/
theorem Context.Alike.fingerprint_eq {c d : Context} (h : c.Alike Path.Same d) :
    c.fingerprint = d.fingerprint := by
  have hknown : counted Path.imprint c.known.paths = counted Path.imprint d.known.paths :=
    counted_congr (same_paths h.known) fun _ _ => imprint_eq_of_same
  have hentries : counted Alias.bytes c.aliases.entries
      = counted Alias.bytes d.aliases.entries := by
    refine counted_congr h.entries fun a b halike => ?_
    rw [Alias.bytes, Alias.bytes, halike.pattern,
      counted_congr halike.targets fun _ _ => imprint_eq_of_same]
  have hbytes : c.fingerprint.bytes = d.fingerprint.bytes := by
    rw [Context.fingerprint, Context.fingerprint, fingerprint_of_ordered (ordered_known c),
      fingerprint_of_ordered (ordered_known d), hknown, hentries, imprint_eq_of_same h.baseUrl]
  exact congrArg Fingerprint.mk hbytes

/-! ### Resolving in alike contexts -/

/-- Searches that agree at every place have results that agree. -/
theorem rel_findSome? {α β : Type} {R : α → α → Prop} {S : β → β → Prop} {find find' : α → Option β}
    {xs ys : List α} (h : List.Forall₂ R xs ys)
    (hfind : ∀ x y, R x y → Option.Rel S (find x) (find' y)) :
    Option.Rel S (xs.findSome? find) (ys.findSome? find') := by
  induction h with
  | nil => exact .none
  | @cons x y xs ys hxy _ ih =>
    rw [List.findSome?_cons, List.findSome?_cons]
    have hfirst := hfind x y hxy
    generalize find x = a, find' y = b at hfirst
    cases hfirst with
    | some hab => exact .some hab
    | none => exact ih

/-- What a script extension stands for are proper extensions. -/
theorem properExtension_of_mem_sourceExtensions {own ext : String}
    (h : ext ∈ sourceExtensions own) : ProperExtension ext := by
  have hproper : ∀ ext ∈ ["ts", "tsx", "mts", "cts"], ProperExtension ext := by decide
  have hall : sourceExtensions own ⊆ ["ts", "tsx", "mts", "cts"] := by
    unfold sourceExtensions
    split <;> simp
  exact hproper ext (hall h)

/-- Two maps of one list agree where their functions do. -/
theorem forall₂_map {α β : Type} {R : β → β → Prop} {f g : α → β} {l : List α}
    (h : ∀ a ∈ l, R (f a) (g a)) : List.Forall₂ R (l.map f) (l.map g) := by
  rw [List.forall₂_map_left_iff, List.forall₂_map_right_iff]
  exact List.forall₂_same.2 h

/-- Bases that end alike have the same candidates. -/
theorem same_candidates {p q : Path} (h : p.EndsAlike q) :
    List.Forall₂ Path.Same (candidates p) (candidates q) := by
  unfold candidates
  refine List.rel_append (List.rel_append (.cons h.same ?_) ?_) ?_
  · rw [← h.extension?_eq]
    cases hown : p.extension? with
    | none => exact .nil
    | some own =>
      exact forall₂_map fun ext hext =>
        h.withExtension hown (properExtension_of_mem_sourceExtensions hext)
  · exact forall₂_map fun ext _ => h.append _
  · exact forall₂_map fun ext _ => same_child h.same _

section
variable {R : Path → Path → Prop} {c d : Context}

/-- Probing bases that end alike finds the same file. -/
theorem Context.Alike.probe? (h : c.Alike R d) {p q : Path} (hpq : p.EndsAlike q) :
    Option.Rel Path.Same (c.probe? p) (d.probe? q) := by
  unfold Context.probe?
  rw [List.find?_eq_findSome?_guard, List.find?_eq_findSome?_guard]
  refine rel_findSome? (same_candidates hpq) fun x y hxy => ?_
  have hknown : c.known.contains x = d.known.contains y := by
    rw [h.known x]
    exact PathMap.contains_congr d.known hxy
  unfold Option.guard
  rw [hknown]
  split
  · exact .some hxy
  · exact .none

/-- Targets that end alike make bases that end alike. -/
theorem endsAlike_aliasPath {p q : Path} (h : p.EndsAlike q) (form : Pattern) (rest : List Char) :
    (aliasPath form rest p).EndsAlike (aliasPath form rest q) := by
  unfold aliasPath
  split
  · exact h
  · split
    · rw [normalize_congr (same_child h.same _)]
      exact .refl _
    · rw [normalize_congr (h.append _)]
      exact .refl _

/-- Following aliases that are alike finds the same file. -/
theorem Context.Alike.followAlias? (h : c.Alike R d) {a b : Alias} (hab : a.Alike Path.EndsAlike b)
    (specifier : List Char) :
    Option.Rel Path.Same (c.followAlias? specifier a) (d.followAlias? specifier b) := by
  have hform : a.form = b.form := by rw [Alias.form, Alias.form, hab.pattern]
  unfold Context.followAlias?
  rw [hform]
  cases Text.stripPrefix? b.form.front specifier with
  | none => exact .none
  | some rest =>
    exact rel_findSome? hab.targets fun p q hpq => h.probe? (endsAlike_aliasPath hpq _ rest)

/-- Contexts with alike aliases resolve every specifier alike. -/
theorem Context.Alike.resolve? (h : c.Alike Path.EndsAlike d) (specifier : String)
    (directory : Path) :
    Option.Rel Path.Same (c.resolve? specifier directory) (d.resolve? specifier directory) := by
  unfold Context.resolve?
  dsimp only
  split
  · exact .none
  · split
    · -- An anchored specifier starts from the same directory on both sides.
      have hprobe := h.probe? (EndsAlike.refl (directory.child specifier).normalize)
      generalize c.probe? _ = x, d.probe? _ = y at hprobe
      cases hprobe with
      | some hxy => exact .some hxy
      | none => exact .some (.refl _)
    · -- The bases may be spelled differently, but their normal forms are equal.
      rw [normalize_congr (same_child h.baseUrl specifier)]
      have hprobe := h.probe? (EndsAlike.refl (d.aliases.baseUrl.child specifier).normalize)
      generalize c.probe? _ = x, d.probe? _ = y at hprobe
      cases hprobe with
      | some hxy => exact .some hxy
      | none => exact rel_findSome? h.entries fun a b hab => h.followAlias? hab _

end

end Resolve

namespace Graph

/-- Imports that agree, but for the spelling of the files that they lead to. -/
structure ImportEdge.Same (e e' : ImportEdge) : Prop where
  rest : e = { e' with target := e.target }
  target : Option.Rel Path.Same e.target e'.target

/-- Analyses that agree, but for the spelling of the files that are imported. -/
structure FileNode.Same (n n' : FileNode) : Prop where
  rest : n = { n' with imports := n.imports }
  imports : List.Forall₂ ImportEdge.Same n.imports n'.imports

end Graph

namespace Project

open BlastRadius.Graph

/-- Only the components of the root count. -/
theorem relativePath_congr {root root' : Path} (h : root.Same root') (path : Path) :
    relativePath root path = relativePath root' path := by
  rw [relativePath, relativePath, relativeTo?, relativeTo?, show root.components = _ from h]

/-- **What an analysis is determined by.** Take two contexts that know the same files from the same
    base, with aliases for the same patterns in the same order, whose targets are the same paths and
    end alike, and two roots that are the same path. Then the fingerprints of the contexts are
    equal, and whatever file is analysed in them, with whatever content, the analyses agree. -/
theorem analysis_determined {root root' : Path} {c d : Resolve.Context} (hroot : root.Same root')
    (hcontext : c.Alike Path.EndsAlike d) (path : Path) (content : List Char) (lastModified : Nat)
    (size : Option Nat) : c.fingerprint = d.fingerprint ∧
    (analyzeText root c path content lastModified size).Same
    (analyzeText root' d path content lastModified size) := by
  refine ⟨(hcontext.mono fun _ _ => EndsAlike.same).fingerprint_eq, ?_, ?_⟩
  · unfold analyzeText
    rw [relativePath_congr hroot]
  · exact Resolve.forall₂_map fun i _ => ⟨rfl, hcontext.resolve? _ _⟩

namespace Sample

/-- An alias for a path without extension. -/
def bare : Resolve.Context :=
  ⟨⟨ofString "/p", [⟨"v", [ofString "/p/u"]⟩]⟩, PathSet.ofList [ofString "/p/u.ts"]⟩

/-- The same alias, with a separator at its end. -/
def slashed : Resolve.Context :=
  ⟨⟨ofString "/p", [⟨"v", [ofString "/p/u/"]⟩]⟩, PathSet.ofList [ofString "/p/u.ts"]⟩

/-- The same alias, with a separator that is written twice. -/
def doubled : Resolve.Context :=
  ⟨⟨ofString "/p/", [⟨"v", [ofString "/p//u"]⟩]⟩, PathSet.ofList [ofString "/p/./u.ts"]⟩

/-- A text with one import. -/
def importing : List Char :=
  "import 'v'".toList

open Statement Source in
/-- The sample has one import. -/
theorem imports_importing :
    imports (mask .literals importing) importing = [⟨0, "v", [], false, false⟩] := by
  have hbinding : importsOf bindingImport false (mask .literals importing) importing = [] := by
    decide +kernel
  have hbare : importsOf bareImport false (mask .literals importing) importing
      = [⟨0, "v", [], false, false⟩] := by
    decide +kernel
  have hdynamic : importsOf dynamicImport true (mask .literals importing) importing = [] := by
    decide +kernel
  simp [imports, hbinding, hbare, hdynamic]

/-- Its one target is what that import is resolved to. -/
theorem targets_importing (root : Path) (c : Resolve.Context) (path : Path) :
    (analyzeText root c path importing 0 none).targets
      = (c.resolve? "v" (path.parent?.getD path)).toList := by
  rw [FileNode.targets, analyzeText, imports_importing, List.map_singleton, List.filterMap_cons,
    edgeOf]
  cases c.resolve? "v" (path.parent?.getD path) with
  | none => rfl
  | some target => rfl

/-- A separator at the end of a target is no difference for the fingerprint. -/
theorem alike_bare_slashed : bare.Alike Path.Same slashed :=
  ⟨fun _ => rfl, .refl _, .cons ⟨rfl, .cons (by decide) .nil⟩ .nil⟩

/-- Further spellings of the same paths. -/
theorem alike_bare_doubled : bare.Alike Path.EndsAlike doubled where
  known p := by
    have hsame : (ofString "/p/u.ts").components = (ofString "/p/./u.ts").components := by decide
    have hiff : p.Listed [ofString "/p/u.ts"] ↔ p.Listed [ofString "/p/./u.ts"] := by
      rw [listed_iff_mem_map, listed_iff_mem_map, List.map_singleton, List.map_singleton, hsame]
    rw [Bool.eq_iff_iff]
    exact (PathSet.contains_ofList _ p).trans (hiff.trans (PathSet.contains_ofList _ p).symm)
  baseUrl := by decide
  entries :=
    .cons ⟨rfl, .cons ⟨by decide, .inr ⟨"/p".toList, "/p/".toList, ['u'], rfl, rfl⟩⟩ .nil⟩ .nil

/-- The same alias in two spellings that end alike, a base with a separator at its end, and a root
    of another spelling. -/
theorem analysis_determined_doubled :
    bare.Alike Path.EndsAlike doubled ∧ bare.fingerprint = doubled.fingerprint ∧
    (analyzeText (ofString "/p") bare (ofString "/p/a.ts") importing 0 none).Same
      (analyzeText (ofString "/p/.") doubled (ofString "/p/a.ts") importing 0 none) :=
  ⟨alike_bare_doubled, analysis_determined (by decide) alike_bare_doubled _ _ _ _⟩

/-- **Neither can be left out.** With a separator at the end of a target the fingerprint is the
    same, and the import leads nowhere. With another root even the context is the same, and the path
    as seen from the root is not. -/
theorem analysis_not_determined :
    (bare.Alike Path.Same slashed ∧ bare.fingerprint = slashed.fingerprint ∧
      (analyzeText (ofString "/p") bare (ofString "/p/a.ts") importing 0 none).targets
        = [ofString "/p/u.ts"] ∧
      (analyzeText (ofString "/p") slashed (ofString "/p/a.ts") importing 0 none).targets = []) ∧
    (analyzeText (ofString "/p") bare (ofString "/p/q/a.ts") [] 0 none).relativePath
      = ofString "q/a.ts" ∧
    (analyzeText (ofString "/p/q") bare (ofString "/p/q/a.ts") [] 0 none).relativePath
      = ofString "a.ts" := by
  refine ⟨⟨alike_bare_slashed, alike_bare_slashed.fingerprint_eq, ?_, ?_⟩, ?_, ?_⟩
  · have hresolve : bare.resolve? "v" (ofString "/p") = some (ofString "/p/u.ts") := by
      decide +kernel
    rw [targets_importing]
    exact congrArg Option.toList hresolve
  · have hresolve : slashed.resolve? "v" (ofString "/p") = none := by decide +kernel
    rw [targets_importing]
    exact congrArg Option.toList hresolve
  · decide +kernel
  · decide +kernel

end Sample

end Project

end BlastRadius
