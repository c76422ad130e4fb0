import BlastRadius.Proofs.ExportLines
import BlastRadius.Proofs.Places

namespace BlastRadius.Statement

/-!
# Where exports are found

Four forms of exports are looked for in a text, each on its own. An export has a spot in the order
of all that they find: by offset, then by rank, then by its position in a list. No two exports have
the same spot, since what stands behind `export` and a `type` marker belongs to one form only.

* `Spot`, `Spot.Before` — a place in the order of exports.
* `Occurs` — the exports that the forms find, and where.
* `unmarked` — the text behind a `type` marker, which tells the forms apart.
* `spotted` — all that is found, with its spots.
* `pairwise_spotted` — among what is found, what has the same offset and rank stands in the order of
  a list.
-/

open Text Text.Reading Source

/-- A place in the order of exports. -/
structure Spot where
  /-- The offset of the statement. -/
  offset : Nat
  /-- A default export that may declare nothing ranks behind the rest. -/
  rank : Nat
  /-- The position in a list of names. -/
  item : Nat
deriving DecidableEq

/-- One spot comes before another one. -/
def Spot.Before (a b : Spot) : Prop :=
  a.offset < b.offset ∨ a.offset = b.offset ∧ (a.rank < b.rank ∨ a.rank = b.rank ∧ a.item < b.item)

namespace Spot

variable {a b c : Spot}

/-- No spot comes before itself. -/
theorem not_before_self (a : Spot) : ¬a.Before a := by
  unfold Before
  omega

/-- The order of spots is transitive. -/
theorem Before.trans (hab : a.Before b) (hbc : b.Before c) : a.Before c := by
  unfold Before at *
  omega

/-- An earlier spot has no larger offset. -/
theorem Before.offset_le (h : a.Before b) : a.offset ≤ b.offset := by
  unfold Before at h
  omega

end Spot

/-- An export that one of the forms finds, with its spot: an item of a list, a whole module, a
    declaration that has a name, or a default export. What is passed on from another module has a
    literal as its source. -/
inductive Occurs (masked source : List Char) : Spot → Export → Prop where
  | listed {here body : List Char} {opening origin : Option (List Char)} {item : Nat}
      {name : String} (found : (here, body, opening) ∈ exportList.atWordStarts masked)
      (closed : origin = opening.bind fun opening =>
        literalBody? masked source (offsetOf masked opening))
      (named : (exportedNames body)[item]? = some name) :
      Occurs masked source ⟨offsetOf masked here, 0, item⟩
        ⟨name, .unknown, lineOf source (offsetOf masked here), origin.isSome,
          origin.map String.ofList⟩
  | passedOn {here opening origin : List Char}
      (found : (here, opening) ∈ exportAll.atWordStarts masked)
      (closed : literalBody? masked source (offsetOf masked opening) = some origin) :
      Occurs masked source ⟨offsetOf masked here, 0, 0⟩
        ⟨"*", .unknown, lineOf source (offsetOf masked here), true, some (String.ofList origin)⟩
  | declared {here : List Char} {d : Declaration} {name : String}
      (found : (here, d) ∈ exportDeclaration.atWordStarts masked)
      (named : d.exportedName? = some name) : Occurs masked source ⟨offsetOf masked here, 0, 0⟩
        ⟨name, if d.isAmbient then .unknown else d.kind,
          lineOf source (offsetOf masked here), false, none⟩
  | defaulted {here : List Char} (found : (here, ()) ∈ exportDefault.atWordStarts masked) :
      Occurs masked source ⟨offsetOf masked here, 1, 0⟩
        ⟨"default", .unknown, lineOf source (offsetOf masked here), false, none⟩

/-- An export is on the line of its statement. -/
theorem Occurs.line_eq {masked source : List Char} {spot : Spot} {e : Export}
    (h : Occurs masked source spot e) : e.line = lineOf source spot.offset := by
  cases h <;> rfl

/-- An export is passed on exactly where it has a source. -/
theorem Occurs.isReexport_eq {masked source : List Char} {spot : Spot} {e : Export}
    (h : Occurs masked source spot e) : e.isReexport = e.source.isSome := by
  cases h with
  | listed _ _ _ => exact Option.isSome_map.symm
  | passedOn _ _ => rfl
  | declared _ _ => rfl
  | defaulted _ => rfl

/-! ### What stands behind `export` -/

/-- The text without a `type` marker in front. -/
def unmarked (u : List Char) : List Char :=
  ((text "type" >>= fun _ => blanks1).first? u).elim u Prod.snd

/-- The text behind `export`, the blanks that follow and a `type` marker. -/
def behindExport (here : List Char) : List Char :=
  unmarked ((here.drop "export".toList.length).dropWhile isBlank)

section
variable {α : Type} {p : Reading α} {accepts : Char → Bool} {u v t here rest : List Char}
  {d : Declaration}
  {name : String}

/-- A text is read with a type marker, or it has none. -/
theorem unmarked_cases (u : List Char) :
    ((text "type" >>= fun _ => blanks1) u = [] ∧ unmarked u = u) ∨
      ∃ t, u = "type".toList ++ t ∧
        (text "type" >>= fun _ => blanks1) u = [((), t.dropWhile isBlank)] ∧
        unmarked u = t.dropWhile isBlank := by
  have hsame : (text "type" >>= fun _ => blanks1) u = [] → unmarked u = u := by
    intro hnone
    rw [unmarked, first?, hnone]
    rfl
  -- The marker needs its word and a blank behind it.
  by_cases hprefix : "type".toList <+: u
  · obtain ⟨t, rfl⟩ := hprefix
    have hread := bind_eq_of_singleton (f := fun _ => blanks1) (text_append "type" t)
    rcases blanks1_eq t with ht | ht
    · exact .inl ⟨hread.trans ht, hsame (hread.trans ht)⟩
    · refine .inr ⟨t, rfl, hread.trans ht, ?_⟩
      rw [unmarked, first?, hread.trans ht]
      rfl
  · have hnone := led_text_bind "type" (fun _ => blanks1) u hprefix
    exact .inl ⟨hnone, hsame hnone⟩

/-- Where a marker is read, it may also be left for what follows. -/
theorem typeMarker_of_marked (h : (text "type" >>= fun _ => blanks1) u = [((), v)]) :
    typeMarker u = [((), v), ((), u)] := by
  rw [typeMarker, bind_apply, Reading.optional, h]
  rfl

/-- What cannot begin with the letter of a marker is read behind it. -/
theorem typeMarker_bind (h : Starts p accepts) (ht : accepts 't' = false) (u : List Char) :
    (typeMarker >>= fun _ => p) u = p (unmarked u) := by
  rcases unmarked_cases u with ⟨hnone, hsame⟩ | ⟨t, rfl, hread, hbehind⟩
  · rw [bind_eq_of_singleton (typeMarker_eq hnone), hsame]
  · have hleft : p ("type".toList ++ t) = [] := h _ ht
    rw [bind_apply, typeMarker_of_marked hread, hbehind, List.flatMap_cons, List.flatMap_singleton,
      hleft, List.append_nil]

/-- What is read behind `export` and blanks is read off the text there. -/
theorem mem_behind {f : Unit → Reading α} {a : α}
    (h : (a, rest) ∈ (text "export" >>= fun _ => blanks1 >>= f) here) :
    (a, rest) ∈ f () ((here.drop "export".toList.length).dropWhile isBlank) := by
  obtain ⟨_, t, hword, _⟩ := mem_bind.1 h
  obtain rfl := mem_text.1 hword
  rw [List.drop_left]
  rcases gap_blanks1.bind_eq "export" f t with hnone | hread
  · rw [hnone] at h
    cases h
  · rwa [hread] at h

/-- What stands behind the marker of an export of some form begins with a character of that form. -/
theorem head?_behindExport {a : α} (hp : Starts p accepts) (ht : accepts 't' = false)
    (h : (a, rest) ∈
      (text "export" >>= fun _ => blanks1 >>= fun _ => typeMarker >>= fun _ => p) here) :
    (behindExport here).head?.any accepts = true := by
  have hread := mem_behind h
  rw [typeMarker_bind hp ht] at hread
  exact hp.head? (List.ne_nil_of_mem hread)

/-- A list begins with a brace. -/
theorem starts_listBehind : Starts listBehind (· == '\x7b') :=
  (led_braced.starts rfl).bind _

/-- What is passed on as a whole begins with a star. -/
theorem starts_wholeBehind : Starts wholeBehind (· == '*') :=
  led_wholeBehind.starts rfl

/-! ### Declarations -/

/-- A keyword of a declaration begins as a name does. -/
theorem starts_declarationKeyword : Starts declarationKeyword isNameStart := by
  have hword : ∀ {word : String} (f : Unit → Reading ExportKind),
      word.toList.head?.any isNameStart = true → Starts (text word >>= f) isNameStart :=
    fun f hword => (starts_text _ hword).bind f
  have hkeyword : ∀ {word : String} (f : Unit → Reading ExportKind),
      word.toList.head?.any isNameStart = true → Starts (keyword word >>= f) isNameStart :=
    fun f hword => ((starts_text _ hword).bind _).bind f
  refine starts_oneOf ?_
  simp only [List.forall_mem_cons]
  exact ⟨hword _ rfl, hkeyword _ rfl, hword _ rfl, hkeyword _ rfl, hkeyword _ rfl,
    hkeyword _ rfl, hword _ rfl, hkeyword _ rfl, hkeyword _ rfl, hkeyword _ rfl, hkeyword _ rfl,
    hkeyword _ rfl, hkeyword _ rfl, List.forall_mem_nil _⟩

/-- So does an exported declaration. -/
theorem starts_declarationBehind : Starts declarationBehind isNameStart :=
  ((starts_text "default" rfl).bind _).optional_bind
    (((starts_text "declare" rfl).bind _).optional_bind (starts_declarationKeyword.bind _))

/-- No other keyword begins as `type` does. -/
theorem declarationKeyword_type (t : List Char) :
    declarationKeyword ("type".toList ++ t)
      = (keyword "type" >>= fun _ => pure ExportKind.type) ("type".toList ++ t) := by
  have hword : ∀ {word : String} (f : Unit → Reading ExportKind),
      word.toList.head?.any (· != 't') = true → (text word >>= f) ("type".toList ++ t) = [] :=
    fun f hword => (starts_text _ hword).bind f _ rfl
  have hkeyword : ∀ (word : String) (f : Unit → Reading ExportKind),
      word.toList.head?.any (· != 't') = true → (keyword word >>= f) ("type".toList ++ t) = [] :=
    fun word f hword => ((starts_text word hword).bind _).bind f _ rfl
  have hfunction : functionKeyword ("type".toList ++ t) = [] := hkeyword "function" _ rfl
  rw [declarationKeyword, oneOf]
  simp only [List.flatMap_cons, List.flatMap_nil]
  rw [hword _ rfl, hfunction, hword _ rfl, hkeyword "class" _ rfl, hkeyword "interface" _ rfl,
    hword _ rfl, hkeyword "enum" _ rfl, hkeyword "const" _ rfl, hkeyword "let" _ rfl,
    hkeyword "var" _ rfl, hkeyword "namespace" _ rfl, hkeyword "module" _ rfl]
  simp only [List.nil_append, List.append_nil]

/-- A keyword is read from its own letters. -/
theorem mem_keyword {word : String} {x : Unit} (h : (x, rest) ∈ keyword word u) :
    u = word.toList ++ rest := by
  obtain ⟨_, mid, hword, hend⟩ := mem_bind.1 h
  obtain rfl : rest = mid := by
    unfold wordEnd at hend
    split at hend
    · simpa using hend
    · split at hend
      · cases hend
      · simpa using hend
  exact mem_text.1 hword

/-- A declaration whose keyword is `type` has its name behind that word. -/
theorem head?_of_type (h : (d, rest) ∈ declarationBehind ("type".toList ++ t))
    (hname : d.exportedName? = some name) : (t.dropWhile isBlank).head?.any isNameStart = true := by
  have hmain : (text "default" >>= fun _ => blanks1) ("type".toList ++ t) = [] := rfl
  have hambient : (text "declare" >>= fun _ => blanks1) ("type".toList ++ t) = [] := rfl
  rw [declarationBehind, bind_eq_of_singleton (optional_eq hmain),
    bind_eq_of_singleton (optional_eq hambient)] at h
  obtain ⟨kind, mid, hkind, h⟩ := mem_bind.1 h
  -- The word `type` is read as the keyword, so the name stands behind it.
  rw [declarationKeyword_type] at hkind
  obtain ⟨x, mid, hword, hpure⟩ := mem_bind.1 hkind
  obtain ⟨-, rfl⟩ := mem_pure.1 hpure
  obtain rfl := List.append_cancel_left (mem_keyword hword)
  obtain ⟨_, v, hblanks, h⟩ := mem_bind.1 h
  obtain rfl : v = t.dropWhile isBlank := by simpa [blanks] using hblanks
  obtain ⟨declared, last, hdeclared, hd⟩ := mem_bind.1 h
  obtain ⟨rfl, -⟩ := mem_pure.1 hd
  cases declared with
  | none => cases hname
  | some chars =>
    have hstart : Starts (one isNameStart) isNameStart := by
      intro s hs
      cases s with
      | nil => rfl
      | cons c s => simp_all [one]
    exact (hstart.bind _).head? (List.ne_nil_of_mem (mem_of_some_mem_optional hdeclared))

/-- A declaration that has a name begins with a word, behind the marker too. -/
theorem head?_behindExport_of_declaration (h : (d, rest) ∈ exportDeclaration here)
    (hname : d.exportedName? = some name) : (behindExport here).head?.any isNameStart = true := by
  have hread : (d, rest) ∈ (typeMarker >>= fun _ => declarationBehind) _ := mem_behind h
  rw [behindExport]
  rcases unmarked_cases ((here.drop "export".toList.length).dropWhile isBlank) with
    ⟨hnone, hsame⟩ | ⟨t, heq, hmarked, hbehind⟩
  · rw [bind_eq_of_singleton (typeMarker_eq hnone)] at hread
    rw [hsame]
    exact starts_declarationBehind.head? (List.ne_nil_of_mem hread)
  · -- The word may be the marker or the keyword, and a name follows it either way.
    rw [bind_apply, typeMarker_of_marked hmarked, List.flatMap_cons, List.flatMap_singleton,
      List.mem_append] at hread
    rw [hbehind]
    rcases hread with hread | hread
    · exact starts_declarationBehind.head? (List.ne_nil_of_mem hread)
    · rw [heq] at hread
      exact head?_of_type hread hname

end

/-! ### All that is found -/

/-- A found export, with its spot. -/
def Found.spot (f : Found) (item : Nat) : Spot × Export :=
  (⟨f.offset, f.rank, item⟩, f.item)

/-- An export with its spot, as it was found. -/
def foundAt (x : Spot × Export) : Found :=
  ⟨x.1.offset, x.1.rank, x.2⟩

/-- The names of one export list. -/
def listedAt (masked source : List Char) (list : List Char × List Char × Option (List Char)) :
    List Found :=
  let offset := offsetOf masked list.1
  let origin := list.2.2.bind fun opening => literalBody? masked source (offsetOf masked opening)
  (exportedNames list.2.1).map fun name => {
    offset, rank := 0
    item := {
      name, kind := .unknown, line := lineOf source offset, isReexport := origin.isSome
      source := origin.map String.ofList } }

/-- The names of export lists, with their spots. -/
def spottedLists (masked source : List Char) : List (Spot × Export) :=
  (exportList.atWordStarts masked).flatMap fun list =>
    (listedAt masked source list).zipIdx.map fun fi => fi.1.spot fi.2

/-- What is found outside of lists. -/
def unlisted (masked source : List Char) : List Found :=
  passedOn masked source ++ declared masked source ++ defaulted masked source

/-- All that is found in a masked text, with its spots. -/
def spotted (masked source : List Char) : List (Spot × Export) :=
  spottedLists masked source ++ (unlisted masked source).map fun f => f.spot 0

section
variable (masked source : List Char)

/-- The spots are put to the listed names in their order. -/
theorem map_foundAt_spottedLists :
    (spottedLists masked source).map foundAt = listed masked source := by
  rw [spottedLists, List.map_flatMap]
  refine List.flatMap_congr fun list _ => ?_
  rw [List.map_map]
  exact List.zipIdx_map_fst 0 _

/-- The spots are put to all exports in their order. -/
theorem map_foundAt_spotted : (spotted masked source).map foundAt = foundExports masked source := by
  rw [spotted, List.map_append, map_foundAt_spottedLists, List.map_map]
  have hsame : foundAt ∘ (fun f : Found => f.spot 0) = id := rfl
  rw [hsame, List.map_id, unlisted, foundExports, List.append_assoc, List.append_assoc,
    List.append_assoc]

end

section
variable {masked source : List Char} {f g : Found} {x : Spot × Export}

/-- A listed name has its position in the list for its item. -/
theorem mem_spottedLists :
    x ∈ spottedLists masked source ↔
      ∃ list ∈ exportList.atWordStarts masked, ∃ (item : Nat) (f : Found),
        (listedAt masked source list)[item]? = some f ∧ f.spot item = x := by
  simp only [spottedLists, List.mem_flatMap, List.mem_map, Prod.exists,
    List.mem_zipIdx_iff_getElem?]
  constructor
  · rintro ⟨here, body, opening, hfound, f, item, hf, rfl⟩
    exact ⟨here, body, opening, hfound, item, f, hf, rfl⟩
  · rintro ⟨here, body, opening, hfound, item, f, hf, rfl⟩
    exact ⟨here, body, opening, hfound, f, item, hf, rfl⟩

/-- What is passed on as a whole, said with the places it is read at. -/
theorem mem_passedOn :
    f ∈ passedOn masked source ↔
      ∃ here opening origin, (here, opening) ∈ exportAll.atWordStarts masked ∧
        literalBody? masked source (offsetOf masked opening) = some origin ∧
      f = ⟨offsetOf masked here, 0,
        ⟨"*", .unknown, lineOf source (offsetOf masked here), true,
          some (String.ofList origin)⟩⟩ := by
  simp only [passedOn, List.mem_filterMap, Prod.exists, Option.bind_eq_bind,
    Option.bind_eq_some_iff, Option.pure_def, Option.some.injEq]
  constructor
  · rintro ⟨here, opening, hfound, origin, horigin, rfl⟩
    exact ⟨here, opening, origin, hfound, horigin, rfl⟩
  · rintro ⟨here, opening, origin, hfound, horigin, rfl⟩
    exact ⟨here, opening, hfound, origin, horigin, rfl⟩

/-- The declared exports, said with the places they are read at. -/
theorem mem_declared :
    f ∈ declared masked source ↔ ∃ here d name, (here, d) ∈ exportDeclaration.atWordStarts masked ∧
      d.exportedName? = some name ∧ f = ⟨offsetOf masked here, 0,
        ⟨name, if d.isAmbient then .unknown else d.kind, lineOf source (offsetOf masked here),
          false, none⟩⟩ := by
  simp only [declared, List.mem_filterMap, Prod.exists, Option.bind_eq_bind,
    Option.bind_eq_some_iff, Option.pure_def, Option.some.injEq]
  constructor
  · rintro ⟨here, d, hfound, name, hname, rfl⟩
    exact ⟨here, d, name, hfound, hname, rfl⟩
  · rintro ⟨here, d, name, hfound, hname, rfl⟩
    exact ⟨here, d, hfound, name, hname, rfl⟩

/-- The default exports that declare nothing, said with the places they are read at. -/
theorem mem_defaulted :
    f ∈ defaulted masked source ↔ ∃ here, (here, ()) ∈ exportDefault.atWordStarts masked ∧
      offsetOf masked here ∉ declaredDefaults masked ∧ f = ⟨offsetOf masked here, 1,
        ⟨"default", .unknown, lineOf source (offsetOf masked here), false, none⟩⟩ := by
  simp only [defaulted, List.mem_filterMap, Prod.exists, List.contains_iff_mem]
  constructor
  · rintro ⟨here, ⟨⟩, hfound, hmade⟩
    split at hmade
    · cases hmade
    · next hknown => exact ⟨here, hfound, hknown, (Option.some.inj hmade).symm⟩
  · rintro ⟨here, hfound, hknown, rfl⟩
    exact ⟨here, (), hfound, by rw [if_neg hknown]⟩

/-- All that is found occurs. -/
theorem occurs_of_mem_spotted (h : x ∈ spotted masked source) : Occurs masked source x.1 x.2 := by
  -- One case for each of the four forms.
  rcases List.mem_append.1 h with h | h
  · obtain ⟨list, hfound, item, f, hf, rfl⟩ := mem_spottedLists.1 h
    rw [listedAt, List.getElem?_map] at hf
    obtain ⟨name, hname, rfl⟩ := Option.map_eq_some_iff.1 hf
    exact .listed hfound rfl hname
  · obtain ⟨f, hf, rfl⟩ := List.mem_map.1 h
    rcases List.mem_append.1 hf with hf | hf
    · rcases List.mem_append.1 hf with hf | hf
      · obtain ⟨here, opening, origin, hfound, horigin, rfl⟩ := mem_passedOn.1 hf
        exact .passedOn hfound horigin
      · obtain ⟨here, d, name, hfound, hname, rfl⟩ := mem_declared.1 hf
        exact .declared hfound hname
    · obtain ⟨here, hfound, -, rfl⟩ := mem_defaulted.1 hf
      exact .defaulted hfound

/-- What is passed on has a spot. -/
theorem mem_spotted_of_mem_passedOn (h : f ∈ passedOn masked source) :
    f.spot 0 ∈ spotted masked source :=
  List.mem_append_right _ (List.mem_map_of_mem (List.mem_append_left _ (List.mem_append_left _ h)))

/-- What is declared has a spot. -/
theorem mem_spotted_of_mem_declared (h : f ∈ declared masked source) :
    f.spot 0 ∈ spotted masked source :=
  List.mem_append_right _ (List.mem_map_of_mem (List.mem_append_left _ (List.mem_append_right _ h)))

/-- A default export has a spot. -/
theorem mem_spotted_of_mem_defaulted (h : f ∈ defaulted masked source) :
    f.spot 0 ∈ spotted masked source :=
  List.mem_append_right _ (List.mem_map_of_mem (List.mem_append_right _ h))

/-- What occurs is found, but for a default export that comes behind the one that is declared
    there. -/
theorem Occurs.mem_spotted_or {spot : Spot} {e : Export} (h : Occurs masked source spot e) :
    (spot, e) ∈ spotted masked source ∨
    ∃ y ∈ spotted masked source, y.2.name = e.name ∧ y.1.Before spot := by
  cases h with
  | @listed here body opening origin item name hfound horigin hname =>
    subst horigin
    refine .inl (List.mem_append_left _
      (mem_spottedLists.2 ⟨_, hfound, item, foundAt (⟨_, 0, item⟩, _), ?_, rfl⟩))
    rw [listedAt, List.getElem?_map, hname]
    rfl
  | passedOn hfound horigin =>
    exact .inl (mem_spotted_of_mem_passedOn (mem_passedOn.2 ⟨_, _, _, hfound, horigin, rfl⟩))
  | declared hfound hname =>
    exact .inl (mem_spotted_of_mem_declared (mem_declared.2 ⟨_, _, _, hfound, hname, rfl⟩))
  | @defaulted here hfound =>
    -- A default export that is also read as a declaration is left out for that one.
    by_cases hknown : offsetOf masked here ∈ declaredDefaults masked
    · obtain ⟨⟨there, d⟩, hdeclared, hoffset⟩ := List.mem_filterMap.1 hknown
      dsimp only at hoffset
      split at hoffset
      · next hdefault =>
        refine .inr ⟨_, mem_spotted_of_mem_declared
          (mem_declared.2 ⟨there, d, "default", hdeclared, if_pos hdefault, rfl⟩), rfl, ?_⟩
        exact .inr ⟨Option.some.inj hoffset, .inl Nat.zero_lt_one⟩
      · cases hoffset
    · exact .inl (mem_spotted_of_mem_defaulted (mem_defaulted.2 ⟨here, hfound, hknown, rfl⟩))

/-! ### No two at one spot -/

/-- Found at an `export` behind which a character of some class stands. -/
def Found.Leads (masked : List Char) (accepts : Char → Bool) (f : Found) : Prop :=
  ∃ here, here <:+ masked ∧ f.offset = offsetOf masked here ∧
    (behindExport here).head?.any accepts = true

/-- A list stands behind its `export`, and begins with a brace. -/
theorem leads_of_mem_listed (h : f ∈ listed masked source) :
    f.rank = 0 ∧ f.Leads masked (· == '\x7b') := by
  obtain ⟨⟨here, body, opening⟩, hfound, hf⟩ := List.mem_flatMap.1 h
  obtain ⟨name, -, rfl⟩ := List.mem_map.1 hf
  obtain ⟨hsuffix, rest, hread⟩ := mem_atWordStarts hfound
  exact ⟨rfl, here, hsuffix, rfl, head?_behindExport starts_listBehind rfl hread⟩

/-- What is passed on begins with a star. -/
theorem leads_of_mem_passedOn (h : f ∈ passedOn masked source) :
    f.rank = 0 ∧ f.Leads masked (· == '*') := by
  obtain ⟨here, opening, origin, hfound, -, rfl⟩ := mem_passedOn.1 h
  obtain ⟨hsuffix, rest, hread⟩ := mem_atWordStarts hfound
  exact ⟨rfl, here, hsuffix, rfl, head?_behindExport starts_wholeBehind rfl hread⟩

/-- A declaration begins as a name does. -/
theorem leads_of_mem_declared (h : f ∈ declared masked source) :
    f.rank = 0 ∧ f.Leads masked isNameStart := by
  obtain ⟨here, d, name, hfound, hname, rfl⟩ := mem_declared.1 h
  obtain ⟨hsuffix, rest, hread⟩ := mem_atWordStarts hfound
  exact ⟨rfl, here, hsuffix, rfl, head?_behindExport_of_declaration hread hname⟩

/-- Default exports rank behind the rest. -/
theorem rank_of_mem_defaulted (h : f ∈ defaulted masked source) : f.rank = 1 := by
  obtain ⟨here, -, -, rfl⟩ := mem_defaulted.1 h
  rfl

/-- Not found at the same offset with the same rank. -/
def Found.Apart (f g : Found) : Prop :=
  f.offset = g.offset → f.rank ≠ g.rank

/-- What tells two forms apart: a character that only one of them can begin with. -/
theorem Found.Leads.apart {c : Char} {accepts : Char → Bool} (hf : f.Leads masked (· == c))
    (hg : g.Leads masked accepts) (hc : accepts c = false) : f.Apart g := by
  obtain ⟨here, hhere, hoffset, hhead⟩ := hf
  obtain ⟨there, hthere, hoffset', hhead'⟩ := hg
  intro heq
  obtain rfl : here = there := offsetOf_inj hhere hthere (hoffset.symm.trans (heq.trans hoffset'))
  obtain ⟨d, hd, hsame⟩ := (Option.any_eq_true _ _).1 hhead
  rw [hd, Option.any_some, beq_iff_eq.1 hsame, hc] at hhead'
  cases hhead'

/-- Default exports differ from the rest in rank. -/
theorem apart_of_mem_defaulted (hf : f.rank = 0) (hg : g ∈ defaulted masked source) :
    f.Apart g := by
  intro _
  rw [hf, rank_of_mem_defaulted hg]
  exact Nat.zero_ne_one

/-- Lists differ from all other exports. -/
theorem apart_of_mem_listed (hf : f ∈ listed masked source) (hg : g ∈ unlisted masked source) :
    f.Apart g := by
  obtain ⟨hrank, hlist⟩ := leads_of_mem_listed hf
  rcases List.mem_append.1 hg with hg | hg
  · rcases List.mem_append.1 hg with hg | hg
    · exact hlist.apart (leads_of_mem_passedOn hg).2 rfl
    · exact hlist.apart (leads_of_mem_declared hg).2 rfl
  · exact apart_of_mem_defaulted hrank hg

/-- Exports outside of lists differ in offset or rank. -/
theorem pairwise_unlisted : (unlisted masked source).Pairwise Found.Apart := by
  -- Within one form the offsets increase, between two forms the first character differs.
  have hincreasing : ∀ {l : List Found}, l.Pairwise (fun f g => f.offset < g.offset) →
      l.Pairwise Found.Apart :=
    fun h => h.imp fun hlt heq => absurd heq (Nat.ne_of_lt hlt)
  have hpassedOn : (passedOn masked source).Pairwise Found.Apart := by
    refine hincreasing (pairwise_filterMap_atWordStarts fun x f hmake => ?_)
    obtain ⟨origin, -, hf⟩ := Option.bind_eq_some_iff.1 hmake
    rw [← Option.some.inj hf]
  have hdeclared : (declared masked source).Pairwise Found.Apart := by
    refine hincreasing (pairwise_filterMap_atWordStarts fun x f hmake => ?_)
    obtain ⟨name, -, hf⟩ := Option.bind_eq_some_iff.1 hmake
    rw [← Option.some.inj hf]
  have hdefaulted : (defaulted masked source).Pairwise Found.Apart := by
    refine hincreasing (pairwise_filterMap_atWordStarts fun x f hmake => ?_)
    dsimp only at hmake
    split at hmake
    · cases hmake
    · rw [← Option.some.inj hmake]
  refine List.pairwise_append.2
    ⟨List.pairwise_append.2 ⟨hpassedOn, hdeclared, fun f hf g hg => ?_⟩, hdefaulted,
      fun f hf g hg => ?_⟩
  · exact (leads_of_mem_passedOn hf).2.apart (leads_of_mem_declared hg).2 rfl
  · rcases List.mem_append.1 hf with hf | hf
    · exact apart_of_mem_defaulted (leads_of_mem_passedOn hf).1 hg
    · exact apart_of_mem_defaulted (leads_of_mem_declared hf).1 hg

/-- What has the same offset and rank stands in the order of a list. -/
theorem pairwise_spotted : (spotted masked source).Pairwise fun x y =>
    x.1.offset = y.1.offset → x.1.rank = y.1.rank → x.1.item < y.1.item := by
  refine List.pairwise_append.2
    ⟨List.pairwise_flatMap.2 ⟨fun list _ => ?_, ?_⟩, ?_, fun x hx y hy => ?_⟩
  · -- Within a list the items count up, between two lists the offsets differ.
    have hitems : ((listedAt masked source list).zipIdx.map Prod.snd).Pairwise (· < ·) := by
      rw [List.zipIdx_map_snd]
      exact List.pairwise_lt_range' 1
    exact List.pairwise_map.2 ((List.pairwise_map.1 hitems).imp fun hlt _ _ => hlt)
  · refine (pairwise_offsetOf_atWordStarts exportList masked).imp
      fun {one other} hlt x hx y hy heq => ?_
    have hoffset : ∀ {list x},
        x ∈ (listedAt masked source list).zipIdx.map (fun fi => fi.1.spot fi.2) →
          x.1.offset = offsetOf masked list.1 := by
      intro list x hx
      obtain ⟨⟨f, item⟩, hf, rfl⟩ := List.mem_map.1 hx
      obtain ⟨name, -, rfl⟩ := List.mem_map.1 (List.fst_mem_of_mem_zipIdx hf)
      rfl
    rw [hoffset hx, hoffset hy] at heq
    exact absurd heq (Nat.ne_of_lt hlt)
  · exact List.pairwise_map.2
      (pairwise_unlisted.imp fun hapart heq hrank => absurd hrank (hapart heq))
  · obtain ⟨g, hg, rfl⟩ := List.mem_map.1 hy
    have hlisted : foundAt x ∈ listed masked source := by
      rw [← map_foundAt_spottedLists]
      exact List.mem_map_of_mem hx
    exact fun heq hrank => absurd hrank (apart_of_mem_listed hlisted hg heq)

end

end BlastRadius.Statement
