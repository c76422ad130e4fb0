import BlastRadius.Proofs.ScriptLines

namespace BlastRadius.Statement

/-!
# Scripts of import statements

Import statements are written on lines of their own, and read back: one record for each statement,
in the order of the lines.

* `ImportStatement` — an import statement, and its `layout` on a line.
* `first?_bindingImport` — how the bindings of a statement are read.
* `imports_script` — the imports of a script.
-/

open Text Text.Reading Source

/-! ### Statements -/

/-- What an import may bind behind its default: the whole module, or a list of names. -/
inductive Further where
  | whole (binding : Name)
  | named (items : List Item)
deriving DecidableEq, Repr

/-- The text of further bindings. -/
def Further.chars : Further → List Char
  | .whole binding => "* as ".toList ++ binding.chars
  | .named items => listChars items

/-- The names that further bindings import. -/
def Further.symbols : Further → List String
  | .whole binding => [binding.text]
  | .named items => items.map (·.own.text)

/-- What an import binds: its default, something further, or both. -/
inductive Clause where
  | main (binding : Name)
  | further (more : Further)
  | both (binding : Name) (more : Further)
deriving DecidableEq, Repr

/-- The text of a clause. -/
def Clause.chars : Clause → List Char
  | .main binding => binding.chars
  | .further more => more.chars
  | .both binding more => binding.chars ++ (", ".toList ++ more.chars)

/-- The names that a clause imports, the default binding first. -/
def Clause.symbols : Clause → List String
  | .main binding => [binding.text]
  | .further more => more.symbols
  | .both binding more => binding.text :: more.symbols

/-- What stands in front of `from`. -/
def Clause.front (isType : Bool) (clause : Clause) : List Char :=
  "import ".toList ++ ((if isType then "type ".toList else []) ++ (clause.chars ++ [' ']))

/-- The forms of import statements. -/
inductive ImportForm where
  | binding (isType : Bool) (clause : Clause)
  | bare
  | dynamic
deriving DecidableEq, Repr

namespace ImportForm

/-- What stands in front of the specifier. -/
def front : ImportForm → List Char
  | .binding isType clause => clause.front isType ++ "from ".toList
  | .bare => "import ".toList
  | .dynamic => "import(".toList

/-- What stands behind the specifier. -/
def back : ImportForm → List Char
  | .dynamic => [')']
  | _ => []

/-- The names that are imported. -/
def symbols : ImportForm → List String
  | .binding _ clause => clause.symbols
  | _ => []

/-- Whether only types are imported. -/
def isTypeOnly : ImportForm → Bool
  | .binding isType _ => isType
  | _ => false

/-- Whether the import has bindings. -/
def isBinding : ImportForm → Bool
  | .binding _ _ => true
  | _ => false

/-- Whether the import is for its effects only. -/
def isBare : ImportForm → Bool
  | .bare => true
  | _ => false

/-- Whether the import is made at run time. -/
def isDynamic : ImportForm → Bool
  | .dynamic => true
  | _ => false

end ImportForm

/-- An import statement, which may end with a semicolon. The specifier of a dynamic one has no hole
    in it. -/
structure ImportStatement where
  form : ImportForm
  specifier : Quoted
  isClosed : Bool
  noHole : form.isDynamic = true → containsText "$\x7b".toList specifier.text.toList = false
deriving DecidableEq, Repr

/-- Further bindings are made of the characters of clauses. -/
theorem Further.all_isClauseChar (more : Further) : more.chars.all isClauseChar = true := by
  cases more with
  | whole binding => exact all_append_of (by decide) binding.all_isClauseChar
  | named items => exact all_isClauseChar_listChars items

/-- So is a clause. -/
theorem Clause.all_isClauseChar (clause : Clause) : clause.chars.all isClauseChar = true := by
  cases clause with
  | main binding => exact binding.all_isClauseChar
  | further more => exact more.all_isClauseChar
  | both binding more =>
    exact all_append_of binding.all_isClauseChar (all_append_of (by decide) more.all_isClauseChar)

/-- So is everything in front of the word `from`. -/
theorem Clause.all_isClauseChar_front (isType : Bool) (clause : Clause) :
    (clause.front isType).all isClauseChar = true := by
  have himport : "import ".toList.all isClauseChar = true := by decide
  have htype : (if isType then "type ".toList else []).all isClauseChar = true := by
    cases isType <;> decide
  exact all_append_of himport (all_append_of htype (all_append_of clause.all_isClauseChar rfl))

/-- Around its specifier an import is code throughout. -/
theorem ImportForm.all_isCode (form : ImportForm) :
    (form.front ++ form.back).all isCode = true := by
  cases form with
  | binding isType clause =>
    rw [show (binding isType clause).back = [] from rfl, List.append_nil]
    exact all_isCode_of_all_isClauseChar
      (all_append_of (clause.all_isClauseChar_front isType) (by decide))
  | bare => decide
  | dynamic => decide

/-- A statement as it is written. -/
def ImportStatement.layout (s : ImportStatement) : Layout where
  front := s.form.front
  origin? := some s.specifier
  back := s.form.back ++ (if s.isClosed then [';'] else [])
  isCode := by
    rw [← List.append_assoc, List.all_append, s.form.all_isCode]
    split <;> decide

/-- The import that a statement stands for. -/
def ImportStatement.record (place : Place ImportStatement) : Import where
  offset := place.offset
  specifier := place.stated.specifier.text
  symbols := place.stated.form.symbols
  isTypeOnly := place.stated.form.isTypeOnly
  isDynamic := place.stated.form.isDynamic

/-! ### Bindings -/

section
variable {s : List Char}

/-- The binding of a whole module begins with a star. -/
theorem led_moduleBinding : Led moduleBinding "*" :=
  led_text_bind "*" _

/-- Named bindings begin with a brace. -/
theorem led_namedBindings : Led namedBindings "\x7b" :=
  led_braced.bind

/-- A default binding alone. -/
theorem first?_defaultBinding (n : Name) (hs : s.head?.any isBlank = false)
    (hcomma : s.head? ≠ some ',') :
    defaultBinding.first? (n.chars ++ ' ' :: s) = some (⟨n.chars ++ ' ' :: s, ' ' :: s⟩, s) := by
  have hnone : optional (text ",") s = [(none, s)] :=
    optional_eq (text_eq_nil (not_prefix_of_head rfl hcomma))
  exact first?_bind (n.first?_chars rfl) (first?_bind (first?_of_singleton (blanks_space hs))
    (first?_bind (first?_of_singleton hnone)
      (first?_bind (first?_of_singleton (blanks_eq hs)) rfl)))

/-- A default binding with something further behind it. -/
theorem first?_defaultBinding_comma (n : Name) (hs : s.head?.any isBlank = false) :
    defaultBinding.first? (n.chars ++ ',' :: ' ' :: s)
      = some (⟨n.chars ++ ',' :: ' ' :: s, ',' :: ' ' :: s⟩, s) := by
  have hcomma : (optional (text ",")).first? (',' :: ' ' :: s) = some (some (), ' ' :: s) :=
    first?_optional (first?_of_singleton (text_append "," (' ' :: s)))
  exact first?_bind (n.first?_chars rfl) (first?_bind (first?_of_singleton (blanks_eq rfl))
    (first?_bind hcomma (first?_bind (first?_of_singleton (blanks_space hs)) rfl)))

/-- The binding of a whole module is read with the blank behind it. -/
theorem first?_moduleBinding (n : Name) (hs : s.head?.any isBlank = false) :
    moduleBinding.first? ("* as ".toList ++ (n.chars ++ ' ' :: s))
      = some (⟨n.chars ++ ' ' :: s, ' ' :: s⟩, s) := by
  exact first?_bind (first?_of_singleton (text_append "*" _))
    (first?_bind (first?_of_singleton (blanks_space rfl))
      (first?_bind (first?_of_singleton (text_append "as" _))
        (first?_bind (first?_of_singleton (blanks1_space (n.head?_append _)))
          (first?_bind (n.first?_chars rfl)
            (first?_bind (first?_of_singleton (blanks_space hs)) rfl)))))

/-- So are named bindings. -/
theorem first?_namedBindings (items : List Item) (hs : s.head?.any isBlank = false) :
    namedBindings.first? (listChars items ++ ' ' :: s) = some (listBody items, s) :=
  first?_bind (first?_braced items (' ' :: s))
    (first?_bind (first?_of_singleton (blanks_space hs)) rfl)

/-- The piece from a name to what follows it is the name. -/
theorem Name.ofList_piece (n : Name) (rest : List Char) :
    String.ofList (Piece.chars ⟨n.chars ++ rest, rest⟩) = n.text := by
  rw [chars_piece, chars, String.ofList_toList]

/-- The names of the pieces that stand for bindings, and those in the list. -/
theorem Further.first?_bindings (more : Further) (hs : s.head? = some 'f') :
    ∃ whole named mid,
      (optional moduleBinding).first? (more.chars ++ ' ' :: s) = some (whole, mid) ∧
      (optional namedBindings).first? mid = some (named, s) ∧
      whole.toList.map (fun binding => String.ofList binding.chars)
      ++ (named.map importedNames).getD []
        = more.symbols := by
  have hblank : s.head?.any isBlank = false := by rw [hs]; rfl
  cases more with
  | whole n =>
    refine ⟨_, _, _, first?_optional (first?_moduleBinding n hblank),
      led_namedBindings.first?_optional (not_prefix_of_head rfl (by rw [hs]; decide)), ?_⟩
    simp [symbols, n.ofList_piece]
  | named items =>
    refine ⟨_, _, _,
      led_moduleBinding.first?_optional
        (not_prefix_of_head (c := '*') rfl (show some '\x7b' ≠ some '*' by decide)),
      first?_optional (first?_namedBindings items hblank), ?_⟩
    simp [symbols, importedNames_listBody]

/-- The bindings of a clause are read as the names that it imports. -/
theorem Clause.first?_bindings (clause : Clause) (hs : s.head? = some 'f') :
    ∃ main whole named mid mid',
      (optional defaultBinding).first? (clause.chars ++ ' ' :: s) = some (main, mid) ∧
      (optional moduleBinding).first? mid = some (whole, mid') ∧
      (optional namedBindings).first? mid' = some (named, s) ∧
      (main.toList ++ whole.toList).map (fun binding => String.ofList binding.chars)
        ++ (named.map importedNames).getD [] = clause.symbols := by
  have hblank : s.head?.any isBlank = false := by rw [hs]; rfl
  cases clause with
  | main n =>
    refine ⟨_, _, _, _, _, first?_optional (first?_defaultBinding n hblank (by rw [hs]; decide)),
      led_moduleBinding.first?_optional (not_prefix_of_head rfl (by rw [hs]; decide)),
      led_namedBindings.first?_optional (not_prefix_of_head rfl (by rw [hs]; decide)), ?_⟩
    simp [symbols, n.ofList_piece]
  -- Neither a star nor a brace begins a name, so there is no default binding.
  | further more =>
    obtain ⟨whole, named, mid, hwhole, hnamed, hsymbols⟩ := more.first?_bindings hs
    have hnone : defaultBinding (more.chars ++ ' ' :: s) = [] := by
      refine bind_eq_nil (name_eq_nil ?_)
      cases more <;> rfl
    exact ⟨none, whole, named, _, mid, first?_of_singleton (optional_eq hnone), hwhole,
      hnamed, hsymbols⟩
  -- The comma belongs to the default binding.
  | both n more =>
    obtain ⟨whole, named, mid, hwhole, hnamed, hsymbols⟩ := more.first?_bindings hs
    have hmore : (more.chars ++ ' ' :: s).head?.any isBlank = false := by
      cases more <;> rfl
    have hassoc : ∀ a b c d : List Char, (a ++ (b ++ c)) ++ d = a ++ (b ++ (c ++ d)) := by simp
    have hchars : (both n more).chars ++ ' ' :: s
        = n.chars ++ ',' :: ' ' :: (more.chars ++ ' ' :: s) := hassoc _ _ _ _
    rw [hchars]
    refine ⟨_, whole, named, _, mid, first?_optional (first?_defaultBinding_comma n hmore),
      hwhole, hnamed, ?_⟩
    rw [Option.toList_some, List.singleton_append, List.map_cons, List.cons_append, hsymbols,
      n.ofList_piece, symbols]

/-- A name is not taken for the word that marks types. -/
theorem Name.not_marked (n : Name) {rest : List Char}
    (hrest : ∀ c ∈ rest.head?, c ∉ "type".toList) :
    (Reading.text "type" >>= fun _ => blanks1) (n.chars ++ rest) = [] := by
  refine text_bind_eq_nil hrest fun more hmore => blanks1_eq_nil ?_
  cases more with
  | nil =>
    rw [List.append_nil] at hmore
    exact absurd (String.toList_inj.1 hmore) n.notType
  | cons c more => exact n.not_blank c (by rw [hmore]; simp)

/-- A clause does not begin with a type marker. -/
theorem Clause.not_marked (clause : Clause) (s : List Char) :
    (text "type" >>= fun _ => blanks1) (clause.chars ++ ' ' :: s) = [] := by
  -- Only a name could be taken for the marker, and names are not reserved words.
  have hmore : ∀ more : Further,
      (text "type" >>= fun _ => blanks1) (more.chars ++ ' ' :: s) = [] := by
    intro more
    refine led_text_bind "type" _ _ (not_prefix_of_head (c := 't') rfl ?_)
    cases more with
    | whole n => exact show some '*' ≠ some 't' by decide
    | named items => exact show some '\x7b' ≠ some 't' by decide
  cases clause with
  | main n => exact n.not_marked (by simp)
  | further more => exact hmore more
  | both n more =>
    rw [chars, List.append_assoc]
    refine n.not_marked fun c hc => ?_
    rw [← Option.some_inj.1 hc]
    decide

/-- A binding import is read up to its opening quotation mark. -/
theorem first?_bindingImport (isType : Bool) (clause : Clause) (q : Quoted) (s : List Char) :
    bindingImport.first? ((ImportForm.binding isType clause).front ++ q.mark :: s)
      = some (⟨clause.symbols, isType, q.mark :: s⟩, s) := by
  -- The front is bracketed as it is read.
  have htext : (ImportForm.binding isType clause).front ++ q.mark :: s
      = "import".toList ++ ' ' :: ((if isType then "type ".toList else [])
        ++ (clause.chars ++ ' ' :: ("from".toList ++ ' ' :: q.mark :: s))) := by
    have hassoc : ∀ a b c d e f : List Char,
        ((a ++ (b ++ (c ++ d))) ++ e) ++ f = a ++ (b ++ (c ++ (d ++ (e ++ f)))) := by
      simp
    exact hassoc _ _ _ _ _ _
  have hclause : (clause.chars ++ ' ' :: ("from".toList ++ ' ' :: q.mark :: s)).head?.any isBlank
      = false := by
    cases clause with
    | main n => exact n.head?_append _
    | further more => cases more <;> rfl
    | both n more => rw [Clause.chars, List.append_assoc]; exact n.head?_append _
  have hmarked : ((if isType then "type ".toList else [])
      ++ (clause.chars ++ ' ' :: ("from".toList ++ ' ' :: q.mark :: s))).head?.any isBlank
        = false := by
    cases isType with
    | false => exact hclause
    | true => rfl
  obtain ⟨main, whole, named, mid, mid', hmain, hwhole, hnamed, hsymbols⟩ :=
    clause.first?_bindings (s := "from".toList ++ ' ' :: q.mark :: s) rfl
  have hlast : (quote ['"', '\'']).first? (q.mark :: s) = some (q.mark :: s, s) :=
    q.first?_quote (by simp) s
  rw [htext]
  refine first?_bind (first?_of_singleton (text_append "import" _))
    (first?_bind (first?_of_singleton (blanks1_space hmarked))
    (first?_bind (first?_marker "type" isType hclause (clause.not_marked _))
    (first?_bind hmain (first?_bind hwhole (first?_bind hnamed
    (first?_bind (first?_of_singleton (text_append "from" _))
    (first?_bind (first?_of_singleton (blanks_space (q.head?_mark s))) (first?_bind hlast ?_))))))))
  rw [← hsymbols]
  cases isType <;> rfl

/-- A bare import is read up to the mark of its specifier. -/
theorem first?_bareImport (q : Quoted) (s : List Char) :
    bareImport.first? (ImportForm.bare.front ++ q.mark :: s)
      = some (⟨[], false, q.mark :: s⟩, s) := by
  have hlast : (quote ['"', '\'']).first? (q.mark :: s) = some (q.mark :: s, s) :=
    q.first?_quote (by simp) s
  exact first?_bind (first?_of_singleton (text_append "import" _))
    (first?_bind (first?_of_singleton (blanks_space (q.head?_mark s))) (first?_bind hlast rfl))

/-- So is a dynamic import. -/
theorem first?_dynamicImport (q : Quoted) (s : List Char) :
    dynamicImport.first? (ImportForm.dynamic.front ++ q.mark :: s)
      = some (⟨[], false, q.mark :: s⟩, s) := by
  have hlast : (quote ['"', '\'', '\x60']).first? (q.mark :: s) = some (q.mark :: s, s) :=
    q.first?_quote (by simp) s
  exact first?_bind (first?_of_singleton (text_append "import" _))
    (first?_bind (first?_of_singleton (blanks_eq rfl))
      (first?_bind (first?_of_singleton (text_append "(" _))
        (first?_bind (first?_of_singleton (blanks_eq (q.head?_mark s))) (first?_bind hlast rfl))))

/-! ### Lines of other forms -/

/-- An import with bindings begins with its word. -/
theorem led_bindingImport : Led bindingImport "import" := led_text_bind "import" _

/-- So does a bare import. -/
theorem led_bareImport : Led bareImport "import" := led_text_bind "import" _

/-- So does a dynamic import. -/
theorem led_dynamicImport : Led dynamicImport "import" := led_text_bind "import" _

/-- A bare import has a quotation mark behind `import`. -/
theorem bareImport_eq_nil (h : ∀ c ∈ (s.dropWhile isBlank).head?, c ∉ ['"', '\'']) :
    bareImport ("import".toList ++ s) = [] := by
  have hblanks : blanks s = [((), s.dropWhile isBlank)] := rfl
  rw [bareImport, bind_eq_of_singleton (text_append "import" s), bind_eq_of_singleton hblanks,
    bind_eq_nil (quote_eq_nil h)]

/-- A dynamic import has a parenthesis there. -/
theorem dynamicImport_eq_nil (h : (s.dropWhile isBlank).head? ≠ some '(') :
    dynamicImport ("import".toList ++ s) = [] := by
  have hblanks : blanks s = [((), s.dropWhile isBlank)] := rfl
  have hopen : text "(" (s.dropWhile isBlank) = [] := text_eq_nil (not_prefix_of_head rfl h)
  rw [dynamicImport, bind_eq_of_singleton (text_append "import" s), bind_eq_of_singleton hblanks,
    bind_eq_nil hopen]

/-- A binding import has something else. -/
theorem bindingImport_bare (q : Quoted) (s : List Char) :
    bindingImport (ImportForm.bare.front ++ q.mark :: s) = [] := by
  -- Behind the word stands the mark at once, so every optional part is missing and `from` too.
  have hne :
      ∀ {word : String} {c : Char}, word.toList.head? = some c → c ∉ ['"', '\''] →
        ¬word.toList <+: q.mark :: s := by
    intro word c hword hc
    refine not_prefix_of_head hword fun hmark => hc ?_
    rw [← Option.some_inj.1 hmark]
    rcases q.isQuote with h | h <;> simp [h]
  have hmain : defaultBinding (q.mark :: s) = [] := by
    refine bind_eq_nil (name_eq_nil ?_)
    rcases q.isQuote with h | h <;> rw [h] <;> rfl
  have hmarker : (text "type" >>= fun _ => blanks1) (q.mark :: s) = [] :=
    led_text_bind "type" _ _ (hne rfl (by decide))
  have hmodule := led_moduleBinding _ (hne rfl (by decide))
  have hnamed := led_namedBindings _ (hne rfl (by decide))
  have hfrom : text "from" (q.mark :: s) = [] := text_eq_nil (hne rfl (by decide))
  have himport : text "import" (ImportForm.bare.front ++ q.mark :: s)
      = [((), ' ' :: q.mark :: s)] :=
    text_append "import" _
  rw [bindingImport, bind_eq_of_singleton himport,
    bind_eq_of_singleton (blanks1_space (q.head?_mark s)),
    bind_eq_of_singleton (optional_eq hmarker), bind_eq_of_singleton (optional_eq hmain),
    bind_eq_of_singleton (optional_eq hmodule), bind_eq_of_singleton (optional_eq hnamed),
    bind_eq_nil hfrom]

/-- A dynamic import has no bindings. -/
theorem bindingImport_dynamic (s : List Char) :
    bindingImport (ImportForm.dynamic.front ++ s) = [] := by
  have himport : text "import" (ImportForm.dynamic.front ++ s) = [((), '(' :: s)] :=
    text_append "import" _
  rw [bindingImport, bind_eq_of_singleton himport, bind_eq_nil (blanks1_eq_nil rfl)]

variable {p : Reading ImportHead} {before : Option Char}

/-- A pattern that needs a quotation mark or a parenthesis behind `import` goes over a binding
    import. -/
theorem passes_binding (hled : Led p "import")
    (hnil : ∀ s c, (s.dropWhile isBlank).head? = some c → isClauseChar c = true →
      p ("import".toList ++ s) = [])
    (isType : Bool) (clause : Clause) (rest : List Char) :
    Passes p before (ImportForm.binding isType clause).front rest := by
  -- Whatever stands behind a word `import` inside the clause, the next character is one of a
  -- clause.
  have hnext : ∀ z : List Char, z.all isClauseChar = true →
      ∃ c, ((z ++ ("from ".toList ++ rest)).dropWhile isBlank).head? = some c ∧
        isClauseChar c = true := by
    intro z hz
    induction z with
    | nil => exact ⟨'f', rfl, by decide⟩
    | cons c z ih =>
      rw [List.all_cons, Bool.and_eq_true] at hz
      by_cases hc : isBlank c = true
      · rw [List.cons_append, List.dropWhile_cons_of_pos hc]
        exact ih hz.2
      · rw [List.cons_append, List.dropWhile_cons_of_neg hc]
        exact ⟨c, rfl, hz.1⟩
  have hclause := clause.all_isClauseChar_front isType
  refine Passes.append (hled.passes ?_ fun a z hsplit _ => ?_) (hled.passes_plain (c := 'i') rfl ?_)
  · intro c hc
    rw [← Option.some_inj.1 hc]
    decide
  · rw [hsplit, List.all_append, List.all_append, Bool.and_eq_true, Bool.and_eq_true] at hclause
    obtain ⟨c, hhead, hc⟩ := hnext z hclause.2.2
    exact hnil _ c hhead hc
  · decide

end

/-! ### Whole scripts -/

/-- With its literal veiled, an import is its front, the mark and a remainder. -/
theorem ImportStatement.veiled_layout (s : ImportStatement) :
    s.layout.veiled = (s.form.front ++ [s.specifier.mark])
      ++ s.specifier.remainder s.layout.back := by
  rw [List.append_assoc, List.singleton_append, ← Quoted.veiled_append]
  rfl

/-- No import begins behind the mark of the specifier. -/
theorem ImportStatement.passes_remainder {p : Reading ImportHead} (hled : Led p "import")
    (s : ImportStatement) (before : Option Char) (rest : List Char) :
    Passes p before (s.specifier.remainder s.layout.back) rest := by
  refine hled.passes_plain (c := 'i') rfl ?_
  have hmark : 'i' ≠ s.specifier.mark := by
    rcases s.specifier.isQuote with h | h <;> rw [h] <;> decide
  have hback : 'i' ∉ s.layout.back := by
    change 'i' ∉ s.form.back ++ (if s.isClosed then [';'] else [])
    cases s.form <;> cases s.isClosed <;> simp [ImportForm.back]
  simp [Quoted.remainder, hmark, hback]

/-- The import that a statement stands for, if it has one of the given forms. -/
def ImportStatement.recordIf (owns : ImportForm → Bool) (place : Place ImportStatement) :
    List Import :=
  if owns place.stated.form then [record place] else []

section
variable {p : Reading ImportHead} {isDynamic : Bool} {owns : ImportForm → Bool}

/-- The imports of one form are those of the statements of this form. -/
theorem importsOf_script (hled : Led p "import")
    (hdynamic : ∀ form, owns form = true → form.isDynamic = isDynamic)
    (hread : ∀ form (q : Quoted) s, owns form = true →
      p.first? (form.front ++ q.mark :: s) = some (⟨form.symbols, form.isTypeOnly, q.mark :: s⟩, s))
    (hpass : ∀ form (q : Quoted) s, owns form = false → Passes p none form.front (q.mark :: s))
    (lines : List (Option ImportStatement)) :
    importsOf p isDynamic (script (fun s => s.layout.veiled) lines)
      (script (fun s => s.layout.chars) lines)
      = (placed ImportStatement.layout lines).flatMap (ImportStatement.recordIf owns) := by
  rw [importsOf, List.filterMap_eq_flatMap_toList]
  refine flatMap_atWordStarts_script ⟨fun s => hled _ (not_prefix_of_head (c := 'i') rfl (by simp)),
    fun place _ below' hstands => ?_⟩
  generalize below (fun s => (ImportStatement.layout s).veiled) below' = rest at hstands
  have hopening : place.stated.specifier.mark
      :: (place.stated.specifier.remainder place.stated.layout.back ++ rest)
      = place.stated.specifier.veiled ++ (place.stated.layout.back ++ rest) := by
    rw [Quoted.remainder_append, Quoted.veiled_append]
  -- A statement of this form is found with its record, any other is passed over.
  by_cases howns : owns place.stated.form = true
  · refine ⟨some ⟨place.stated.form.symbols, place.stated.form.isTypeOnly,
      place.stated.specifier.veiled ++ (place.stated.layout.back ++ rest)⟩, ?_, ?_⟩
    · refine .hit place.stated.veiled_layout (by simp) ?_ (place.stated.passes_remainder hled _ _)
      rw [List.append_assoc, ← hopening]
      exact hread place.stated.form place.stated.specifier _ howns
    · have hhole : (isDynamic && containsText "$\x7b".toList place.stated.specifier.text.toList)
          = false := by
        rw [← hdynamic _ howns, Bool.and_eq_false_imp]
        exact place.stated.noHole
      have hspecifier :=
        hstands.literalBody?
          (show place.stated.layout.origin? = some place.stated.specifier from rfl)
      rw [ImportStatement.recordIf, if_pos howns, Option.toList_some, List.flatMap_singleton]
      dsimp only
      rw [hstands.offsetOf, hspecifier, Option.bind_eq_bind, Option.bind_some,
        if_neg (by rw [hhole]; exact Bool.false_ne_true), String.ofList_toList,
        ImportStatement.record, hdynamic _ howns]
      rfl
  · refine ⟨none, .pass ?_, by simp [ImportStatement.recordIf, howns]⟩
    have hmark : Passes p none [place.stated.specifier.mark]
        (place.stated.specifier.remainder place.stated.layout.back ++ rest) := by
      refine hled.passes_plain (c := 'i') rfl ?_
      rcases place.stated.specifier.isQuote with h | h <;> simp [h]
    rw [place.stated.veiled_layout]
    refine Passes.append (Passes.append (hpass _ _ _ (by simpa using howns)) hmark.of_none)
      (place.stated.passes_remainder hled _ _)

end

/-- The imports with bindings found in a script are those it states. -/
theorem bindingImports_script (lines : List (Option ImportStatement)) :
    importsOf bindingImport false (script (fun s => s.layout.veiled) lines)
      (script (fun s => s.layout.chars) lines)
      = (placed ImportStatement.layout lines).flatMap
        (ImportStatement.recordIf ImportForm.isBinding) := by
  refine importsOf_script led_bindingImport ?_ ?_ ?_ lines
  · intro form hform
    cases form with
    | binding isType clause => rfl
    | bare => cases hform
    | dynamic => cases hform
  · intro form q s hform
    cases form with
    | binding isType clause => exact first?_bindingImport isType clause q s
    | bare => cases hform
    | dynamic => cases hform
  · intro form q s hform
    cases form with
    | binding isType clause => cases hform
    | bare =>
      exact .cons (bindingImport_bare q s)
        (led_bindingImport.passes_plain (c := 'i') rfl (by decide))
    | dynamic =>
      exact .cons (bindingImport_dynamic _)
        (led_bindingImport.passes_plain (c := 'i') rfl (by decide))

/-- The same holds of its bare imports. -/
theorem bareImports_script (lines : List (Option ImportStatement)) :
    importsOf bareImport false (script (fun s => s.layout.veiled) lines)
      (script (fun s => s.layout.chars) lines)
      = (placed ImportStatement.layout lines).flatMap
        (ImportStatement.recordIf ImportForm.isBare) := by
  refine importsOf_script led_bareImport ?_ ?_ ?_ lines
  · intro form hform
    cases form with
    | binding isType clause => cases hform
    | bare => rfl
    | dynamic => cases hform
  · intro form q s hform
    cases form with
    | binding isType clause => cases hform
    | bare => exact first?_bareImport q s
    | dynamic => cases hform
  · intro form q s hform
    cases form with
    | binding isType clause =>
      -- A bare import needs a mark next, and no character of a clause is one.
      refine passes_binding led_bareImport
        (fun s c hhead hc => bareImport_eq_nil fun d hd hmem => ?_) isType clause _
      rw [Option.mem_def, hhead, Option.some_inj] at hd
      subst hd
      simp only [List.mem_cons, List.not_mem_nil, or_false] at hmem
      rcases hmem with rfl | rfl <;> cases hc
    | bare => cases hform
    | dynamic =>
      refine .cons (bareImport_eq_nil (s := '(' :: _) ?_)
        (led_bareImport.passes_plain (c := 'i') rfl (by decide))
      intro c hc
      rw [← Option.some_inj.1 hc]
      decide

/-- The same holds of its dynamic imports. -/
theorem dynamicImports_script (lines : List (Option ImportStatement)) :
    importsOf dynamicImport true (script (fun s => s.layout.veiled) lines)
      (script (fun s => s.layout.chars) lines)
      = (placed ImportStatement.layout lines).flatMap
        (ImportStatement.recordIf ImportForm.isDynamic) := by
  refine importsOf_script led_dynamicImport (fun _ hform => hform) ?_ ?_ lines
  · intro form q s hform
    cases form with
    | binding isType clause => cases hform
    | bare => cases hform
    | dynamic => exact first?_dynamicImport q s
  · intro form q s hform
    cases form with
    | binding isType clause =>
      -- A dynamic import needs a bracket next, and no character of a clause is one.
      refine passes_binding led_dynamicImport
        (fun s c hhead hc => dynamicImport_eq_nil ?_) isType clause _
      rw [hhead]
      rintro ⟨⟩
      cases hc
    | bare =>
      refine .cons (dynamicImport_eq_nil (s := ' ' :: q.mark :: s) ?_)
        (led_dynamicImport.passes_plain (c := 'i') rfl (by decide))
      have hdrop : (' ' :: q.mark :: s).dropWhile isBlank = q.mark :: s := by
        rcases q.isQuote with h | h <;> rw [h] <;> rfl
      rw [hdrop, List.head?_cons]
      rcases q.isQuote with h | h <;> rw [h] <;> decide
    | dynamic => cases hform

/-- What is found of the statements, form by form. -/
def ImportStatement.recordsByForm : List (Place ImportStatement → List Import) :=
  [recordIf ImportForm.isBinding, recordIf ImportForm.isBare, recordIf ImportForm.isDynamic]

/-- Every import has exactly one form. -/
theorem ImportStatement.flatMap_recordsByForm (place : Place ImportStatement) :
    recordsByForm.flatMap (· place) = [record place] := by
  simp only [recordsByForm, List.flatMap_cons, List.flatMap_nil, List.append_nil, recordIf]
  cases place.stated.form <;> rfl

/-- **The imports of a script** are those of its statements, one for each and in their order. -/
theorem imports_script (lines : List (Option ImportStatement)) :
    imports (mask .literals (script (fun s => s.layout.chars) lines))
      (script (fun s => s.layout.chars) lines)
      = (placed ImportStatement.layout lines).map ImportStatement.record := by
  have hforms : ∀ places : List (Place ImportStatement),
      places.flatMap (ImportStatement.recordIf ImportForm.isBinding)
        ++ places.flatMap (ImportStatement.recordIf ImportForm.isBare)
        ++ places.flatMap (ImportStatement.recordIf ImportForm.isDynamic)
      = ImportStatement.recordsByForm.flatMap fun out => places.flatMap out := by
    intro places
    simp [ImportStatement.recordsByForm]
  rw [mask_script, imports, bindingImports_script, bareImports_script, dynamicImports_script,
    hforms, mergeSort_flatMap]
  · simp only [ImportStatement.flatMap_recordsByForm]
    rw [← List.map_eq_flatMap]
  · intro a b c hab hbc
    rw [decide_eq_true_eq] at hab hbc ⊢
    exact Nat.le_trans hab hbc
  · intro a b
    simpa using Nat.le_total a.offset b.offset
  · intro place _
    rw [ImportStatement.flatMap_recordsByForm]
    exact List.pairwise_singleton _ _
  · -- Sorting by offset brings the three forms into the order of their lines.
    refine (pairwise_placedFrom ImportStatement.layout 0 1 lines).imp fun {one other} hlt => ?_
    simp only [ImportStatement.flatMap_recordsByForm, List.mem_singleton]
    rintro a rfl b rfl
    exact ⟨decide_eq_true (Nat.le_of_lt hlt), decide_eq_false (Nat.not_le.2 hlt)⟩

end BlastRadius.Statement
