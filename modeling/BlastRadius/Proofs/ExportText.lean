import BlastRadius.Proofs.ScriptLines

namespace BlastRadius.Statement

/-!
# Export statements as they are written

* `FreeName` — a name that cannot be taken for a word of export statements.
* `Keyword` — the keywords that declare something, and how they are read.
* `exportLead` — `export` and a word that may follow it.
* `ExportStatement` — an export statement, its `layout` on a line, and the `records` that it stands
  for.
-/

open Text Text.Reading Source

/-! ### Names and words -/

/-- The words of export statements. -/
def reservedWords : List String :=
  ["export", "type", "default", "declare", "async", "function", "abstract", "class", "interface",
    "const", "enum", "let", "var", "namespace", "module"]

/-- Whether a name is one of these words, or begins with one that `$` follows. -/
def isReserved (name : List Char) : Bool :=
  reservedWords.any fun word => name == word.toList || (word.toList ++ ['$']).isPrefixOf name

/-- A name that cannot be taken for one of these words. -/
structure FreeName extends Name where
  isFree : isReserved text.toList = false
deriving DecidableEq, Repr

section
variable {β : Type} {word : String} {rest : List Char}

/-- Reserved words are made of the characters of names. -/
theorem isNameChar_of_mem_reserved (hword : word ∈ reservedWords) :
    ∀ c ∈ word.toList, isNameChar c = true := by
  have hall : reservedWords.all (fun word => word.toList.all isNameChar) = true := by decide
  exact List.all_eq_true.1 (List.all_eq_true.1 hall word hword)

/-- A free name is no reserved word, and does not continue one with a dollar sign. -/
theorem FreeName.ne_of_mem_reserved (n : FreeName) (hword : word ∈ reservedWords) :
    n.chars ≠ word.toList ∧ ¬word.toList ++ ['$'] <+: n.chars := by
  have hfree := List.any_eq_false.1 n.isFree word hword
  rw [Bool.or_eq_true, not_or, beq_iff_eq, List.isPrefixOf_iff_prefix] at hfree
  exact hfree

/-- No word is read off such a name, if it has to end where it ends. -/
theorem FreeName.text_bind_eq_nil (n : FreeName) (hword : word ∈ reservedWords)
    (hrest : rest.head?.any isNameChar = false)
    {f : Unit → Reading β}
    (hf : ∀ c s, isPlainChar c = true → isWord c = true → f () (c :: s) = []) :
    (Reading.text word >>= f) (n.chars ++ rest) = [] := by
  refine Reading.text_bind_eq_nil (fun c hc hmem => ?_) fun more hmore => ?_
  · rw [Option.mem_def.1 hc, Option.any_some, isNameChar_of_mem_reserved hword c hmem] at hrest
    cases hrest
  · -- The name is the word itself, or the word with a character behind it.
    cases more with
    | nil =>
      rw [List.append_nil] at hmore
      exact absurd hmore (n.ne_of_mem_reserved hword).1
    | cons c more =>
      have hplain := n.isPlainChar c (by rw [hmore]; simp)
      have hname := isNameChar_of_isPlainChar hplain
      rw [isNameChar, Bool.or_eq_true, beq_iff_eq] at hname
      rcases hname with hc | rfl
      · exact hf c (more ++ rest) hplain hc
      · refine absurd ⟨more, ?_⟩ (n.ne_of_mem_reserved hword).2
        rw [hmore, List.append_assoc]
        rfl

/-- A free name is not read as a reserved word with blanks behind it. -/
theorem FreeName.not_word (n : FreeName) (hword : word ∈ reservedWords)
    (hrest : rest.head?.any isNameChar = false) :
    (Reading.text word >>= fun _ => blanks1) (n.chars ++ rest) = [] :=
  n.text_bind_eq_nil hword hrest fun _ _ hc _ =>
    Reading.blanks1_eq_nil (not_isBlank_of_isPlainChar hc)

/-- The same, whatever is read behind the blanks. -/
theorem FreeName.blanks1_eq_nil (n : FreeName) (hword : word ∈ reservedWords)
    (hrest : rest.head?.any isNameChar = false)
    (f : Unit → Reading β) :
    (Reading.text word >>= fun _ => blanks1 >>= f) (n.chars ++ rest) = [] :=
  n.text_bind_eq_nil hword hrest fun _ _ hc _ =>
    bind_eq_nil (Reading.blanks1_eq_nil (not_isBlank_of_isPlainChar hc))

/-- A free name is not read as a keyword. -/
theorem FreeName.keyword_eq_nil (n : FreeName) (hword : word ∈ reservedWords)
    (hrest : rest.head?.any isNameChar = false) :
    keyword word (n.chars ++ rest) = [] :=
  n.text_bind_eq_nil hword hrest fun _ _ _ hc => by rw [wordEnd, if_pos hc]

/-- A free name does not begin a declaration. -/
theorem FreeName.declarationKeyword_eq_nil (n : FreeName)
    (hrest : rest.head?.any isNameChar = false) : declarationKeyword (n.chars ++ rest) = [] := by
  have hkeyword :
      ∀ {word} (f : Unit → Reading ExportKind), word ∈ reservedWords →
        (keyword word >>= f) (n.chars ++ rest) = [] :=
    fun f hword => bind_eq_nil (n.keyword_eq_nil hword hrest)
  have hwords : ∀ {word} (f : Unit → Reading ExportKind), word ∈ reservedWords →
      (Reading.text word >>= fun _ => blanks1 >>= f) (n.chars ++ rest) = [] :=
    fun f hword => n.blanks1_eq_nil hword hrest f
  rw [declarationKeyword, oneOf, List.flatMap_eq_nil_iff]
  simp only [List.forall_mem_cons]
  refine ⟨hwords _ ?_, hkeyword _ ?_, hwords _ ?_, hkeyword _ ?_, hkeyword _ ?_,
    hkeyword _ ?_, hwords _ ?_, hkeyword _ ?_, hkeyword _ ?_, hkeyword _ ?_, hkeyword _ ?_,
    hkeyword _ ?_, hkeyword _ ?_, List.forall_mem_nil _⟩ <;> decide

end

/-! ### Keywords -/

/-- The keywords that declare something. -/
inductive Keyword where
  | functionDecl (isAsync isGenerator : Bool)
  | classDecl (isAbstract : Bool)
  | interfaceDecl
  | typeDecl
  | enumDecl (isConst : Bool)
  | constDecl
  | letDecl
  | varDecl
  | namespaceDecl
  | moduleDecl
deriving DecidableEq, Repr

namespace Keyword

/-- A keyword as it is written. -/
def word : Keyword → String
  | .functionDecl false false => "function"
  | .functionDecl false true => "function*"
  | .functionDecl true false => "async function"
  | .functionDecl true true => "async function*"
  | .classDecl false => "class"
  | .classDecl true => "abstract class"
  | .interfaceDecl => "interface"
  | .typeDecl => "type"
  | .enumDecl false => "enum"
  | .enumDecl true => "const enum"
  | .constDecl => "const"
  | .letDecl => "let"
  | .varDecl => "var"
  | .namespaceDecl => "namespace"
  | .moduleDecl => "module"

/-- What a keyword declares. -/
def kind : Keyword → ExportKind
  | .functionDecl _ _ => .function
  | .classDecl _ => .classDecl
  | .interfaceDecl => .interface
  | .typeDecl => .type
  | .enumDecl _ => .enum
  | .constDecl => .variable
  | .letDecl => .variable
  | .varDecl => .variable
  | .namespaceDecl => .namespaceDecl
  | .moduleDecl => .namespaceDecl

/-- The texts of the keywords. -/
def words : List String :=
  ["function", "function*", "async function", "async function*", "class", "abstract class",
    "interface", "type", "enum", "const enum", "const", "let", "var", "namespace", "module"]

/-- What holds of the listed words holds of every keyword. -/
theorem forall_word (keyword : Keyword) (holds : String → Bool) (h : words.all holds = true) :
    holds keyword.word = true := by
  rw [List.all_eq_true] at h
  refine h _ ?_
  cases keyword with
  | functionDecl isAsync isGenerator => cases isAsync <;> cases isGenerator <;> decide
  | classDecl isAbstract => cases isAbstract <;> decide
  | enumDecl isConst => cases isConst <;> decide
  | _ => decide

/-- Only the keyword for types begins with a type marker. -/
theorem eq_typeDecl_of_marked (keyword : Keyword) (h : "type".toList <+: keyword.word.toList) :
    keyword = .typeDecl := by
  revert h
  cases keyword with
  | functionDecl isAsync isGenerator => cases isAsync <;> cases isGenerator <;> decide
  | classDecl isAbstract => cases isAbstract <;> decide
  | enumDecl isConst => cases isConst <;> decide
  | _ => decide

/-- A keyword is not taken for another word. -/
theorem not_other_word (keyword : Keyword) {word : String} (hspace : ' ' ∉ word.toList)
    (h : words.all (fun other => decide ¬word.toList <+: other.toList) = true) (s : List Char) :
    ¬word.toList <+: keyword.word.toList ++ ' ' :: s := by
  intro hprefix
  refine of_decide_eq_true (keyword.forall_word _ h)
    (prefix_of_prefix_append (fun c hc => ?_) hprefix)
  rw [← Option.some_inj.1 hc]
  exact hspace

variable (keyword : Keyword) (n : FreeName) {rest : List Char}

/-- The keyword `function` is read with the blank behind it. -/
theorem first?_functionKeyword (rest : List Char) :
    functionKeyword.first? ("function".toList ++ ' ' :: (n.chars ++ rest)) = some (.function,
      n.chars ++ rest) := by
  have hkeyword : Statement.keyword "function" ("function".toList ++ ' ' :: (n.chars ++ rest))
      = [((), ' ' :: (n.chars ++ rest))] :=
    rfl
  have hstar : optional (text "*") (n.chars ++ rest) = [(none, n.chars ++ rest)] := by
    refine optional_eq (text_eq_nil (not_prefix_of_head (c := '*') rfl ?_))
    obtain ⟨c, cs, hchars, hc, -⟩ := n.exists_cons
    rw [hchars]
    rintro ⟨⟩
    cases hc
  exact first?_bind (first?_of_singleton hkeyword)
    (first?_bind (first?_of_singleton (blanks_space (n.head?_append rest)))
    (first?_bind (first?_of_singleton hstar) rfl))

/-- So is `async function`. -/
theorem first?_asyncFunction (rest : List Char) :
    declarationKeyword.first?
      ("async".toList ++ ' ' :: ("function".toList ++ ' ' :: (n.chars ++ rest)))
      = some (.function, n.chars ++ rest) := by
  have hblank : blanks1 (' ' :: ("function".toList ++ ' ' :: (n.chars ++ rest)))
      = [((), "function".toList ++ ' ' :: (n.chars ++ rest))] :=
    blanks1_space rfl
  have hasync : (text "async" >>= fun _ => blanks1 >>= fun _ => functionKeyword).first?
      ("async".toList ++ ' ' :: ("function".toList ++ ' ' :: (n.chars ++ rest)))
        = some (.function, n.chars ++ rest) :=
    first?_bind (first?_of_singleton (text_append "async" _))
      (first?_bind (first?_of_singleton hblank) (first?_functionKeyword n rest))
  rw [declarationKeyword, first?_oneOf_cons, hasync, Option.some_or]

/-- The keyword of a plain function. -/
theorem first?_function (rest : List Char) :
    declarationKeyword.first? ("function".toList ++ ' ' :: (n.chars ++ rest))
      = some (.function, n.chars ++ rest) := by
  have hasync : (text "async" >>= fun _ => blanks1 >>= fun _ => functionKeyword).first?
      ("function".toList ++ ' ' :: (n.chars ++ rest)) = none := rfl
  rw [declarationKeyword, first?_oneOf_cons, hasync, Option.none_or, first?_oneOf_cons,
    first?_functionKeyword, Option.some_or]

/-- Behind `const` the word `enum` could follow, but not as the beginning of this name. -/
theorem first?_const (hrest : rest.head?.any isNameChar = false) :
    declarationKeyword.first? ("const".toList ++ ' ' :: (n.chars ++ rest))
      = some (.variable, ' ' :: (n.chars ++ rest)) := by
  have henum : Statement.keyword "enum" (n.chars ++ rest) = [] := n.keyword_eq_nil (by decide) hrest
  have hconst : (text "const" >>= fun _ => blanks1 >>= fun _ =>
      Statement.keyword "enum" >>= fun _ => pure ExportKind.enum).first?
      ("const".toList ++ ' ' :: (n.chars ++ rest)) = none := by
    rw [first?, bind_eq_of_singleton (text_append "const" _),
      bind_eq_of_singleton (blanks1_space (n.head?_append rest)),
      bind_eq_nil henum]
    rfl
  -- Six alternatives are tried before that one.
  rw [declarationKeyword]
  iterate 7 rw [first?_oneOf_cons]
  rw [hconst]
  rfl

/-- A keyword is read up to the name behind it, with or without the blank between them. -/
theorem first?_declarationKeyword (hrest : rest.head?.any isNameChar = false) :
    ∃ mid, declarationKeyword.first? (keyword.word.toList ++ ' ' :: (n.chars ++ rest))
      = some (keyword.kind, mid) ∧ blanks mid = [((), n.chars ++ rest)] := by
  have hname := blanks_eq (n.head?_append rest)
  have hblank := blanks_space (n.head?_append rest)
  -- Most keywords are read by evaluation. A blank may stay behind, except where it is part of the
  -- keyword.
  cases keyword with
  | functionDecl isAsync isGenerator =>
    cases isAsync <;> cases isGenerator
    · exact ⟨n.chars ++ rest, first?_function n rest, hname⟩
    · exact ⟨' ' :: (n.chars ++ rest), rfl, hblank⟩
    · exact ⟨n.chars ++ rest, first?_asyncFunction n rest, hname⟩
    · exact ⟨' ' :: (n.chars ++ rest), rfl, hblank⟩
  | classDecl isAbstract =>
    cases isAbstract <;> exact ⟨' ' :: (n.chars ++ rest), rfl, hblank⟩
  | interfaceDecl => exact ⟨' ' :: (n.chars ++ rest), rfl, hblank⟩
  | typeDecl => exact ⟨' ' :: (n.chars ++ rest), rfl, hblank⟩
  | enumDecl isConst =>
    cases isConst <;> exact ⟨' ' :: (n.chars ++ rest), rfl, hblank⟩
  | constDecl => exact ⟨' ' :: (n.chars ++ rest), first?_const n hrest, hblank⟩
  | letDecl => exact ⟨' ' :: (n.chars ++ rest), rfl, hblank⟩
  | varDecl => exact ⟨' ' :: (n.chars ++ rest), rfl, hblank⟩
  | namespaceDecl => exact ⟨' ' :: (n.chars ++ rest), rfl, hblank⟩
  | moduleDecl => exact ⟨' ' :: (n.chars ++ rest), rfl, hblank⟩

end Keyword

/-! ### Statements -/

/-- The words that may follow `export`. -/
def leadWords : List String :=
  ["type", "\x7b", "*", "default", "declare", "async", "function", "abstract", "class", "interface",
    "const", "enum", "let", "var", "namespace", "module"]

/-- `export` and one of these words, which all export statements begin with. -/
def exportLead : Reading Unit := do
  text "export"
  blanks1
  oneOf (leadWords.map text)

/-- An exported declaration: its markers, its keyword, its name, and what stands behind the name. -/
structure Declared where
  isDefault : Bool
  isAmbient : Bool
  keyword : Keyword
  name : FreeName
  body : String
  isApart : body.toList.head?.any isNameChar = false
  isCode : body.toList.all isCode = true
  /-- The body is free of the word `export`. -/
  noExport : (Statement.keyword "export").atWordStarts body.toList = []
  /-- A word may begin behind `$`. Behind a name that ends in `$export` the body is not what a
      statement goes on with. -/
  noLead : "$export".toList <:+ name.chars → exportLead ("export".toList ++ body.toList) = []
deriving DecidableEq, Repr

/-- The name and what stands behind it. -/
def Declared.nameAndBody (d : Declared) : List Char :=
  d.name.chars ++ d.body.toList

/-- The declaration behind the word `export`. -/
def Declared.clause (d : Declared) : List Char :=
  (if d.isDefault then "default".toList ++ [' '] else [])
    ++ ((if d.isAmbient then "declare".toList ++ [' '] else [])
      ++ (d.keyword.word.toList ++ ' ' :: d.nameAndBody))

/-- What is read of a declaration. -/
def Declared.declaration (d : Declared) : Declaration :=
  ⟨d.isDefault, d.isAmbient, d.keyword.kind, some d.name.chars⟩

/-- The export statements.  All but declarations may end with a semicolon. -/
inductive ExportStatement where
  | declared (d : Declared)
  | list (items : List Item) (origin? : Option Quoted) (isClosed : Bool)
  | whole (alias? : Option Name) (origin : Quoted) (isClosed : Bool)
  | main (name : FreeName) (isClosed : Bool)
deriving DecidableEq, Repr

namespace ExportStatement

/-- What stands behind `export`, up to the literal. -/
def clause : ExportStatement → List Char
  | .declared d => d.clause
  | .list items none _ => listChars items
  | .list items (some _) _ => listChars items ++ " from ".toList
  | .whole none _ _ => "* from ".toList
  | .whole (some n) _ _ => "* as ".toList ++ (n.chars ++ " from ".toList)
  | .main n _ => "default ".toList ++ n.chars

/-- The literal that names the module from which something is passed on. -/
def origin? : ExportStatement → Option Quoted
  | .list _ origin? _ => origin?
  | .whole _ origin _ => some origin
  | _ => none

/-- Whether a semicolon ends the statement. -/
def isClosed : ExportStatement → Bool
  | .declared _ => false
  | .list _ _ isClosed => isClosed
  | .whole _ _ isClosed => isClosed
  | .main _ isClosed => isClosed

/-- Whether the statement is a list of names. -/
def isList : ExportStatement → Bool
  | .list _ _ _ => true
  | _ => false

/-- Whether the statement passes on a whole file. -/
def isWhole : ExportStatement → Bool
  | .whole _ _ _ => true
  | _ => false

/-- Whether the statement is a declaration. -/
def isDeclared : ExportStatement → Bool
  | .declared _ => true
  | _ => false

/-- Whether the statement is a default export of a name. -/
def isMain : ExportStatement → Bool
  | .main _ _ => true
  | _ => false

/-- The declaration that the statement is read as. -/
def declaration? : ExportStatement → Option Declaration
  | .declared d => some d.declaration
  | _ => none

/-- Whether a statement declares the default export. -/
def declaresDefault : ExportStatement → Bool
  | .declared d => d.isDefault
  | _ => false

/-- What stands behind the clause in masked text. -/
def closing (s : ExportStatement) : List Char :=
  (s.origin?.map Quoted.veiled).getD [] ++ if s.isClosed then [';'] else []

/-- A clause is code throughout, and has no literal or comment. -/
theorem all_isCode_clause (s : ExportStatement) : s.clause.all Statement.isCode = true := by
  cases s with
  -- The body is code by its own promise, all else by its characters.
  | declared d =>
    have hmain : (if d.isDefault then "default".toList ++ [' '] else []).all Statement.isCode
        = true := by
      cases d.isDefault <;> decide
    have hambient : (if d.isAmbient then "declare".toList ++ [' '] else []).all Statement.isCode
        = true := by
      cases d.isAmbient <;> decide
    have hkeyword : d.keyword.word.toList.all Statement.isCode = true :=
      d.keyword.forall_word (fun word => word.toList.all Statement.isCode) (by decide)
    have hname : d.nameAndBody.all Statement.isCode = true :=
      all_append_of (all_isCode_of_all_isClauseChar d.name.all_isClauseChar) d.isCode
    exact all_append_of hmain
      (all_append_of hambient (all_append_of hkeyword (all_append_of (s := [' ']) rfl hname)))
  | list items origin? isClosed =>
    refine all_isCode_of_all_isClauseChar ?_
    cases origin? with
    | none => exact all_isClauseChar_listChars items
    | some q => exact all_append_of (all_isClauseChar_listChars items) (by decide)
  | whole alias? origin isClosed =>
    refine all_isCode_of_all_isClauseChar ?_
    cases alias? with
    | none => exact show "* from ".toList.all isClauseChar = true by decide
    | some n => exact all_append_of (by decide) (all_append_of n.all_isClauseChar (by decide))
  | main n isClosed =>
    exact all_isCode_of_all_isClauseChar (all_append_of (by decide) n.all_isClauseChar)

/-- A statement as it is written. -/
def layout (s : ExportStatement) : Layout where
  front := "export".toList ++ ' ' :: s.clause
  origin? := s.origin?
  back := if s.isClosed then [';'] else []
  isCode := by
    have hback : (if s.isClosed then [';'] else []).all Statement.isCode = true := by
      cases s.isClosed <;> decide
    exact all_append_of (all_append_of (by decide)
      (all_append_of (s := [' ']) rfl s.all_isCode_clause)) hback

/-- The exports that a statement stands for. -/
def records (place : Place ExportStatement) : List Export :=
  match place.stated with
  | .declared d => [{
      name := if d.isDefault then "default" else d.name.text
      kind := if d.isAmbient then .unknown else d.keyword.kind
      line := place.line
      isReexport := false
      source := none }]
  | .list items origin? _ => items.map fun item => {
      name := item.outer.text
      kind := .unknown
      line := place.line
      isReexport := origin?.isSome
      source := origin?.map (·.text) }
  | .whole _ origin _ => [{
      name := "*"
      kind := .unknown
      line := place.line
      isReexport := true
      source := some origin.text }]
  | .main _ _ => [{
      name := "default"
      kind := .unknown
      line := place.line
      isReexport := false
      source := none }]

/-- The masked text of a statement behind `export`. -/
def behind (s : ExportStatement) : List Char :=
  ' ' :: (s.clause ++ s.closing)

/-- With its literal veiled, a statement is the word `export` and what stands behind it. -/
theorem veiled_layout (s : ExportStatement) : s.layout.veiled = "export".toList ++ s.behind :=
  List.append_assoc _ _ _

end ExportStatement

/-! ### The marker of types -/

section
variable {α : Type} {u t : List Char}

/-- A text without a type marker is read on from its start. -/
theorem typeMarker_eq (h : (text "type" >>= fun _ => blanks1) u = []) :
    typeMarker u = [((), u)] := by
  rw [typeMarker, bind_eq_of_singleton (optional_eq h)]
  rfl

/-- Where the marker is read, it may also be left for what follows. -/
theorem typeMarker_type (hu : u.head?.any isBlank = false) :
    typeMarker ("type".toList ++ ' ' :: u) = [((), u), ((), "type".toList ++ ' ' :: u)] := by
  rw [typeMarker, bind_apply, optional_word "type" hu]
  rfl

/-- The body does not continue the name. -/
theorem Declared.head?_body (d : Declared) (ht : t.head?.any isNameChar = false) :
    (d.body.toList ++ t).head?.any isNameChar = false := by
  cases hbody : d.body.toList with
  | nil => exact ht
  | cons c cs =>
    have hapart := d.isApart
    rw [hbody] at hapart
    exact hapart

/-- A declaration begins as a name does. -/
theorem Declared.head?_clause (d : Declared) (t : List Char) :
    (d.clause ++ t).head?.any isNameStart = true := by
  have hkeyword := d.keyword.forall_word (fun word => word.toList.head?.any isNameStart) (by decide)
  unfold clause
  -- The first of the two markers and the keyword that is there begins the clause.
  cases d.isDefault with
  | true => rfl
  | false =>
    cases d.isAmbient with
    | true => rfl
    | false =>
      change ((d.keyword.word.toList ++ ' ' :: d.nameAndBody) ++ t).head?.any isNameStart = true
      cases hword : d.keyword.word.toList with
      | nil =>
        rw [hword] at hkeyword
        cases hkeyword
      | cons c cs =>
        rw [hword] at hkeyword
        exact hkeyword

/-- Only the declaration of a type begins with the marker of types. -/
theorem Declared.eq_of_marked (d : Declared) (t : List Char) (h : "type".toList <+: d.clause ++ t) :
    d.clause = "type".toList ++ ' ' :: d.nameAndBody := by
  unfold clause at h ⊢
  -- Both other markers begin with a `d`.
  cases hmain : d.isDefault with
  | true =>
    rw [hmain] at h
    exact absurd h (not_prefix_of_head (c := 't') rfl (show some 'd' ≠ some 't' by decide))
  | false =>
    rw [hmain] at h
    cases hambient : d.isAmbient with
    | true =>
      rw [hambient] at h
      exact absurd h (not_prefix_of_head (c := 't') rfl (show some 'd' ≠ some 't' by decide))
    | false =>
      rw [hambient] at h
      have hword : "type".toList <+: d.keyword.word.toList := by
        have hassoc : "type".toList <+: d.keyword.word.toList ++ (' ' :: d.nameAndBody ++ t) := by
          rw [← List.append_assoc]
          exact h
        refine prefix_of_prefix_append (fun c hc => ?_) hassoc
        rw [← Option.some_inj.1 hc]
        decide
      rw [d.keyword.eq_typeDecl_of_marked hword]
      rfl

/-- The marker of types is not read from an export statement, but for a type that is declared, where
    nothing follows. -/
theorem typeMarker_clause (s : ExportStatement) {f : Unit → Reading α}
    (hname : ∀ (n : FreeName) (r : List Char), r.head?.any isNameChar = false →
      f () (n.chars ++ r) = [])
    (ht : t.head?.any isNameChar = false) :
    (typeMarker >>= f) (s.clause ++ t) = f () (s.clause ++ t) := by
  by_cases hmarked : "type".toList <+: s.clause ++ t
  · cases s with
    -- The word `type` is the keyword here, and no declaration begins behind it.
    | declared d =>
      have hclause : (ExportStatement.declared d).clause ++ t
          = "type".toList ++ ' ' :: (d.nameAndBody ++ t) := by
        change d.clause ++ t = _
        rw [d.eq_of_marked t hmarked]
        rfl
      have hhead : (d.nameAndBody ++ t).head?.any isBlank = false := by
        rw [Declared.nameAndBody, List.append_assoc]
        exact d.name.head?_append _
      have hnone : f () (d.nameAndBody ++ t) = [] := by
        rw [Declared.nameAndBody, List.append_assoc]
        exact hname d.name _ (d.head?_body ht)
      rw [hclause, bind_apply, typeMarker_type hhead, List.flatMap_cons, List.flatMap_singleton,
        hnone, List.nil_append]
    | list items origin? isClosed =>
      have hne : ((ExportStatement.list items origin? isClosed).clause ++ t).head? ≠ some 't' := by
        cases origin? <;> exact show some '\x7b' ≠ some 't' by decide
      exact absurd hmarked (not_prefix_of_head rfl hne)
    | whole alias? origin isClosed =>
      have hne : ((ExportStatement.whole alias? origin isClosed).clause ++ t).head? ≠ some 't' := by
        cases alias? <;> exact show some '*' ≠ some 't' by decide
      exact absurd hmarked (not_prefix_of_head rfl hne)
    | main n isClosed =>
      have hne : ((ExportStatement.main n isClosed).clause ++ t).head? ≠ some 't' :=
        show some 'd' ≠ some 't' by decide
      exact absurd hmarked (not_prefix_of_head rfl hne)
  · rw [bind_eq_of_singleton (typeMarker_eq (led_text_bind "type" _ _ hmarked))]

end

/-! ### How statements are read -/

section
variable {α : Type} {rest t : List Char}

/-- A name begins with no other character than that of a name. -/
theorem Name.head?_ne (n : Name) {c : Char} (hc : isNameStart c = false) (r : List Char) :
    (n.chars ++ r).head? ≠ some c := by
  obtain ⟨d, ds, hchars, hd, -⟩ := n.exists_cons
  rw [hchars]
  rintro ⟨⟩
  rw [hd] at hc
  cases hc

/-- Neither does a declaration. -/
theorem Declared.head?_clause_ne (d : Declared) {c : Char} (hc : isNameStart c = false)
    (t : List Char) : (d.clause ++ t).head? ≠ some c := by
  intro hhead
  have hstart := d.head?_clause t
  rw [hhead, Option.any_some, hc] at hstart
  cases hstart

/-- A clause does not begin with a blank. -/
theorem ExportStatement.head?_clause (s : ExportStatement) (t : List Char) :
    (s.clause ++ t).head?.any isBlank = false := by
  cases s with
  | declared d =>
    have hhead := d.head?_clause t
    change (d.clause ++ t).head?.any isBlank = false
    cases hc : (d.clause ++ t).head? with
    | none => rfl
    | some c =>
      rw [hc] at hhead
      exact not_isBlank_of_isPlainChar (isPlainChar_of_isNameStart hhead)
  | list items origin? isClosed => cases origin? <;> rfl
  | whole alias? origin isClosed => cases alias? <;> rfl
  | main n isClosed => rfl

/-- The closing does not continue a name. -/
theorem ExportStatement.head?_closing (s : ExportStatement)
    (hrest : rest.head?.any isNameChar = false) :
    (s.closing ++ rest).head?.any isNameChar = false := by
  unfold closing
  cases s.origin? with
  | some q =>
    change (some q.mark).any isNameChar = false
    rcases q.isQuote with h | h <;> rw [h] <;> rfl
  | none =>
    cases s.isClosed with
    | true => rfl
    | false => exact hrest

/-- A pattern that begins with `export` and the marker of types goes on with the clause. -/
theorem ExportStatement.opening_behind (s : ExportStatement) {f : Unit → Reading α}
    (hname : ∀ (n : FreeName) (r : List Char), r.head?.any isNameChar = false →
      f () (n.chars ++ r) = [])
    (hrest : rest.head?.any isNameChar = false) :
    (text "export" >>= fun _ => blanks1 >>= fun _ => typeMarker >>= f)
      ("export".toList ++ (s.behind ++ rest))
      = f () (s.clause ++ (s.closing ++ rest)) := by
  have hblank : blanks1 (s.behind ++ rest) = [((), s.clause ++ (s.closing ++ rest))] := by
    rw [behind, List.cons_append, List.append_assoc]
    exact blanks1_space (s.head?_clause _)
  rw [bind_eq_of_singleton (text_append "export" _), bind_eq_of_singleton hblank]
  exact typeMarker_clause s hname (s.head?_closing hrest)

/-- A list and what follows it. -/
def listBehind : Reading (List Char × Option (List Char)) := do
  let body ← braced
  let opening ← Reading.optional (do blanks; fromOpening)
  return (body, opening)

/-- Whether a statement is an export list is decided behind its marker. -/
theorem exportList_behind (s : ExportStatement) (hrest : rest.head?.any isNameChar = false) :
    exportList ("export".toList ++ (s.behind ++ rest))
      = listBehind (s.clause ++ (s.closing ++ rest)) :=
  s.opening_behind (fun n r _ => led_braced.bind _ (not_prefix_of_head rfl (n.head?_ne rfl r)))
    hrest

/-- The export of a whole module. -/
def wholeBehind : Reading (List Char) := do
  text "*"
  blanks
  let _ ← Reading.optional (do text "as"; blanks1; let _ ← name; blanks)
  fromOpening

/-- What is passed on as a whole begins with a star. -/
theorem led_wholeBehind : Led wholeBehind "*" := led_text_bind "*" _

/-- Whether a statement passes on a file is decided behind its marker. -/
theorem exportAll_behind (s : ExportStatement) (hrest : rest.head?.any isNameChar = false) :
    exportAll ("export".toList ++ (s.behind ++ rest))
      = wholeBehind (s.clause ++ (s.closing ++ rest)) :=
  s.opening_behind (fun n r _ => led_wholeBehind _ (not_prefix_of_head rfl (n.head?_ne rfl r)))
    hrest

/-- A declaration. -/
def declarationBehind : Reading Declaration := do
  let main ← Reading.optional (do text "default"; blanks1)
  let ambient ← Reading.optional (do text "declare"; blanks1)
  let kind ← declarationKeyword
  blanks
  let declared ← Reading.optional wholeName
  return { isDefault := main.isSome, isAmbient := ambient.isSome, kind, declared }

/-- A text with neither a marker nor a keyword is no declaration. -/
theorem declarationBehind_eq_nil {u : List Char}
    (hmain : (text "default" >>= fun _ => blanks1) u = [])
    (hambient : (text "declare" >>= fun _ => blanks1) u = [])
    (hkeyword : declarationKeyword u = []) : declarationBehind u = [] := by
  rw [declarationBehind, bind_eq_of_singleton (optional_eq hmain),
    bind_eq_of_singleton (optional_eq hambient), bind_eq_nil hkeyword]

/-- Whether a statement is a declaration is decided behind its marker. -/
theorem exportDeclaration_behind (s : ExportStatement) (hrest : rest.head?.any isNameChar = false) :
    exportDeclaration ("export".toList ++ (s.behind ++ rest))
      = declarationBehind (s.clause ++ (s.closing ++ rest)) :=
  s.opening_behind (fun n r hr =>
    declarationBehind_eq_nil (n.not_word (by decide) hr) (n.not_word (by decide) hr)
      (n.declarationKeyword_eq_nil hr)) hrest

/-- The origin is read up to the mark of its literal. -/
theorem first?_fromOpening (q : Quoted) (t : List Char) :
    fromOpening.first? ("from".toList ++ ' ' :: q.mark :: t) = some (q.mark :: t, t) :=
  first?_bind (first?_of_singleton (text_append "from" _))
    (first?_bind (first?_of_singleton (blanks_space (q.head?_mark t))) (q.first?_quote (by simp) t))

/-- A list that nothing is taken from another module for. -/
theorem first?_listBehind (items : List Item) (ht : (blanks >>= fun _ => fromOpening) t = []) :
    listBehind.first? (listChars items ++ t) = some ((listBody items, none), t) :=
  first?_bind (first?_braced items t) (first?_bind (first?_of_singleton (optional_eq ht)) rfl)

/-- A list with an origin is read up to the mark. -/
theorem first?_listBehind_from (items : List Item) (q : Quoted) (t : List Char) :
    listBehind.first? ((listChars items ++ " from ".toList) ++ q.mark :: t)
      = some ((listBody items, some (q.mark :: t)), t) := by
  have hblank : blanks (" from ".toList ++ q.mark :: t)
      = [((), "from".toList ++ ' ' :: q.mark :: t)] :=
    blanks_space rfl
  have hfrom : (blanks >>= fun _ => fromOpening).first? (" from ".toList ++ q.mark :: t)
      = some (q.mark :: t, t) :=
    first?_bind (first?_of_singleton hblank) (first?_fromOpening q t)
  have hassoc :
      (listChars items ++ " from ".toList) ++ q.mark :: t
        = listChars items ++ (" from ".toList ++ q.mark :: t) :=
    List.append_assoc _ _ _
  rw [hassoc]
  exact first?_bind (first?_braced items _) (first?_bind (first?_optional hfrom) rfl)

/-- So is a file that is passed on. -/
theorem first?_wholeBehind (q : Quoted) (t : List Char) :
    wholeBehind.first? ("* from ".toList ++ q.mark :: t) = some (q.mark :: t, t) := by
  have hblank : blanks (" from ".toList ++ q.mark :: t)
      = [((), "from".toList ++ ' ' :: q.mark :: t)] :=
    blanks_space rfl
  have has : Led (text "as" >>= fun _ => blanks1 >>= fun _ => name >>= fun _ => blanks) "as" :=
    led_text_bind "as" _
  have hnone := has.first?_optional (s := "from".toList ++ ' ' :: q.mark :: t)
    (not_prefix_of_head (c := 'a') rfl (show some 'f' ≠ some 'a' by decide))
  exact first?_bind (first?_of_singleton (text_append "*" _))
    (first?_bind (first?_of_singleton hblank) (first?_bind hnone (first?_fromOpening q t)))

/-- So is a file that is passed on under a name. -/
theorem first?_wholeBehind_as (n : Name) (q : Quoted) (t : List Char) :
    wholeBehind.first? (("* as ".toList ++ (n.chars ++ " from ".toList)) ++ q.mark :: t)
      = some (q.mark :: t, t) := by
  have hblank : blanks (" as ".toList ++ (n.chars ++ (" from ".toList ++ q.mark :: t)))
      = [((), "as".toList ++ ' ' :: (n.chars ++ (" from ".toList ++ q.mark :: t)))] :=
        blanks_space rfl
  have hfrom : blanks (" from ".toList ++ q.mark :: t)
      = [((), "from".toList ++ ' ' :: q.mark :: t)] := blanks_space rfl
  have has : (text "as" >>= fun _ => blanks1 >>= fun _ => name >>= fun _ => blanks).first?
      ("as".toList ++ ' ' :: (n.chars ++ (" from ".toList ++ q.mark :: t)))
        = some ((), "from".toList ++ ' ' :: q.mark :: t) :=
    first?_bind (first?_of_singleton (text_append "as" _))
      (first?_bind (first?_of_singleton (blanks1_space (n.head?_append _)))
      (first?_bind (n.first?_chars rfl) (first?_of_singleton hfrom)))
  -- The clause is bracketed from the left, the reading goes from the right.
  have hassoc : (n.chars ++ " from ".toList) ++ q.mark :: t
      = n.chars ++ (" from ".toList ++ q.mark :: t) :=
    List.append_assoc _ _ _
  have hclause : ("* as ".toList ++ (n.chars ++ " from ".toList)) ++ q.mark :: t
      = "*".toList ++ (" as ".toList ++ (n.chars ++ (" from ".toList ++ q.mark :: t))) :=
    congrArg ("* as ".toList ++ ·) hassoc
  rw [hclause]
  exact first?_bind (first?_of_singleton (text_append "*" _))
    (first?_bind (first?_of_singleton hblank)
      (first?_bind (first?_optional has) (first?_fromOpening q t)))

/-- A keyword does not begin with a blank. -/
theorem Keyword.head?_word (keyword : Keyword) (s : List Char) :
    (keyword.word.toList ++ ' ' :: s).head?.any isBlank = false := by
  have hkeyword :=
    keyword.forall_word (fun word => word.toList.head?.any fun c => !isBlank c) (by decide)
  cases hword : keyword.word.toList with
  | nil => rw [hword] at hkeyword; cases hkeyword
  | cons c cs =>
    rw [hword] at hkeyword
    simpa using hkeyword

/-- A free name is read as a whole. -/
theorem FreeName.first?_wholeName (n : FreeName) (ht : t.head?.any isNameChar = false) :
    wholeName.first? (n.chars ++ t) = some (n.chars, t) := by
  obtain ⟨c, cs, hchars, hc, hcs⟩ := n.exists_cons
  have hone : (one isNameStart).first? (c :: cs ++ t) = some (c, cs ++ t) := by
    simp [first?, one, hc]
  have hname : ∀ d ∈ cs, isNameChar d = true := fun d hd => isNameChar_of_isPlainChar (hcs d hd)
  have hend : t.takeWhile isNameChar = [] ∧ t.dropWhile isNameChar = t := by
    cases t with
    | nil => exact ⟨rfl, rfl⟩
    | cons d t => simp_all
  have hall : (all isNameChar).first? (cs ++ t) = some (cs, t) := by
    rw [first?, all, List.takeWhile_append_of_pos hname, List.dropWhile_append_of_pos hname, hend.1,
      hend.2, List.append_nil]
    rfl
  rw [hchars]
  exact first?_bind hone (first?_bind hall rfl)

/-- A declaration is read up to the end of its name. -/
theorem first?_declarationBehind (d : Declared) (ht : t.head?.any isNameChar = false) :
    declarationBehind.first? (d.clause ++ t)
      = some (d.declaration, d.body.toList ++ t) := by
  have hbody := d.head?_body ht
  -- The clause is bracketed as it is read: marker, marker, keyword, name, body.
  have hclause : d.clause ++ t = (if d.isDefault then "default".toList ++ [' '] else [])
      ++ ((if d.isAmbient then "declare".toList ++ [' '] else [])
        ++ (d.keyword.word.toList ++ ' ' :: (d.name.chars ++ (d.body.toList ++ t)))) := by
    have hassoc : ∀ a b c d e f : List Char,
        (a ++ (b ++ (c ++ ' ' :: (d ++ e)))) ++ f = a ++ (b ++ (c ++ ' ' :: (d ++ (e ++ f)))) := by
      simp
    exact hassoc _ _ _ _ _ _
  have hkeyword := d.keyword.head?_word (d.name.chars ++ (d.body.toList ++ t))
  have hambient : ((if d.isAmbient then "declare".toList ++ [' '] else [])
      ++ (d.keyword.word.toList ++ ' ' :: (d.name.chars ++ (d.body.toList ++ t)))).head?.any isBlank
        = false := by
    cases d.isAmbient with
    | false => exact hkeyword
    | true => rfl
  -- Each marker that is not there is not read either.
  have hdefault : (text "default" >>= fun _ => blanks1)
      ((if d.isAmbient then "declare".toList ++ [' '] else [])
      ++ (d.keyword.word.toList ++ ' ' :: (d.name.chars ++ (d.body.toList ++ t)))) = [] := by
    cases d.isAmbient with
    | false =>
      exact led_text_bind "default" _ _ (d.keyword.not_other_word (by decide) (by decide) _)
    | true => rfl
  have hdeclare : (text "declare" >>= fun _ => blanks1)
      (d.keyword.word.toList ++ ' ' :: (d.name.chars ++ (d.body.toList ++ t))) = [] :=
    led_text_bind "declare" _ _ (d.keyword.not_other_word (by decide) (by decide) _)
  obtain ⟨mid, hkind, hmid⟩ := d.keyword.first?_declarationKeyword d.name hbody
  rw [hclause]
  refine first?_bind (first?_marker "default" d.isDefault hambient hdefault) (first?_bind
    (first?_marker "declare" d.isAmbient hkeyword hdeclare)
      (first?_bind hkind (first?_bind (first?_of_singleton hmid)
        (first?_bind (first?_optional (d.name.first?_wholeName hbody)) ?_))))
  unfold Declared.declaration
  cases d.isDefault <;> cases d.isAmbient <;> rfl

/-- The default export of a name declares nothing. -/
theorem declarationBehind_main (n : FreeName) (ht : t.head?.any isNameChar = false) :
    declarationBehind ("default".toList ++ ' ' :: (n.chars ++ t)) = [] := by
  have hdeclare : (text "declare" >>= fun _ => blanks1) ("default".toList ++ ' ' :: (n.chars ++ t))
      = [] := rfl
  have hkeyword : declarationKeyword ("default".toList ++ ' ' :: (n.chars ++ t)) = [] := rfl
  rw [declarationBehind, bind_apply, optional_word "default" (n.head?_append t), List.flatMap_cons,
    List.flatMap_singleton, bind_eq_of_singleton (optional_eq (n.not_word (by decide) ht)),
    bind_eq_nil (n.declarationKeyword_eq_nil ht), bind_eq_of_singleton (optional_eq hdeclare),
    bind_eq_nil hkeyword, List.append_nil]

/-! ### What other patterns read -/

namespace ExportStatement

/-- No other statement has a brace behind `export`. -/
theorem listBehind_eq_nil (s : ExportStatement) (h : s.isList = false) (t : List Char) :
    listBehind (s.clause ++ t) = [] := by
  refine led_braced.bind _ (not_prefix_of_head (c := '\x7b') rfl ?_)
  cases s with
  | declared d => exact d.head?_clause_ne rfl t
  | list items origin? isClosed => cases h
  | whole alias? origin isClosed => cases alias? <;> exact show some '*' ≠ some '\x7b' by decide
  | main n isClosed => exact show some 'd' ≠ some '\x7b' by decide

/-- No other statement has an asterisk there. -/
theorem wholeBehind_eq_nil (s : ExportStatement) (h : s.isWhole = false) (t : List Char) :
    wholeBehind (s.clause ++ t) = [] := by
  refine led_wholeBehind _ (not_prefix_of_head (c := '*') rfl ?_)
  cases s with
  | declared d => exact d.head?_clause_ne rfl t
  | list items origin? isClosed => cases origin? <;> exact show some '\x7b' ≠ some '*' by decide
  | whole alias? origin isClosed => cases h
  | main n isClosed => exact show some 'd' ≠ some '*' by decide

/-- No other statement has a keyword there. -/
theorem declarationBehind_eq_nil (s : ExportStatement) (h : s.isDeclared = false)
    (ht : t.head?.any isNameChar = false) :
    declarationBehind (s.clause ++ t) = [] := by
  cases s with
  | declared d => cases h
  | list items origin? isClosed => cases origin?
    <;> exact Statement.declarationBehind_eq_nil rfl rfl rfl
  | whole alias? origin isClosed => cases alias?
    <;> exact Statement.declarationBehind_eq_nil rfl rfl rfl
  | main n isClosed => exact declarationBehind_main n ht

/-- The word `default` stands there in two kinds of statements. -/
theorem keyword_default_eq_nil (s : ExportStatement) (hmain : s.isMain = false)
    (hdeclares : s.declaresDefault = false) (t : List Char) :
    keyword "default" (s.clause ++ t) = [] := by
  cases s with
  | declared d =>
    change keyword "default" (d.clause ++ t) = []
    rw [Declared.clause, show d.isDefault = false from hdeclares]
    cases d.isAmbient with
    | true => rfl
    | false =>
      change keyword "default" ((d.keyword.word.toList ++ ' ' :: d.nameAndBody) ++ t) = []
      rw [List.append_assoc]
      exact led_text_bind "default" _ _ (d.keyword.not_other_word (by decide) (by decide) _)
  | list items origin? isClosed => cases origin? <;> rfl
  | whole alias? origin isClosed => cases alias? <;> rfl
  | main n isClosed => cases hmain

/-- The word `default` is read off the rest of the clause. -/
theorem exists_clause_default (s : ExportStatement)
    (h : s.isMain = true ∨ s.declaresDefault = true) :
    ∃ more, s.clause = "default".toList ++ ' ' :: more := by
  cases s with
  | declared d =>
    have hdefault : d.isDefault = true := by simpa [isMain, declaresDefault] using h
    change ∃ more, d.clause = _
    rw [Declared.clause, hdefault]
    exact ⟨_, rfl⟩
  | list items origin? isClosed => simp [isMain, declaresDefault] at h
  | whole alias? origin isClosed => simp [isMain, declaresDefault] at h
  | main n isClosed => exact ⟨n.chars, rfl⟩

end ExportStatement

end

end BlastRadius.Statement
