namespace BlastRadius.Source

/-!
# Regions of a source text

Every byte of a source text belongs to a region: code, comment, one of the two delimiters of a
literal, or the body of one. One pass from left to right, with a look at the next byte, decides it.
All that the pass looks for is ASCII, so it need not know where characters begin.

* `Region` — the five regions.
* `Context` — what the pass is inside of.
* `regionsFrom` — the region of every byte.
* `classified` — the bytes of a text with their regions.
-/

/-- The byte of a newline. -/
def newline : UInt8 := 0x0a

/-- What a byte of a source text belongs to. -/
inductive Region where
  /-- Program text, and the newline that ends a line comment or breaks off a literal. -/
  | code
  /-- A comment with its delimiters. -/
  | comment
  /-- The quotation mark that opens a literal. -/
  | opening
  /-- The quotation mark that closes a literal. -/
  | closing
  /-- What stands between the quotation marks of a literal. -/
  | body
deriving DecidableEq, Repr

/-- What the next byte is read inside of. -/
inductive Context where
  | code
  | lineComment
  | blockComment
  /-- A literal that the given quotation mark closes. -/
  | literal (mark : UInt8)
deriving DecidableEq, Repr

/-- The quotation marks that open a literal: `"`, `'` and the backquote. -/
def isMark (b : UInt8) : Bool :=
  b == 0x22 || b == 0x27 || b == 0x60

/-- Whether a literal with this mark may run over several lines: only a backquote does. -/
def spansLines (mark : UInt8) : Bool :=
  mark == 0x60

/-- The region of every byte of a text that starts inside of a context. `//` and `/*` start a
    comment and `*/` ends one. A backslash in a literal takes the next byte with it, whatever that
    is. -/
def regionsFrom : Context → List UInt8 → List Region
  | _, [] => []
  | .code, 0x2f :: 0x2f :: bytes => .comment :: .comment :: regionsFrom .lineComment bytes
  | .code, 0x2f :: 0x2a :: bytes => .comment :: .comment :: regionsFrom .blockComment bytes
  | .code, b :: bytes =>
    if isMark b then .opening :: regionsFrom (.literal b) bytes
      else .code :: regionsFrom .code bytes
  | .lineComment, b :: bytes =>
    if b = newline then .code :: regionsFrom .code bytes
      else .comment :: regionsFrom .lineComment bytes
  | .blockComment, 0x2a :: 0x2f :: bytes => .comment :: .comment :: regionsFrom .code bytes
  | .blockComment, _ :: bytes => .comment :: regionsFrom .blockComment bytes
  | .literal mark, 0x5c :: _ :: bytes => .body :: .body :: regionsFrom (.literal mark) bytes
  | .literal mark, b :: bytes =>
    if b = mark then .closing :: regionsFrom .code bytes
    else if b = newline ∧ ¬spansLines mark then .code :: regionsFrom .code bytes
    else .body :: regionsFrom (.literal mark) bytes

/-- Every byte has exactly one region. -/
theorem length_regionsFrom (context : Context) (bytes : List UInt8) :
    (regionsFrom context bytes).length = bytes.length := by
  fun_induction regionsFrom context bytes <;> simp_all

/-- The bytes of a text that starts inside of a context, each with its region. -/
def classifiedFrom (context : Context) (bytes : List UInt8) : List (UInt8 × Region) :=
  bytes.zip (regionsFrom context bytes)

/-- The bytes of a source text, each with its region. -/
def classified (bytes : List UInt8) : List (UInt8 × Region) :=
  classifiedFrom .code bytes

end BlastRadius.Source
