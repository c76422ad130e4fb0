import BlastRadius.Json.Number

namespace BlastRadius.Json

/-!
# Tokens of a JSON text

A number or a string may be written according to the rules and still stand for nothing: a number too
large for a double, a string with half a surrogate pair. Such a token has no value, and whoever
needs one refuses it.

* `Token` — brackets, marks, names and literals.
* `stringBody?`, `assemble?` — the parts of a string, and the string.
* `tokens?` — the tokens of a text.
-/

/-- A token of a JSON text. -/
inductive Token where
  | openBrace
  | closeBrace
  | openBracket
  | closeBracket
  | colon
  | comma
  | null
  | bool (value : Bool)
  | num (value : Option Number)
  | str (value : Option String)
deriving Repr

/-! ### Strings -/

/-- A part of a string as it is written: a character, or a code unit given by its number. -/
inductive Part where
  | char (c : Char)
  | unit (n : Nat)
deriving DecidableEq, Repr

/-- The value of a hexadecimal digit. -/
def hexDigit? (c : Char) : Option Nat :=
  if '0' ≤ c ∧ c ≤ '9' then some (c.toNat - '0'.toNat)
  else if 'a' ≤ c ∧ c ≤ 'f' then some (c.toNat - 'a'.toNat + 10)
  else if 'A' ≤ c ∧ c ≤ 'F' then some (c.toNat - 'A'.toNat + 10)
  else none

/-- The code unit that four hexadecimal digits give. -/
def unit? (a b c d : Char) : Option Nat := do
  let a ← hexDigit? a
  let b ← hexDigit? b
  let c ← hexDigit? c
  let d ← hexDigit? d
  return ((a * 16 + b) * 16 + c) * 16 + d

/-- The character that a backslash and a letter stand for. -/
def escape? : Char → Option Char
  | '"' => some '"'
  | '\\' => some '\\'
  | '/' => some '/'
  | 'b' => some '\x08'
  | 'f' => some '\x0c'
  | 'n' => some '\n'
  | 'r' => some '\r'
  | 't' => some '\t'
  | _ => none

/-- The parts of a string up to its closing mark, and what follows the mark. -/
def stringBody? : List Char → Option (List Part × List Char)
  | [] => none
  | '"' :: s => some ([], s)
  | '\\' :: 'u' :: a :: b :: c :: d :: s => do
    let n ← unit? a b c d
    let (parts, rest) ← stringBody? s
    return (.unit n :: parts, rest)
  | '\\' :: c :: s => do
    let c ← escape? c
    let (parts, rest) ← stringBody? s
    return (.char c :: parts, rest)
  | c :: s =>
    if c.toNat < 0x20 ∨ c = '\\' then none
    else do
      let (parts, rest) ← stringBody? s
      return (.char c :: parts, rest)

/-- Whether a code unit is the first half of a surrogate pair. -/
def isHighUnit (n : Nat) : Bool :=
  0xd800 ≤ n && n < 0xdc00

/-- Whether a code unit is the second half of a surrogate pair. -/
def isLowUnit (n : Nat) : Bool :=
  0xdc00 ≤ n && n < 0xe000

/-- The text that the parts of a string stand for. Halves of surrogate pairs have to come in
    pairs. -/
def assemble? : List Part → Option (List Char)
  | [] => some []
  | .char c :: parts => (assemble? parts).map (c :: ·)
  | .unit high :: .unit low :: parts =>
    if isHighUnit high then
      if isLowUnit low then
        (assemble? parts).map (Char.ofNat (0x10000 + (high - 0xd800) * 0x400 + (low - 0xdc00)) :: ·)
      else none
    else if isLowUnit high then none
    else (assemble? (.unit low :: parts)).map (Char.ofNat high :: ·)
  | .unit n :: parts =>
    if isHighUnit n ∨ isLowUnit n then none else (assemble? parts).map (Char.ofNat n :: ·)

/-! ### Texts -/

/-- The blanks of JSON. -/
def isJsonBlank (c : Char) : Bool :=
  c == ' ' || c == '\n' || c == '\t' || c == '\r'

/-- The token at the beginning of a text that starts with `c`, and what follows it. -/
def token? (c : Char) (s : List Char) : Option (Token × List Char) :=
  match c, s with
  | '\x7b', s => some (.openBrace, s)
  | '\x7d', s => some (.closeBrace, s)
  | '[', s => some (.openBracket, s)
  | ']', s => some (.closeBracket, s)
  | ':', s => some (.colon, s)
  | ',', s => some (.comma, s)
  | 'n', 'u' :: 'l' :: 'l' :: s => some (.null, s)
  | 't', 'r' :: 'u' :: 'e' :: s => some (.bool true, s)
  | 'f', 'a' :: 'l' :: 's' :: 'e' :: s => some (.bool false, s)
  | '"', s => do
    let (parts, rest) ← stringBody? s
    return (.str ((assemble? parts).map String.ofList), rest)
  | c, s => do
    let (numeral, rest) ← numeral? (c :: s)
    return (.num numeral.value?, rest)

/-- The tokens of a text, which has at most `fuel` characters. -/
def tokensWithin? : (fuel : Nat) → List Char → Option (List Token)
  | _, [] => some []
  | 0, _ :: _ => none
  | fuel + 1, c :: s =>
    if isJsonBlank c then tokensWithin? fuel s
    else do
      let (token, rest) ← token? c s
      let tokens ← tokensWithin? fuel rest
      return token :: tokens

/-- The tokens of a text. -/
def tokens? (s : List Char) : Option (List Token) :=
  tokensWithin? s.length s

end BlastRadius.Json
