import BlastRadius.Path.Imprint
import BlastRadius.Resolve.Basic

namespace BlastRadius.Resolve

/-!
# Fingerprints of a resolution context

* `Fingerprint` — the bytes that stand for known files and an alias table.
* `fingerprint` — the fingerprint of known files and an alias table.
-/

open Text Digest

/-- The bytes that stand for what the answers of resolution depend on. -/
structure Fingerprint where
  bytes : List UInt8
deriving DecidableEq, Repr

/-- The bytes of some items, with their number in front. -/
def counted {α : Type} (bytes : α → List UInt8) (items : List α) : List UInt8 :=
  littleEndian items.length.toUInt64 ++ items.flatMap bytes

/-- The bytes of a text, with one behind them that no text has. -/
def closed (text : String) : List UInt8 :=
  utf8 text.toList ++ [0xff]

/-- The bytes of an alias. -/
def Alias.bytes (a : Alias) : List UInt8 :=
  closed a.pattern ++ counted Path.imprint a.targets

/-- The fingerprint of known files and an alias table. The order in which the files are given does
    not matter. -/
def fingerprint (known : List Path) (aliases : AliasTable) : Fingerprint where
  bytes := counted Path.imprint (known.mergeSort Path.precedes) ++ aliases.baseUrl.imprint
    ++ counted Alias.bytes aliases.entries

/-- The fingerprint of a context. -/
def Context.fingerprint (c : Context) : Fingerprint :=
  Resolve.fingerprint c.known.paths c.aliases

end BlastRadius.Resolve
