import BlastRadius.Digest.Sha256
import BlastRadius.Disk.Basic
import BlastRadius.Graph.Node
import BlastRadius.Resolve.Basic
import BlastRadius.Source.Mask

namespace BlastRadius.Project

/-!
# Analysis of a file

* `contentHash` — a short digest of a text.
* `analyzeText` — the analysed file of a text.
* `analyzeFile?` — the analysed file of a path.
-/

open BlastRadius.Graph Source Statement Text

/-- The number of bytes of a digest that a node keeps. -/
def hashBytes : Nat := 8

/-- The first bytes of the SHA-256 digest of a text, in hexadecimal. -/
def contentHash (content : List Char) : String :=
  Digest.hex ((Digest.sha256 (utf8 content)).take hashBytes)

/-- An import statement of a file, with the file that it leads to. -/
def edgeOf (context : Resolve.Context) (path : Path) (content : List Char) (i : Import) :
    ImportEdge where
  source := path
  target := context.resolve? i.specifier (path.parent?.getD path)
  specifier := i.specifier
  symbols := i.symbols
  isTypeOnly := i.isTypeOnly
  isDynamic := i.isDynamic
  line := lineOf content i.offset

/-- The path as seen from the project's root, or the path itself if it is elsewhere. -/
def relativePath (root path : Path) : Path :=
  (path.relativeTo? root).getD path

/-- The analysed file of a text. Without a size from the disk the size of the text counts. -/
def analyzeText (root : Path) (context : Resolve.Context) (path : Path) (content : List Char)
    (lastModified : Nat) (size : Option Nat) : FileNode :=
  let masked := mask .literals content
  {
    path
    relativePath := relativePath root path
    imports := (imports masked content).map (edgeOf context path content)
    exports := exports masked content
    lastModified
    hash := contentHash content
    size := size.getD (byteSize content)
    lineCount := lineCount content }

/-- The analysed file of a path, if it can be read. -/
def analyzeFile? (d : Disk) (root : Path) (context : Resolve.Context) (path : Path) :
    Option FileNode := do
  let data ← (d.read path).toOption
  return analyzeText root context path (decodeLossy data.bytes) data.modified
    (some data.bytes.length)

end BlastRadius.Project
