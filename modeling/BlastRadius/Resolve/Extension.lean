import BlastRadius.Path.Basic

namespace BlastRadius.Resolve

/-!
# Extensions of script files

* `scriptExtensions` — the extensions of script files, in the order in which they are tried.
* `sourceExtensions` — what a compiled extension may stand for.
* `isScript` — whether a path names a script file.
-/

/-- The extensions of script files, in the order in which they are tried. -/
def scriptExtensions : List String :=
  ["ts", "tsx", "js", "jsx", "mjs", "cjs", "mts", "cts"]

/-- The extensions of the files that a file with a compiled extension may be made from. -/
def sourceExtensions : String → List String
  | "js" => ["ts", "tsx"]
  | "jsx" => ["tsx"]
  | "mjs" => ["mts"]
  | "cjs" => ["cts"]
  | _ => []

/-- Whether a path has the extension of a script file. -/
def isScript (p : Path) : Bool :=
  p.extension?.any scriptExtensions.contains

end BlastRadius.Resolve
