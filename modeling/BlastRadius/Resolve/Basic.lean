import BlastRadius.Path.Map
import BlastRadius.Path.Normal
import BlastRadius.Resolve.Alias
import BlastRadius.Resolve.Extension
import BlastRadius.Text.Blank

namespace BlastRadius.Resolve

/-!
# Resolution of specifiers

Resolution asks only which files are known, never a disk.

* `Context` — the alias table and the known files.
* `candidates`, `Context.probe?` — the files that a path may stand for, and the first known one.
* `Context.resolve?` — the file that a specifier stands for.
-/

open Text

/-- What specifiers are resolved against. -/
structure Context where
  aliases : AliasTable
  known : PathSet

/-- The files that a path may stand for, in order of preference: the path itself, the file it is
    made from, the path with an extension, and the index file of a directory. -/
def candidates (base : Path) : List Path :=
  base :: ((base.extension?.map sourceExtensions).getD []).map base.withExtension
    ++ scriptExtensions.map (fun ext => base.append ("." ++ ext))
    ++ scriptExtensions.map (fun ext => base.child ("index." ++ ext))

/-- The first known file that a path may stand for. -/
def Context.probe? (c : Context) (base : Path) : Option Path :=
  (candidates base).find? c.known.contains

/-- Whether a specifier is seen from the directory of its file, or from the root. -/
def isAnchored (specifier : List Char) : Bool :=
  match specifier with
  | '.' :: _ => true
  | '/' :: _ => true
  | _ => false

/-- The path that a target of an alias stands for, given what the pattern leaves of the
    specifier. -/
def aliasPath (form : Pattern) (rest : List Char) (target : Path) : Path :=
  if rest.isEmpty then target
  else if form.isWildcard then
    (target.child (String.ofList (rest.dropWhile (· == '/')))).normalize
  else (target.append (String.ofList rest)).normalize

/-- The first known file that an alias leads to. -/
def Context.followAlias? (c : Context) (specifier : List Char) (entry : Alias) : Option Path := do
  let rest ← stripPrefix? entry.form.front specifier
  entry.targets.findSome? fun target => c.probe? (aliasPath entry.form rest target)

/-- The file that a specifier stands for in a file of `directory`. A specifier that starts with `.`
    or `/` always stands for a path, known or not; any other one for a known file or for nothing. -/
def Context.resolve? (c : Context) (specifier : String) (directory : Path) : Option Path :=
  let text := specifier.toList
  if text.isEmpty then none
  else if isAnchored text then
    let base := (directory.child specifier).normalize
    some ((c.probe? base).getD base)
  else
    match c.probe? (c.aliases.baseUrl.child specifier).normalize with
    | some hit => some hit
    | none => c.aliases.entries.findSome? (c.followAlias? text)

end BlastRadius.Resolve
