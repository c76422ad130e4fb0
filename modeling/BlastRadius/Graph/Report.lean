import BlastRadius.Graph.Snapshot
import BlastRadius.Graph.Summary

namespace BlastRadius.Graph

/-!
# Reports

The answers about a graph, as JSON.
-/

/-- Paths as JSON. -/
def pathsJson (ps : List Path) : Json :=
  .arr (ps.map pathJson)

/-- A mean as JSON. -/
def Mean.toJson (m : Mean) : Json :=
  .num (.real m.toFloat)

/-- A ranked file as JSON. -/
def Ranked.toJson (r : Ranked) : Json :=
  .obj [("path", pathJson r.path), ("count", .nat r.count)]

/-- A cycle as JSON. -/
def Cycle.toJson (c : Cycle) : Json :=
  .obj [("files", pathsJson c.files)]

/-- An impact as JSON. -/
def Impact.toJson (i : Impact) : Json :=
  .obj [
    ("file", pathJson i.file),
    ("directDependents", pathsJson i.direct),
    ("transitiveDependents", pathsJson i.transitive),
    ("totalAffected", .nat i.total),
    ("criticalExports", textsJson i.criticalExports)]

/-- A found file as JSON. -/
def Match.toJson (m : Match) : Json :=
  .obj [
    ("path", pathJson m.path),
    ("relativePath", pathJson m.relativePath),
    ("dependentCount", .nat m.dependentCount),
    ("exports", textsJson m.exports)]

/-- A summary as JSON. -/
def Summary.toJson (s : Summary) : Json :=
  .obj [
    ("totalFiles", .nat s.totalFiles),
    ("totalEdges", .nat s.totalEdges),
    ("avgDependents", s.avgDependents.toJson),
    ("maxDependents", .nat s.maxDependents),
    ("maxDependentsFile", .ofOption pathJson s.maxDependentsFile),
    ("avgDepth", s.avgDepth.toJson),
    ("maxDepth", .nat s.maxDepth),
    ("maxDepthPath", pathsJson s.maxDepthPath),
    ("orphanFiles", pathsJson s.orphanFiles),
    ("godModules", .arr (s.godModules.map (·.toJson))),
    ("highImpactFiles", .arr (s.highImpactFiles.map (·.toJson))),
    ("circularDependencies", .arr (s.cycles.map (·.toJson)))]

end BlastRadius.Graph
