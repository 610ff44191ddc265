import FlowAtlas.Renderer

/-!
# Quality reports

What a source file gave: counts of scopes, nodes and edges, and warnings about edges that dangle and
images that could not be made.
-/

namespace FlowAtlas

/-- What is known of an exported document. -/
structure Export where
  /-- The name of the document without its suffix. -/
  name : String
  nodeCount : Int
  /-- How many edges the graph has. -/
  edgeCount : Int
  /-- How many edges the scope declares. -/
  declaredCount : Int
  danglingCount : Int
deriving DecidableEq

/-- What a drawing leaves for the report. -/
structure DrawingResult where
  document : Path
  ok : Bool
  detail : String
deriving DecidableEq

/-- A quality report. -/
structure Report where
  scopeCount : Nat
  nodeCount : Int
  edgeCount : Int
  danglingCount : Int
  failureCount : Nat
  warnings : List String
deriving DecidableEq

namespace Report

/-- The warning about a document, if edges of its scope dangle. -/
def danglingWarning? (e : Export) : Option String :=
  if e.danglingCount = 0 then none
  else
    some (e.name ++ ": " ++ Text.signedDecimal e.danglingCount ++ " of " ++
      Text.signedDecimal e.declaredCount ++ " edges reference undeclared nodes")

/-- The warning about an image, if it could not be made. -/
def drawingWarning? (d : DrawingResult) : Option String :=
  if d.ok then none else some (d.document.name ++ ": render failed (" ++ d.detail ++ ")")

/-- The sum of a count over exports. -/
def total (count : Export → Int) (exports : List Export) : Int :=
  exports.foldr (fun e sum => count e + sum) 0

/-- The report on exports and drawings. -/
def of (exports : List Export) (drawings : List DrawingResult) : Report where
  scopeCount := exports.length
  nodeCount := total Export.nodeCount exports
  edgeCount := total Export.edgeCount exports
  danglingCount := total Export.danglingCount exports
  failureCount := (drawings.filter fun d => !d.ok).length
  warnings := exports.filterMap danglingWarning? ++ drawings.filterMap drawingWarning?

/-- The report on nothing. -/
def blank : Report := .of [] []

instance : Inhabited Report := ⟨blank⟩

end Report

/-- What a drawing leaves for the report. -/
def Drawing.result (d : Drawing) : DrawingResult := ⟨d.document, d.ok, d.detail⟩

/-! ## Partial exports -/

/-- The facts about an export that a report reads. -/
inductive ExportField
  | name
  | nodeCount
  | edgeCount
  | declaredCount
  | danglingCount
deriving DecidableEq

/-- The name of a fact where exports are written as records. -/
def ExportField.label : ExportField → String
  | .name => "stem"
  | .nodeCount => "node_count"
  | .edgeCount => "edge_count"
  | .declaredCount => "declared_edge_count"
  | .danglingCount => "dangling_edge_count"

/-- An export of which facts may be missing. -/
structure PartialExport where
  name : Option String
  nodeCount : Option Int
  edgeCount : Option Int
  declaredCount : Option Int
  danglingCount : Option Int
deriving DecidableEq

namespace PartialExport

/-- The export with nothing or zero for what is missing. -/
def complete (e : PartialExport) : Export :=
  ⟨e.name.getD "", e.nodeCount.getD 0, e.edgeCount.getD 0, e.declaredCount.getD 0,
    e.danglingCount.getD 0⟩

/-- The first fact that the warnings miss.  The name and the declared edges are needed only if edges
dangle. -/
def missingForWarning (e : PartialExport) : Option ExportField :=
  match e.danglingCount with
  | none => some .danglingCount
  | some count =>
    if count = 0 then none
    else if e.name.isNone then some .name
    else if e.declaredCount.isNone then some .declaredCount
    else none

/-- The first fact that the report on some exports misses: it needs what the warnings need, then all
counts of nodes, then all counts of edges. -/
def firstMissing (exports : List PartialExport) : Option ExportField :=
  (exports.findSome? missingForWarning).or
    ((exports.findSome? fun e => if e.nodeCount.isNone then some .nodeCount else none).or
      (exports.findSome? fun e => if e.edgeCount.isNone then some .edgeCount else none))

end PartialExport

/-- The report on exports with possibly missing facts; fails with the first that is needed. -/
def Report.ofPartial (exports : List PartialExport) (drawings : List DrawingResult) :
    Except ExportField Report :=
  match PartialExport.firstMissing exports with
  | some field => .error field
  | none => .ok (.of (exports.map PartialExport.complete) drawings)

end FlowAtlas
