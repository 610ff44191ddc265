import FlowAtlas.Files.Path
import FlowAtlas.FlowGraph
import FlowAtlas.Label.Labeller

/-!
# DOT documents

A flow graph as a document in the DOT language: one statement a line, vertices first.  Every text
stands in double quotes with backslash, quote and newline escaped.  Vertices are pinned to their
positions, which are flattened by a factor in the second coordinate.
-/

namespace FlowAtlas

namespace Dot

/-- Put an escape in place of one character. -/
def replaceChar (c : Char) (escape text : List Char) : List Char :=
  text.flatMap fun d => if d = c then escape else [d]

/-- Escape backslashes, then quotes, then newlines. -/
def escapeChars (text : List Char) : List Char :=
  replaceChar '\n' ['\\', 'n'] (replaceChar '"' ['\\', '"'] (replaceChar '\\' ['\\', '\\'] text))

/-- A text as it stands inside double quotes. -/
def escape (text : String) : String := String.ofList (escapeChars text.toList)

/-- How much of the second coordinate is kept, unless set otherwise. -/
def defaultScale : Binary64 := .ofRatio false 3 4

/-- A position as coordinates that the layout does not move. -/
def pinned (position : Position) (scale : Binary64) : String :=
  position.x.fixed 6 ++ ", " ++ (position.y * scale).fixed 6 ++ "!"

/-- The statement of a vertex. -/
def vertexStatement (id label position : String) : String :=
  "  \"" ++ escape id ++ "\" [ label=\"" ++ escape label ++ "\" pos=\"" ++ position ++ "\" ];"

/-- The statement of an arc. -/
def arcStatement (source target label : String) : String :=
  "  \"" ++ escape source ++ "\" -> \"" ++ escape target ++ "\" [ label=\"" ++ escape label ++
    "\" ];"

/-- Lines, each with its end. -/
def document (lines : List String) : String := String.join (lines.map (· ++ "\n"))

/-- The statements of vertices, labelled one after the other; they come in reverse. -/
def vertexStatements (scale : Binary64) (labeller : Labeller) (vertices : List (String × Node)) :
    Logged (List String × Labeller) :=
  Logged.fold (fun state vertex => do
    let (label, labeller) ← state.2.label vertex.2
    pure (vertexStatement vertex.1 label (pinned vertex.2.position scale) :: state.1, labeller))
    ([], labeller) vertices

/-- The document of a flow graph. -/
def serialize (graph : FlowGraph) (scale : Binary64) (labeller : Labeller) :
    Logged (String × Labeller) := do
  let (vertices, labeller) ← vertexStatements scale labeller graph.network.vertices.entries
  let arcs := graph.network.arcs.map fun a => arcStatement a.source a.target a.label.label
  pure (document (["digraph G \x7b"] ++ vertices.reverse ++ arcs ++ ["\x7d"]), labeller)

/-- What the document of a scope of a source is called. -/
def documentName (source : Path) (scope : Scope) : String :=
  match scope.entity with
  | some name => if scope.trailing || name = "" then source.stem else source.stem ++ "_" ++ name
  | none => source.stem

end Dot

end FlowAtlas
