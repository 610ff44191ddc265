import FlowAtlas.Markup
import FlowAtlas.Number.Integer
import FlowAtlas.Tables.Basic

/-!
# Label rules

A label rule is a row of pieces: fixed texts, inputs of the node, its name, and names from the
tables.  A piece that meets an absent value says nothing, and the mark `<missing>` stands in its
place.  No value of a source contains `<`, so the mark is not taken for data.
-/

namespace FlowAtlas

/-- The mark in place of a value that is absent. -/
def missingMark : String := "<missing>"

/-- How the ids of a table are written. -/
inductive IdForm
  /-- As the nodes write them. -/
  | plain
  /-- As unsigned 64-bit numbers. -/
  | unsigned
deriving DecidableEq

/-- An id in the form of its table. -/
def IdForm.of : IdForm → String → String
  | .plain, id => id
  | .unsigned, id => unsigned64 id

/-- A piece of a label. -/
inductive Piece
  | text (words : String)
  /-- The value of an input. -/
  | input (key : String)
  /-- The node's name. -/
  | nodeName
  /-- The name of the id that an input holds; the id itself if the table does not know it. -/
  | lookup (kind : TableKind) (form : IdForm) (key : String)
  /-- A text that is there only if an input has the given value. -/
  | onlyIf (key value words : String)
  /-- The entry of a table under an input, or under the absent id if there is no such input. -/
  | entry (kind : TableKind) (key : String)
  /-- The entry of a second table under such an entry of a first. -/
  | entryVia (first second : TableKind) (key : String)
  /-- Never anything. -/
  | nothing
deriving DecidableEq

/-- The name of an id in a table; the id itself if the table does not know it. -/
def Tables.nameOf (tables : Tables) (kind : TableKind) (id : String) : Option String :=
  match (tables.table kind).get? (some id) with
  | none => some id
  | some name => name

/-- What a piece says of a node with the given name and inputs. -/
def Piece.eval (tables : Tables) (name : Option String) (inputs : Attributes) :
    Piece → Option String
  | .text words => some words
  | .input key => inputs.get? key
  | .nodeName => name
  | .lookup kind form key => (inputs.get? key).bind fun id => tables.nameOf kind (form.of id)
  | .onlyIf key value words => some (if inputs.get? key = some value then words else "")
  | .entry kind key => tables.nameUnder kind (inputs.get? key)
  | .entryVia first second key =>
    tables.nameUnder second (tables.nameUnder first (inputs.get? key))
  | .nothing => none

/-- The pieces of a label in order. -/
structure LabelRule where
  pieces : List Piece
deriving DecidableEq

namespace LabelRule

/-- The rule that says the same of every node, or never anything. -/
def constant : Option String → LabelRule
  | some text => ⟨[.text text]⟩
  | none => ⟨[.nothing]⟩

/-- What the rule says, with the mark in every place where a value is absent. -/
def render (tables : Tables) (name : Option String) (inputs : Attributes) (rule : LabelRule) :
    String :=
  String.join (rule.pieces.map fun piece => (piece.eval tables name inputs).getD missingMark)

end LabelRule

/-! ## Handlers -/

/-- Whatever labels nodes: by the tables, the node's name and its inputs it says a label, or it says
nothing. -/
abbrev Handler := Tables → Option String → Attributes → Option String

/-- A label rule as a handler; it always says something. -/
def LabelRule.handler (rule : LabelRule) : Handler := fun tables name inputs =>
  some (rule.render tables name inputs)

end FlowAtlas
