import FlowAtlas.Data.OrderedMap

/-!
# Name tables

Nodes refer to game data by ids.  There are nine tables that turn ids into names; the connectivity
table turns the id of an airlock into the id of a location.  A table may know an id without a name,
and a record without an id is filed under the absent id.
-/

namespace FlowAtlas

/-- Names by id, both possibly absent. -/
abbrev Table := OrderedMap (Option String) (Option String)

/-- What a table is about. -/
inductive TableKind
  | gameTokens
  | gameMetrics
  | remoteEvents
  | objectives
  | tasks
  | descriptions
  | clues
  | locations
  | connectivity
deriving DecidableEq

namespace TableKind

/-- All kinds in the order in which they are reported. -/
def all : List TableKind :=
  [gameTokens, gameMetrics, remoteEvents, objectives, tasks, descriptions, clues, locations,
    connectivity]

/-- The name of a table in reports. -/
def name : TableKind → String
  | .gameTokens => "game_tokens"
  | .gameMetrics => "game_metrics"
  | .remoteEvents => "remote_events"
  | .objectives => "objectives"
  | .tasks => "tasks"
  | .descriptions => "descriptions"
  | .clues => "clues"
  | .locations => "locations"
  | .connectivity => "connectivity"

end TableKind

/-- The tables of one set of game data. -/
structure Tables where
  table : TableKind → Table

namespace Tables

/-- No id is known. -/
def blank : Tables := ⟨fun _ => .empty⟩

instance : Inhabited Tables := ⟨blank⟩

/-- The number of ids that each table knows. -/
def sizes (tables : Tables) : List (TableKind × Nat) :=
  TableKind.all.map fun kind => (kind, (tables.table kind).size)

/-- The name filed under a possibly absent id; absent if there is no such entry. -/
def nameUnder (tables : Tables) (kind : TableKind) (id : Option String) : Option String :=
  ((tables.table kind).get? id).join

end Tables

end FlowAtlas
