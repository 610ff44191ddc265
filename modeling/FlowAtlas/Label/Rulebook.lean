import FlowAtlas.Data.SortedTexts
import FlowAtlas.Label.Rule

/-!
# The rulebook

Which kind of node is labelled by which rule.  A rule may be registered for several kinds; a kind
has at most one rule.  Any sort of rule can be registered; the rules of this library are label
rules, and `Rulebook.standard` has those for the kinds that the game data uses.
-/

namespace FlowAtlas

/-- Rules by kind of node; label rules, unless another sort is named. -/
abbrev Rulebook (ρ : Type := LabelRule) := OrderedMap String ρ

namespace Rulebook

variable {ρ : Type}

/-- Why a rule cannot be registered. -/
inductive RuleError
  | duplicate (kind : String)
deriving DecidableEq

/-- The error's wording. -/
def RuleError.message : RuleError → String
  | .duplicate kind => "Duplicate label rule for class '" ++ kind ++ "'."

/-- Register a rule for kinds from left to right, up to the first that has a rule. -/
def register (book : Rulebook ρ) (rule : ρ) : List String → Rulebook ρ × Option RuleError
  | [] => (book, none)
  | kind :: rest =>
    if book.contains kind then (book, some (.duplicate kind))
    else register (book.insert kind rule) rule rest

/-- The kinds that have a rule, in code point order. -/
def kinds (book : Rulebook ρ) : List String := sortTexts book.keys

/-- Whether a node of this kind is labelled by a rule. -/
def handles (book : Rulebook ρ) (kind : Option String) : Bool :=
  match kind with
  | some kind => book.contains kind
  | none => false

/-- The rule for a kind. -/
def ruleFor? (book : Rulebook ρ) (kind : Option String) : Option ρ := kind.bind book.get?

/-! ## The standard rules -/

/-- The name of the game token of a node. -/
def token : Piece := .lookup .gameTokens .plain "gametokenid_token"

/-- The name of its metric. -/
def metric : Piece := .lookup .gameMetrics .plain "gamemetric_metric"

/-- The name of its objective. -/
def objective : Piece := .lookup .objectives .unsigned "objective_objective"

/-- The name of its task. -/
def task : Piece := .lookup .tasks .unsigned "task_task"

/-- The name of its location. -/
def location : Piece := .lookup .locations .plain "location_location"

/-- The name of its remote event. -/
def event : Piece := .lookup .remoteEvents .plain "remoteevent_event"

/-- The standard rules, each with the kinds that it is for. -/
def standardRules : List (List String × List Piece) :=
  [ (["Mission:GameTokenSet"],
      [.text "SET TOKEN ", token, .text "=\"", .input "value", .text "\""]),
    (["Mission:GameTokenCheck"],
      [.text "CHECK TOKEN ", token, .text "=\"", .input "checkvalue", .text "\""]),
    (["Mission:GameTokenUpdated"],
      [.text "ON UPDATED TOKEN ", token, .text "=\"", .input "compare_value", .text "\""]),
    (["Mission:GameTokenGet"], [.text "GET TOKEN ", token]),
    (["Mission:GameTokenModify"],
      [.text "MODIFY TOKEN ", token, .text "\nOp=\"", .input "op", .text "\" Type=\"",
        .input "type", .text "\" Value=\"", .input "value", .text "\""]),
    (["Ark:GameMetric"], [.text "METRIC \"", metric, .text "\""]),
    (["Ark:IncrementGameMetric"],
      [.text "INC METRIC \"", metric, .text "\"\nBY ", .input "amount"]),
    (["_comment", "_commentbox"], [.text "[[", .nodeName, .text "]]"]),
    (["Debug:DisplayMessage"], [.text "[[[", .input "message", .text "]]]"]),
    (["Ark:Debug:ConsoleEvent"], [.text "CMD \"", .input "command", .text "\""]),
    (["Ark:EndGame"], [.text "END GAME"]),
    (["Ark:Objectives:ObjectiveState"],
      [.text "OBJECTIVE \"", objective, .text "\"", .onlyIf "settracked" "1" "\nSET TRACKED"]),
    (["Ark:Objectives:GetObjectiveState"],
      [.text "GET OBJECTIVE STATE\n\"", objective, .text "\""]),
    (["Ark:Objectives:ObjectiveNotification"],
      [.text "OBJECTIVE NOTIFICATION\n\"", objective, .text "\""]),
    (["Ark:Objectives:SetTrackedObjective"],
      [.text "SET TRACKED OBJECTIVE\n\"", objective, .text "\""]),
    (["Ark:Objectives:SetObjectiveDescription"],
      [.text "SET DESC \"", .lookup .descriptions .unsigned "objectivedescription_description",
        .text "\""]),
    (["Ark:Objectives:TaskState", "Ark:Objectives:GetTaskState"], [.text "TASK ", task]),
    (["Ark:Objectives:SetTaskLocation"],
      [.text "SET TASK LOCATION\n", task, .text "=", location]),
    (["Ark:Objectives:SetTaskMarkerEntity"], [.text "SET TASK MARKER ENTITY\n", task]),
    (["Ark:Objectives:ShowClue"],
      [.text "SHOW CLUE ", .lookup .clues .unsigned "objectiveclue_clue"]),
    (["Ark:RemoteEvent"], [.text "RECEIVE EVENT\n\"", event, .text "\""]),
    (["Ark:SendRemoteEvent"], [.text "SEND EVENT\n\"", event, .text "\""]),
    (["Ark:Locations:CheckLocation"], [.text "CHECK LOCATION ", location]),
    (["Ark:Locations:SetAlternateName"], [.text "SET ALT LOCATION NAME\n", location]),
    (["Ark:Roster:SetLocation"], [.text "SET ROSTER LOCATION\n", location]),
    (["Ark:PDA:SetStationAccessState"], [.entry .connectivity "stationaccess_access"]),
    (["Ark:PDA:SetStationAirlockState"],
      [.text "Airlock to ", .entryVia .connectivity .locations "stationairlock_airlock"]) ]

/-- The rulebook of the standard rules. -/
def standard : Rulebook :=
  .ofList (standardRules.flatMap fun r => r.1.map fun kind => (kind, ⟨r.2⟩))

end Rulebook

end FlowAtlas
