import FlowAtlas.Data.OrderedMap
import FlowAtlas.Files.Path
import FlowAtlas.Number.Decimal

/-!
# Settings

What a run can be told: where the game data lies, where drawings go, how images are made, and how
labels and positions are written.  Settings come from defaults, then from environment variables,
then from the command line, and are checked: the time limit of the renderer and the length of labels
have to be positive.
-/

namespace FlowAtlas

/-- Where the name tables come from, relative to the root of the game data. -/
structure SourceLayout where
  gameTokens : Path
  gameMetrics : Path
  remoteEvents : Path
  objectives : Path
  locations : Path
  connectivity : Path
deriving DecidableEq

/-- Where the game keeps them. -/
def SourceLayout.standard : SourceLayout where
  gameTokens := ⟨.here, ["Libs", "GameTokens", "GT_Global.xml"]⟩
  gameMetrics := ⟨.here, ["Ark", "Player", "GameMetrics.xml"]⟩
  remoteEvents := ⟨.here, ["Ark", "RemoteEventLibrary.xml"]⟩
  objectives := ⟨.here, ["Ark", "Campaign", "Objectives"]⟩
  locations := ⟨.here, ["Ark", "Campaign", "Locations.xml"]⟩
  connectivity := ⟨.here, ["Ark", "Campaign", "StationAccessLibrary.xml"]⟩

/-- The settings of a run. -/
structure Settings where
  /-- The root of the game data. -/
  sourceRoot : Path
  /-- Where drawings go, if it is not below the root. -/
  outputDir : Option Path
  /-- Where sources are looked for if none is named, relative to the root. -/
  actionsDir : Path
  /-- The renderer. -/
  executable : String
  /-- Its layout engine. -/
  engine : String
  /-- The format of images. -/
  format : String
  /-- How many seconds the renderer may take. -/
  timeout : Binary64
  maxLabelLength : Int
  /-- The factor of the second coordinate. -/
  yScale : Binary64
  layout : SourceLayout
deriving DecidableEq

/-- Why settings are refused. -/
inductive SettingsError
  | notANumber (text : String)
  /-- The switch for the time limit has no value. -/
  | noTimeout
  | timeoutNotPositive (timeout : Binary64)
  | labelLengthNotPositive (length : Int)
deriving DecidableEq

/-- The error's wording. -/
def SettingsError.message : SettingsError → String
  | .notANumber text => "could not convert string to float: " ++ Text.quoted text
  | .noTimeout => "no render_timeout to compare"
  | .timeoutNotPositive timeout => "render_timeout must be positive, got " ++ timeout.shortest
  | .labelLengthNotPositive length =>
    "max_label_length must be positive, got " ++ Text.signedDecimal length

namespace Settings

/-- The settings of a run that is told nothing. -/
def standard : Settings where
  sourceRoot := .here
  outputDir := none
  actionsDir := ⟨.here, ["Libs", "GlobalActions"]⟩
  executable := "dot"
  engine := "neato"
  format := "png"
  timeout := .ofRatio false 10 1
  maxLabelLength := 100
  yScale := .ofRatio false 3 4
  layout := .standard

instance : Inhabited Settings := ⟨standard⟩

/-- The settings if they can be used. -/
def check (s : Settings) : Except SettingsError Settings :=
  if s.timeout.isAtMostZero then .error (.timeoutNotPositive s.timeout)
  else if s.maxLabelLength ≤ 0 then .error (.labelLengthNotPositive s.maxLabelLength)
  else .ok s

/-- Where drawings go. -/
def resolvedOutputDir (s : Settings) : Path :=
  s.outputDir.getD (s.sourceRoot.join ⟨.here, ["_PostProcessingOutput", "FlowGraphOutput"]⟩)

/-- Where sources are looked for if none is named. -/
def resolvedActionsDir (s : Settings) : Path := s.sourceRoot.join s.actionsDir

/-- Environment variables. -/
abbrev Environment := OrderedMap String String

/-- The variables that are read. -/
inductive Variable
  | sourceRoot
  | outputDir
  | actionsDir
  | executable
  | format
  | timeout
deriving DecidableEq

/-- All variables that are read. -/
def Variable.all : List Variable :=
  [sourceRoot, outputDir, actionsDir, executable, format, timeout]

/-- The variable's name in the environment. -/
def Variable.name : Variable → String
  | .sourceRoot => "FLOWGRAPH_SOURCE_ROOT"
  | .outputDir => "FLOWGRAPH_OUTPUT_DIR"
  | .actionsDir => "FLOWGRAPH_ACTIONS_DIR"
  | .executable => "FLOWGRAPH_DOT_EXECUTABLE"
  | .format => "FLOWGRAPH_RENDER_FORMAT"
  | .timeout => "FLOWGRAPH_RENDER_TIMEOUT"

/-- The variable's value, if it is set. -/
def Variable.valueIn (v : Variable) (env : Environment) : Option String :=
  env.get? v.name

/-- The time limit that the environment sets. -/
def timeoutIn (env : Environment) : Except SettingsError Binary64 :=
  match Variable.timeout.valueIn env with
  | none => .ok standard.timeout
  | some text =>
    match Binary64.read? text with
    | some timeout => .ok timeout
    | none => .error (.notANumber text)

/-- The settings that environment variables give; an empty output directory counts as unset. -/
def ofEnvironment (env : Environment) : Except SettingsError Settings := do
  let timeout ← timeoutIn env
  check
    { standard with
      sourceRoot := ((Variable.sourceRoot.valueIn env).map Path.ofText).getD standard.sourceRoot
      outputDir :=
        ((Variable.outputDir.valueIn env).filter fun text => text ≠ "").map Path.ofText
      actionsDir := ((Variable.actionsDir.valueIn env).map Path.ofText).getD standard.actionsDir
      executable := (Variable.executable.valueIn env).getD standard.executable
      format := (Variable.format.valueIn env).getD standard.format
      timeout }

end Settings

end FlowAtlas
