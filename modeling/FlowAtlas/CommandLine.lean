import FlowAtlas.Settings
import FlowAtlas.Text.Digit

/-!
# The command line

Words starting with a dash are switches unless they are a number or hold a space; a switch may be
cut short as long as it is the only one that starts so, and may carry its value behind `=`, where
`--` is no value.  All words behind `--` are inputs.  Inputs stand together: the first row of them
is taken, any later one is refused.

`CommandLine.parse` reads words to `Arguments`; `Arguments.settings` lays them over the environment.
-/

namespace FlowAtlas

/-! ## Switches -/

/-- The switches of the program. -/
inductive Switch
  | help
  | sourceRoot
  | outputDir
  | dot
  | timeout
  | noRender
  | verbose
deriving DecidableEq

namespace Switch

/-- All switches in the order in which they are listed. -/
def all : List Switch := [help, sourceRoot, outputDir, dot, timeout, noRender, verbose]

/-- The full spelling. -/
def spelling : Switch → String
  | .help => "--help"
  | .sourceRoot => "--source-root"
  | .outputDir => "--output-dir"
  | .dot => "--dot"
  | .timeout => "--timeout"
  | .noRender => "--no-render"
  | .verbose => "--verbose"

/-- All spellings, as messages name the switch. -/
def title : Switch → String
  | .help => "-h/--help"
  | switch => switch.spelling

/-- Whether a value belongs to the switch. -/
def takesValue : Switch → Bool
  | .sourceRoot | .outputDir | .dot | .timeout => true
  | .help | .noRender | .verbose => false

/-- The switches whose spelling starts with a text. -/
def startingWith (text : List Char) : List Switch :=
  all.filter fun s => text.isPrefixOf s.spelling.toList

end Switch

/-- How a command line is written. -/
def CommandLine.usage : String :=
  "usage: flowgraph-viz " ++
    " ".intercalate (Switch.all.map fun s =>
      "[" ++ s.spelling ++ (if s.takesValue then " VALUE" else "") ++ "]") ++ " [inputs ...]"

/-- Why a command line is refused. -/
inductive UsageError
  | ambiguous (word : String) (candidates : List Switch)
  | valueMissing (switch : Switch)
  | valueIgnored (switch : Switch) (value : String)
  | notANumber (switch : Switch) (value : String)
  | unrecognized (words : List String)
deriving DecidableEq

/-- The error's wording. -/
def UsageError.message : UsageError → String
  | .ambiguous word candidates =>
    "ambiguous option: " ++ word ++ " could match " ++
      ", ".intercalate (candidates.map Switch.spelling)
  | .valueMissing switch => "argument " ++ switch.title ++ ": expected one argument"
  | .valueIgnored switch value =>
    "argument " ++ switch.title ++ ": ignored explicit argument " ++ Text.quoted value
  | .notANumber switch value =>
    "argument " ++ switch.title ++ ": invalid float value: " ++ Text.quoted value
  | .unrecognized words => "unrecognized arguments: " ++ " ".intercalate words

/-- What is written when a command line is refused. -/
def UsageError.report (e : UsageError) : String := "flowgraph-viz: error: " ++ e.message

namespace CommandLine

/-! ## Words -/

/-- What a word of the command line is. -/
inductive Word
  | plain (text : String)
  /-- The word `--`. -/
  | separator
  | switch (switch : Switch) (attached : Option String)
  /-- The letters behind `-h`, at least one; an equals sign right behind it does not count. -/
  | cluster (letters : List Char)
  /-- A switch that the program does not have. -/
  | unknown (text : String)
deriving DecidableEq

/-- A minus and decimal digits, possibly with a point before the last ones; a newline may follow. -/
def isNegativeNumber (word : List Char) : Bool :=
  match word with
  | '-' :: body =>
    let body := if body.getLast? = some '\n' then body.dropLast else body
    match body.dropWhile Text.isDecimal with
    | [] => !body.isEmpty
    | '.' :: digits => !digits.isEmpty && digits.all Text.isDecimal
    | _ => false
  | _ => false

/-- A word that starts with a dash and is no switch. -/
def nonSwitch (word : String) : Word :=
  if isNegativeNumber word.toList || word.toList.contains ' ' then .plain word else .unknown word

/-- A word that starts with two dashes: the part before `=` names a switch, in full or cut short. -/
def longWord (word : String) : Except UsageError Word :=
  let name := word.toList.takeWhile (· ≠ '=')
  let attached :=
    match word.toList.dropWhile (· ≠ '=') with
    | '=' :: value => some (String.ofList value)
    | _ => none
  match Switch.all.find? fun s => s.spelling.toList = name with
  | some s => .ok (.switch s attached)
  | none =>
    match Switch.startingWith name with
    | [] => .ok (nonSwitch word)
    | [s] => .ok (.switch s attached)
    | candidates => .error (.ambiguous word candidates)

/-- What a word is that stands before any separator. -/
def classifyWord (word : String) : Except UsageError Word :=
  match word.toList with
  | ['-', '-'] => .ok .separator
  | '-' :: '-' :: _ => longWord word
  | ['-', 'h'] => .ok (.switch .help none)
  | ['-', 'h', '='] => .ok (.switch .help (some ""))
  | '-' :: 'h' :: '=' :: letters => .ok (.cluster letters)
  | '-' :: 'h' :: letters => .ok (.cluster letters)
  | '-' :: _ :: _ => .ok (nonSwitch word)
  | _ => .ok (.plain word)

/-- What the words are; behind a separator all are plain. -/
def classify : List String → Except UsageError (List Word)
  | [] => .ok []
  | word :: rest => do
    match ← classifyWord word with
    | .separator => .ok (.separator :: rest.map .plain)
    | w => return w :: (← classify rest)

/-- The first of the letters behind `-h` that is not `h` once more, and all behind it: help takes no
value, and there is no other switch of one letter. -/
def ignoredValue? : List Char → Option String
  | [] => none
  | 'h' :: rest => ignoredValue? rest
  | value => some (String.ofList value)

end CommandLine

/-! ## Arguments -/

/-- What the command line says of a setting. -/
inductive Choice (α : Type)
  /-- Nothing. -/
  | unset
  /-- The switch is there, but what is attached to it is a separator, so it has no value. -/
  | void
  | given (value : α)
deriving DecidableEq

/-- The value if one is given, else another. -/
def Choice.getD {α : Type} (choice : Choice α) (default : α) : α :=
  match choice with
  | .given value => value
  | _ => default

/-- What the command line tells. -/
structure Arguments where
  inputs : List Path
  sourceRoot : Choice Path
  outputDir : Choice Path
  executable : Choice String
  timeout : Choice Binary64
  noRender : Bool
  verbose : Bool
deriving DecidableEq

namespace Arguments

/-- The command line without words. -/
def none : Arguments := ⟨[], .unset, .unset, .unset, .unset, false, false⟩

instance : Inhabited Arguments := ⟨none⟩

/-- Take a switch without value. -/
def withSwitch (a : Arguments) : Switch → Arguments
  | .noRender => { a with noRender := true }
  | .verbose => { a with verbose := true }
  | _ => a

/-- Take a switch with a separator attached to it. -/
def withSeparator (a : Arguments) : Switch → Arguments
  | .sourceRoot => { a with sourceRoot := .void }
  | .outputDir => { a with outputDir := .void }
  | .dot => { a with executable := .void }
  | .timeout => { a with timeout := .void }
  | _ => a

/-- Take a switch with its value. -/
def withValue (a : Arguments) (switch : Switch) (value : String) : Except UsageError Arguments :=
  match switch with
  | .sourceRoot => .ok { a with sourceRoot := .given (.ofText value) }
  | .outputDir => .ok { a with outputDir := .given (.ofText value) }
  | .dot => .ok { a with executable := .given value }
  | .timeout =>
    match Binary64.read? value with
    | some timeout => .ok { a with timeout := .given timeout }
    | .none => .error (.notANumber .timeout value)
  | _ => .error (.valueIgnored switch value)

/-- Take a switch with what is attached to it. -/
def withAttached (a : Arguments) (switch : Switch) (text : String) : Except UsageError Arguments :=
  if switch.takesValue && text = "--" then .ok (a.withSeparator switch)
  else a.withValue switch text

/-- The renderer that the command line names; an empty name counts for nothing. -/
def executableOr (a : Arguments) (default : String) : String :=
  let text := a.executable.getD ""
  if text = "" then default else text

/-- The settings of the environment with those of the command line laid over them.  A time limit
has to have a value; the other switches without one leave the setting of the environment. -/
def settings (a : Arguments) (env : Settings.Environment) : Except SettingsError Settings := do
  let base ← Settings.ofEnvironment env
  if a.timeout = .void then throw .noTimeout
  Settings.check
    { base with
      sourceRoot := a.sourceRoot.getD base.sourceRoot
      outputDir :=
        match a.outputDir with
        | .given path => some path
        | _ => base.outputDir
      executable := a.executableOr base.executable
      timeout := a.timeout.getD base.timeout }

/-- Where documents go, unless the switch for it has no value. -/
def directory (a : Arguments) (settings : Settings) : Option Path :=
  if a.outputDir = .void then .none else some settings.resolvedOutputDir

end Arguments

namespace CommandLine

/-- What a command line asks for. -/
inductive Request
  | help
  | run (arguments : Arguments)
deriving DecidableEq

/-- Whether the row of inputs is still to come, is being read, or is over. -/
inductive Row
  | ahead
  | current
  | over
deriving DecidableEq

/-- The row after a word that is no input. -/
def Row.leave : Row → Row
  | .ahead => .ahead
  | _ => .over

/-- A reading between two words. -/
structure Reading where
  arguments : Arguments
  row : Row
  /-- The words of the row. -/
  inputs : List String
  /-- The words that belong to nothing. -/
  extras : List String

namespace Reading

/-- Nothing read yet. -/
def start : Reading := ⟨.none, .ahead, [], []⟩

/-- Take a word as an input. -/
def takeInput (r : Reading) (text : String) : Reading :=
  if r.row = .over then { r with extras := r.extras ++ [text] }
  else { r with row := .current, inputs := r.inputs ++ [text] }

/-- Pass over a word that belongs to nothing. -/
def skip (r : Reading) (text : String) : Reading :=
  { r with row := r.row.leave, extras := r.extras ++ [text] }

/-- Go on with the arguments that a switch gives. -/
def leave (r : Reading) (arguments : Arguments) : Reading :=
  { r with row := r.row.leave, arguments }

/-- All words are read: the first separator is no input. -/
def finish (r : Reading) : Except UsageError Request :=
  if r.extras.isEmpty then
    .ok (.run { r.arguments with inputs := (r.inputs.erase "--").map Path.ofText })
  else .error (.unrecognized r.extras)

end Reading

/-- Read words from left to right; the first fault counts, and help ends the reading. -/
def readWords (r : Reading) : List Word → Except UsageError Request
  | [] => r.finish
  | .plain text :: rest => readWords (r.takeInput text) rest
  | .separator :: rest => readWords (r.takeInput "--") rest
  | .unknown text :: rest => readWords (r.skip text) rest
  | .cluster letters :: _ =>
    match ignoredValue? letters with
    | some value => .error (.valueIgnored .help value)
    | none => .ok .help
  | .switch s (some value) :: rest => do
    let arguments ← r.arguments.withAttached s value
    readWords (r.leave arguments) rest
  | .switch s none :: rest =>
    if s = .help then .ok .help
    else if s.takesValue then
      match rest with
      | .plain value :: rest => do
        let arguments ← r.arguments.withValue s value
        readWords (r.leave arguments) rest
      | _ => .error (.valueMissing s)
    else readWords (r.leave (r.arguments.withSwitch s)) rest

/-- Read a command line. -/
def parse (words : List String) : Except UsageError Request := do
  readWords .start (← classify words)

end CommandLine

end FlowAtlas
