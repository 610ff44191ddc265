import FlowAtlas.Label.Rulebook
import FlowAtlas.Log
import FlowAtlas.Scope.Basic

/-!
# Labelling nodes

A node is labelled by the rule of its kind, or by its kind and inputs if there is none.  A label
with a missing value gets kind and inputs as a second line, and is reported.  Labels are cut to a
length.  The labeller remembers the kinds that it met without a rule.
-/

namespace FlowAtlas

/-- Inputs in braces, by key. -/
def formatInputs (inputs : Attributes) : String :=
  let pairs := (sortByText Prod.fst inputs.entries).map fun p => p.1 ++ "=" ++ p.2
  "\x7b" ++ ", ".intercalate pairs ++ "\x7d"

/-- The label of a node without a rule. -/
def fallbackLabel (kind : Option String) (inputs : Attributes) : String :=
  Text.orNone kind ++ " " ++ formatInputs inputs

/-- The longest label, unless set otherwise. -/
def defaultMaxLength : Int := 100

/-- The label before it is checked and cut, by rules that label nodes as the given handlers do.  A
rule that says nothing leaves the mark. -/
def draftBy {ρ : Type} (handler : ρ → Handler) (book : Rulebook ρ) (tables : Tables)
    (kind name : Option String) (inputs : Attributes) : String :=
  match book.ruleFor? kind with
  | some rule => (handler rule tables name inputs).getD missingMark
  | none => fallbackLabel kind inputs

/-- The label before it is checked and cut. -/
def draftLabel (book : Rulebook) (tables : Tables) (kind name : Option String)
    (inputs : Attributes) : String :=
  draftBy LabelRule.handler book tables kind name inputs

/-- Whether a label lacks a value. -/
def isIncomplete (label : String) : Bool := Text.hasWord label missingMark

/-- A draft checked and cut. -/
def finishLabel (maxLength : Int) (kind : Option String) (inputs : Attributes) (draft : String) :
    Logged String :=
  if isIncomplete draft then do
    let fallback := fallbackLabel kind inputs
    Logged.emit .warning ("Incomplete label data for " ++ fallback)
    pure (Text.cut maxLength (draft ++ "\n" ++ fallback ++ "(was missing)"))
  else pure (Text.cut maxLength draft)

/-- The label of a node of the given kind, name and inputs, by rules that label nodes as the given
handlers do. -/
def resolveBy {ρ : Type} (handler : ρ → Handler) (book : Rulebook ρ) (tables : Tables)
    (maxLength : Int) (kind name : Option String) (inputs : Attributes) : Logged String :=
  finishLabel maxLength kind inputs (draftBy handler book tables kind name inputs)

/-- The label of a node of the given kind, name and inputs. -/
def resolveLabel (book : Rulebook) (tables : Tables) (maxLength : Int) (kind name : Option String)
    (inputs : Attributes) : Logged String :=
  resolveBy LabelRule.handler book tables maxLength kind name inputs

theorem resolveLabel_eq (book : Rulebook) (tables : Tables) (maxLength : Int)
    (kind name : Option String) (inputs : Attributes) :
    resolveLabel book tables maxLength kind name inputs =
      finishLabel maxLength kind inputs (draftLabel book tables kind name inputs) := rfl

/-- What labels depend on, and the kinds without a rule met so far, in code point order. -/
structure Labeller where
  book : Rulebook
  tables : Tables
  maxLength : Int
  unhandled : List String

namespace Labeller

/-- A labeller by the standard rules that has met no node. -/
def new (tables : Tables) (maxLength : Int) : Labeller := ⟨.standard, tables, maxLength, []⟩

/-- Take note of a node's kind. -/
def note (labeller : Labeller) (node : Node) : Logged Labeller :=
  match node.kind with
  | none => do
    Logged.emit .warning ("Node " ++ Text.orNone node.id ++ " has no class")
    pure labeller
  | some kind =>
    if labeller.book.contains kind then pure labeller
    else pure { labeller with unhandled := insertText kind labeller.unhandled }

/-- The label of a node. -/
def label (labeller : Labeller) (node : Node) : Logged (String × Labeller) := do
  let next ← labeller.note node
  let text ← resolveLabel labeller.book labeller.tables labeller.maxLength node.kind node.name
    node.inputs
  pure (text, next)

/-- The kinds without a rule as a text, if there are any. -/
def report? (labeller : Labeller) : Option String :=
  if labeller.unhandled.isEmpty then none
  else
    some ("Classes that didn't have special parsers:\n" ++
      "\n".intercalate labeller.unhandled)

/-- Report the kinds without a rule. -/
def report (labeller : Labeller) : Logged (Option String) :=
  match labeller.report? with
  | some text => do
    Logged.emit .info text
    pure (some text)
  | none => pure none

end Labeller

end FlowAtlas
