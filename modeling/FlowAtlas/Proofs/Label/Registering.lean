import FlowAtlas.Label.Labeller
import FlowAtlas.Proofs.Data.KeyOrder

/-!
# Registering rules

A registration takes its kinds from left to right and stops at the first that is taken: by a rule
from before, or by the registration itself.  What it leaves has the rules from before in front and
the new ones behind them, whether it went through or not, so no sequence of registrations changes
the label of a kind that has a rule.

Main facts: `outcome_register` (what a registration can come to, by induction on the kinds),
`grows_registerEach` (many registrations), `register_stops_at_taken` and
`registerEach_standardRules` (the standard rules).
-/

namespace FlowAtlas

namespace Rulebook

section Registering

variable {ρ : Type} {book after : Rulebook ρ} {rule : ρ} {kinds : List String}

/-! ## Rulebooks that grow -/

/-- One rule for some more kinds has come behind the rules of a rulebook. -/
def Adds (book : Rulebook ρ) (rule : ρ) (kinds : List String) (after : Rulebook ρ) : Prop :=
  after.entries = book.entries ++ kinds.map fun kind => (kind, rule)

theorem map_fst_map (rule : ρ) (kinds : List String) :
    (kinds.map fun kind => (kind, rule)).map Prod.fst = kinds := by
  rw [List.map_map]
  exact List.map_id kinds

theorem Adds.keys (h : Adds book rule kinds after) : after.keys = book.keys ++ kinds := by
  rw [OrderedMap.keys, h, List.map_append, map_fst_map]
  rfl

theorem Adds.nodup (h : Adds book rule kinds after) : (book.keys ++ kinds).Nodup :=
  h.keys ▸ after.nodup

theorem Adds.eq_insertAll (h : Adds book rule kinds after) :
    after = book.insertAll (kinds.map fun kind => (kind, rule)) := by
  have hdistinct : (book.keys ++ (kinds.map fun kind => (kind, rule)).map Prod.fst).Nodup := by
    rw [map_fst_map]
    exact h.nodup
  exact OrderedMap.ext (h.trans (OrderedMap.entries_insertAll hdistinct).symm)

theorem Adds.grows (h : Adds book rule kinds after) : book.entries <+: after.entries :=
  ⟨_, h.symm⟩

theorem adds_nil (book : Rulebook ρ) (rule : ρ) : Adds book rule [] book :=
  (List.append_nil book.entries).symm

/-- A new kind in front of the others is added first. -/
theorem Adds.cons {kind : String} (hkind : kind ∉ book.keys)
    (h : Adds (book.insert kind rule) rule kinds after) : Adds book rule (kind :: kinds) after := by
  rw [Adds, OrderedMap.entries_insert_of_not_mem hkind, List.append_assoc] at h
  exact h

/-- Kinds are new and distinct exactly if the kinds from before and they are distinct. -/
theorem nodup_keys_append_iff (book : Rulebook ρ) (kinds : List String) :
    (book.keys ++ kinds).Nodup ↔ (∀ kind ∈ kinds, book.contains kind = false) ∧ kinds.Nodup := by
  have hfree : ∀ kind, book.contains kind = false ↔ kind ∉ book.keys := fun kind => by
    rw [Bool.eq_false_iff, ne_eq, OrderedMap.contains_iff]
  rw [List.nodup_append]
  constructor
  · rintro ⟨-, honce, happart⟩
    exact ⟨fun kind hkind => (hfree kind).mpr fun hkey => happart kind hkey kind hkind rfl, honce⟩
  · rintro ⟨hnew, honce⟩
    refine ⟨book.nodup, honce, fun key hkey kind hkind heq => ?_⟩
    exact (hfree kind).mp (hnew kind hkind) (heq ▸ hkey)

/-- The kinds that a rulebook has a rule for have it in another one too, and are labelled alike. -/
structure Keeps (book after : Rulebook ρ) : Prop where
  rules : ∀ kind, book.contains kind = true → after.get? kind = book.get? kind
  labels : ∀ kind, book.contains kind = true →
    ∀ (handler : ρ → Handler) (tables : Tables) (maxLength : Int) (name : Option String)
      (inputs : Attributes),
      resolveBy handler after tables maxLength (some kind) name inputs =
        resolveBy handler book tables maxLength (some kind) name inputs

theorem keeps_of_grows (h : book.entries <+: after.entries) : Keeps book after := by
  have hrules : ∀ kind, book.contains kind = true → after.get? kind = book.get? kind := by
    intro kind hkind
    obtain ⟨rule, hrule⟩ := Option.isSome_iff_exists.mp hkind
    rw [hrule]
    exact OrderedMap.get?_of_mem (h.subset (OrderedMap.mem_entries_iff.mpr hrule))
  refine ⟨hrules, fun kind hkind handler tables maxLength name inputs => ?_⟩
  have hrule : after.ruleFor? (some kind) = book.ruleFor? (some kind) := hrules kind hkind
  unfold resolveBy draftBy
  rw [hrule]

/-! ## One registration -/

/-- What a registration can come to: all its kinds are added, or those in front of one that is
taken. -/
inductive Outcome (book : Rulebook ρ) (rule : ρ) :
    List String → Rulebook ρ × Option RuleError → Prop
  | done {kinds : List String} {after : Rulebook ρ} (adds : Adds book rule kinds after) :
    Outcome book rule kinds (after, none)
  | stopped {front : List String} {kind : String} {back : List String} {after : Rulebook ρ}
    (adds : Adds book rule front after) (taken : kind ∈ after.keys) :
    Outcome book rule (front ++ kind :: back) (after, some (.duplicate kind))

theorem Outcome.cons {kind : String} {result : Rulebook ρ × Option RuleError}
    (hkind : kind ∉ book.keys) (h : Outcome (book.insert kind rule) rule kinds result) :
    Outcome book rule (kind :: kinds) result := by
  cases h with
  | done adds => exact .done (adds.cons hkind)
  | stopped adds taken => exact .stopped (adds.cons hkind) taken

/-- **A registration takes the kinds up to the first that is taken.** -/
theorem outcome_register (book : Rulebook ρ) (rule : ρ) (kinds : List String) :
    Outcome book rule kinds (register book rule kinds) := by
  induction kinds generalizing book with
  | nil => exact .done (adds_nil book rule)
  | cons kind kinds ih =>
    rw [register]
    split
    · rename_i htaken
      exact .stopped (adds_nil book rule) (OrderedMap.contains_iff.mp htaken)
    · rename_i hfree
      exact (ih (book.insert kind rule)).cons (mt OrderedMap.contains_iff.mpr hfree)

theorem Outcome.grows {result : Rulebook ρ × Option RuleError}
    (h : Outcome book rule kinds result) : book.entries <+: result.1.entries := by
  cases h with
  | done adds => exact adds.grows
  | stopped adds taken => exact adds.grows

/-- It goes through exactly if the kinds are new and distinct. -/
theorem Outcome.eq_none_iff {result : Rulebook ρ × Option RuleError}
    (h : Outcome book rule kinds result) : result.2 = none ↔ (book.keys ++ kinds).Nodup := by
  cases h with
  | done adds => exact iff_of_true rfl adds.nodup
  | @stopped front kind back after adds taken =>
    refine iff_of_false (fun herror => by cases herror) fun hnodup => ?_
    rw [← List.append_assoc, ← adds.keys] at hnodup
    exact (List.nodup_append.mp hnodup).2.2 kind taken kind List.mem_cons_self rfl

theorem Outcome.adds_of_eq_none {result : Rulebook ρ × Option RuleError}
    (h : Outcome book rule kinds result) (hnone : result.2 = none) :
    Adds book rule kinds result.1 := by
  cases h with
  | done adds => exact adds
  | stopped adds taken => cases hnone

/-- The first kind of a list that cannot be registered behind the ones in front of it. -/
structure IsFirstTaken (book : Rulebook ρ) (kinds front : List String) (kind : String) : Prop where
  listed : ∃ back, kinds = front ++ kind :: back
  free : ∀ other ∈ front, book.contains other = false
  once : front.Nodup
  taken : book.contains kind = true ∨ kind ∈ front

/-- A registration that fails has added the kinds in front of the first that is taken. -/
theorem Outcome.exists_isFirstTaken {result : Rulebook ρ × Option RuleError} {error : RuleError}
    (h : Outcome book rule kinds result) (herror : result.2 = some error) :
    ∃ front kind, IsFirstTaken book kinds front kind ∧ error = .duplicate kind ∧
      Adds book rule front result.1 := by
  cases h with
  | done adds => cases herror
  | @stopped front kind back after adds taken =>
    cases herror
    obtain ⟨hfree, honce⟩ := (nodup_keys_append_iff book front).mp adds.nodup
    rw [adds.keys, List.mem_append, ← OrderedMap.contains_iff] at taken
    exact ⟨front, kind, ⟨⟨back, rfl⟩, hfree, honce, taken⟩, rfl, adds⟩

/-! ## Many registrations -/

/-- Registrations one after the other, whatever each of them comes to: what they leave, and the
errors of those that stopped. -/
def registerEach (book : Rulebook ρ) : List (List String × ρ) → Rulebook ρ × List RuleError
  | [] => (book, [])
  | (kinds, rule) :: calls =>
    let (next, error) := register book rule kinds
    let (last, errors) := registerEach next calls
    (last, error.toList ++ errors)

theorem registerEach_cons (book : Rulebook ρ) (kinds : List String) (rule : ρ)
    (calls : List (List String × ρ)) :
    registerEach book ((kinds, rule) :: calls) =
      ((registerEach (register book rule kinds).1 calls).1,
        (register book rule kinds).2.toList ++
          (registerEach (register book rule kinds).1 calls).2) := rfl

/-- Registrations leave the rules from before in front. -/
theorem grows_registerEach (book : Rulebook ρ) (calls : List (List String × ρ)) :
    book.entries <+: (registerEach book calls).1.entries := by
  induction calls generalizing book with
  | nil => exact List.prefix_rfl
  | cons call calls ih =>
    obtain ⟨kinds, rule⟩ := call
    rw [registerEach_cons]
    exact (outcome_register book rule kinds).grows.trans (ih (register book rule kinds).1)

/-- Registrations of new and distinct kinds insert them in order, and none of them fails. -/
theorem registerEach_of_nodup {calls : List (List String × ρ)}
    (h : (book.keys ++ calls.flatMap Prod.fst).Nodup) :
    registerEach book calls =
      (book.insertAll (calls.flatMap fun c => c.1.map fun kind => (kind, c.2)), []) := by
  induction calls generalizing book with
  | nil => rfl
  | cons call calls ih =>
    obtain ⟨kinds, rule⟩ := call
    rw [List.flatMap_cons, ← List.append_assoc] at h
    have houtcome := outcome_register book rule kinds
    have hnone := houtcome.eq_none_iff.mpr (List.nodup_append.mp h).1
    have hadds := houtcome.adds_of_eq_none hnone
    rw [registerEach_cons, hnone, ih (hadds.keys ▸ h), List.flatMap_cons,
      OrderedMap.insertAll_append, ← hadds.eq_insertAll]
    rfl

/-- **A registration stops at the first kind that is taken, and takes nothing away.**  It fails
exactly if one of its kinds has a rule or is listed twice.  If it goes through, the kinds have come
behind those from before, all with the new rule; if it fails, those in front of the first that is
taken have, and the error names this one.  Either way, and after any registrations that follow each
other, the kinds from before have their own rules and are labelled as before, whatever the rules
are and however they label nodes. -/
theorem register_stops_at_taken (book : Rulebook ρ) (rule : ρ) (kinds : List String) :
    let result := register book rule kinds
    (result.2 ≠ none ↔ (∃ kind ∈ kinds, book.contains kind = true) ∨ ¬ kinds.Nodup) ∧
    Keeps book result.1 ∧
    (result.2 = none → Adds book rule kinds result.1) ∧
    (∀ error, result.2 = some error → ∃ front kind, IsFirstTaken book kinds front kind ∧
      error.message = "Duplicate label rule for class '" ++ kind ++ "'." ∧
      Adds book rule front result.1) ∧
    ∀ calls, Keeps book (registerEach book calls).1 := by
  intro result
  have houtcome : Outcome book rule kinds result := outcome_register book rule kinds
  refine ⟨?_, keeps_of_grows houtcome.grows, houtcome.adds_of_eq_none, fun error herror => ?_,
    fun calls => keeps_of_grows (grows_registerEach book calls)⟩
  · rw [ne_eq, houtcome.eq_none_iff, nodup_keys_append_iff, not_and_or]
    simp only [not_forall, Bool.not_eq_false, exists_prop]
  · obtain ⟨front, kind, hfirst, hkind, hadds⟩ := houtcome.exists_isFirstTaken herror
    refine ⟨front, kind, hfirst, ?_, hadds⟩
    rw [hkind]
    rfl

end Registering

namespace TakenComment

/-- Handlers that are no label rules. -/
def book : Rulebook Handler :=
  .ofList [("Ark:EndGame", fun _ _ _ => some "END GAME"), ("_comment", fun _ name _ => name)]

def countInputs : Handler := fun _ _ inputs => some (Text.decimal inputs.size)

/-- Kinds of which the second has a rule. -/
def listed : List String := ["Ark:Door", "_comment", "Ark:Lamp"]

/-- Kinds that are free. -/
def free : List String := ["Ark:Door", "Ark:Lamp"]

end TakenComment

open TakenComment in
theorem takenComment_register_stops_at_taken :
    (register book countInputs listed).2 = some (.duplicate "_comment") ∧
      (∃ front kind, IsFirstTaken book listed front kind ∧
        (RuleError.duplicate "_comment").message =
          "Duplicate label rule for class '" ++ kind ++ "'." ∧
        Adds book countInputs front (register book countInputs listed).1) ∧
      (register book countInputs free).2 = none ∧
      Adds book countInputs free (register book countInputs free).1 := by
  have htaken : (register book countInputs listed).2 = some (.duplicate "_comment") := by decide
  have hfree : (register book countInputs free).2 = none := by decide
  exact ⟨htaken, (register_stops_at_taken book countInputs listed).2.2.2.1 _ htaken, hfree,
    (register_stops_at_taken book countInputs free).2.2.1 hfree⟩

/-! ## The standard rules -/

/-- The standard rules can be registered one after the other, and make the standard rulebook. -/
theorem registerEach_standardRules :
    registerEach .empty (standardRules.map fun r => (r.1, (⟨r.2⟩ : LabelRule))) =
      (standard, []) := by
  have hdistinct : (standardRules.flatMap Prod.fst).Nodup := by decide
  rw [registerEach_of_nodup, List.flatMap_map]
  · rfl
  · rw [List.flatMap_map]
    exact hdistinct

end Rulebook

end FlowAtlas
