import FlowAtlas.Proofs.Dot.Reader
import FlowAtlas.Proofs.Label.Unmarked
import FlowAtlas.Proofs.Number.Range
import FlowAtlas.Proofs.Scan.WellFormed

/-!
# Positions in documents

A document pins each vertex to two coordinates.  A finite number is written as a decimal with six
places, and the factor of the second coordinate keeps it finite.  But coordinates that are read as
infinite or as no number are accepted like any others, and their words stand in the document.

Main facts: `Dot.isPair_pinned_iff` (what is written of a position), `Position.strays_iff` (which
attributes stray) and `vertices_pinned`.
-/

namespace FlowAtlas

open Numeral

/-! ## Finite decimals -/

/-- A finite decimal of six places: a minus or nothing, digits, a point and six digits. -/
inductive IsCoordinate : List Char → Prop
  | intro {sign whole part : List Char} (hsign : sign = [] ∨ sign = ['-']) (hne : whole ≠ [])
      (hwhole : AreDigits whole) (hlength : part.length = 6) (hpart : AreDigits part) :
      IsCoordinate (sign ++ (whole ++ '.' :: part))

/-- A pair of finite decimals to which a vertex is pinned. -/
inductive IsPair : String → Prop
  | intro {text : String} {x y : List Char} (hx : IsCoordinate x) (hy : IsCoordinate y)
      (htext : text.toList = x ++ ", ".toList ++ y ++ "!".toList) : IsPair text

namespace Binary64

theorem isCoordinate_fixed {x : Binary64} (h : x.IsFinite) : IsCoordinate (x.fixed 6).toList := by
  cases x with
  | finite negative units =>
    obtain ⟨whole, part, htext, hne, hwhole, hlength, hpart⟩ :=
      exists_pointed 6 (roundQuotient (units * tenTo 6) unitsPerOne)
    have hsign : (signText negative).toList = [] ∨ (signText negative).toList = ['-'] := by
      cases negative
      · exact Or.inl rfl
      · exact Or.inr rfl
    rw [fixed, String.toList_append, htext]
    exact .intro hsign hne hwhole hlength hpart
  | infinite negative => exact h.elim
  | nan => exact h.elim

/-- The words for what is not finite have a letter. -/
theorem n_mem_fixed {x : Binary64} (h : ¬ x.IsFinite) (places : Nat) :
    'n' ∈ (x.fixed places).toList := by
  cases x with
  | finite negative units => exact absurd trivial h
  | infinite negative => cases negative <;> simp [fixed, signText]
  | nan => simp [fixed]

end Binary64

theorem IsCoordinate.n_not_mem {text : List Char} (h : IsCoordinate text) : 'n' ∉ text := by
  obtain ⟨hsign, -, hwhole, -, hpart⟩ := h
  have hdigits : ∀ {digits : List Char}, AreDigits digits → 'n' ∉ digits :=
    fun hdigits hmem => absurd (hdigits _ hmem) (by decide)
  rcases hsign with rfl | rfl <;> simp [hdigits hwhole, hdigits hpart]

theorem IsPair.n_not_mem {text : String} (h : IsPair text) : 'n' ∉ text.toList := by
  obtain ⟨hx, hy, htext⟩ := h
  rw [htext]
  simp [hx.n_not_mem, hy.n_not_mem]

namespace Dot

variable {position : Position} {scale : Binary64}

/-- **A vertex is pinned to a pair of finite decimals exactly if both coordinates are finite.** -/
theorem isPair_pinned_iff :
    IsPair (pinned position scale) ↔ position.x.IsFinite ∧ (position.y * scale).IsFinite := by
  have htext : (pinned position scale).toList =
      (position.x.fixed 6).toList ++ ", ".toList ++ ((position.y * scale).fixed 6).toList ++
        "!".toList := by
    unfold pinned
    rw [String.toList_append, String.toList_append, String.toList_append]
  constructor
  · intro hpair
    have hmem := hpair.n_not_mem
    rw [htext] at hmem
    simp only [List.mem_append, not_or] at hmem
    constructor
    · by_contra hx
      exact hmem.1.1.1 (Binary64.n_mem_fixed hx 6)
    · by_contra hy
      exact hmem.1.2 (Binary64.n_mem_fixed hy 6)
  · rintro ⟨hx, hy⟩
    exact .intro (Binary64.isCoordinate_fixed hx) (Binary64.isCoordinate_fixed hy) htext

/-- The factor of three quarters keeps the second coordinate finite. -/
theorem isFinite_mul_defaultScale {y : Binary64} (h : y.InRange) :
    (y * defaultScale).IsFinite ↔ y.IsFinite := by
  have hscale : defaultScale = .finite false (3 * twoTo 1072) := by decide +kernel
  rw [hscale]
  exact Binary64.isFinite_mul_iff h (by decide +kernel) (by decide +kernel)

end Dot

/-! ## Coordinates that stray -/

namespace Position

/-- The texts of the coordinates: the first three between commas. -/
def coordinates (text : String) : List String :=
  ((Text.splitAtEach ',' text.toList).take 3).map String.ofList

/-- The text is read as what is not finite: it spells a word for it, or it writes a decimal out of
range. -/
inductive IsUnbounded (text : String) : Prop
  | nan {negative : Bool} (h : SpellsWord "nan" text negative)
  | inf {negative : Bool} (h : SpellsWord "inf" text negative)
  | infinity {negative : Bool} (h : SpellsWord "infinity" text negative)
  | beyond {negative : Bool} {coefficient : Nat} {exponent : Int}
      (h : Binary64.WritesDecimal text negative coefficient exponent)
      (hbeyond : Binary64.IsBeyond coefficient exponent)

theorem isUnbounded_iff {text : String} :
    IsUnbounded text ↔ ∃ value, Binary64.read? text = some value ∧ ¬ value.IsFinite := by
  constructor
  · rintro (⟨h⟩ | ⟨h⟩ | ⟨h⟩ | ⟨h, hbeyond⟩)
    · exact ⟨.nan, Binary64.read?_eq_nan_iff.mpr ⟨_, h⟩, id⟩
    · exact ⟨.infinite _, Binary64.read?_eq_infinite_iff.mpr (Or.inl h), id⟩
    · exact ⟨.infinite _, Binary64.read?_eq_infinite_iff.mpr (Or.inr (Or.inl h)), id⟩
    · have hread := Binary64.read?_eq_infinite_iff.mpr (Or.inr (Or.inr ⟨_, _, h, hbeyond⟩))
      exact ⟨.infinite _, hread, id⟩
  · rintro ⟨value, hread, hfinite⟩
    cases value with
    | finite negative units => exact absurd trivial hfinite
    | nan =>
      obtain ⟨negative, h⟩ := Binary64.read?_eq_nan_iff.mp hread
      exact .nan h
    | infinite negative =>
      rcases Binary64.read?_eq_infinite_iff.mp hread with h | h | ⟨c, e, h, hbeyond⟩
      · exact .inf h
      · exact .infinity h
      · exact .beyond h hbeyond

/-- **The position strays**: all its coordinates can be read, and one of the first two is not
finite. -/
structure Strays (text : String) : Prop where
  read : ∀ part ∈ coordinates text, (Binary64.read? part).isSome
  unbounded : ∃ part ∈ (coordinates text).take 2, IsUnbounded part

theorem parse?_eq (text : String) :
    parse? text = ((coordinates text).mapM Binary64.read?).map ofCoordinates := by
  unfold parse? coordinates
  rw [List.mapM_map]
  rfl

theorem mapM_cons_eq_some {α β : Type} {f : α → Option β} {a : α} {rest : List α}
    {results : List β} (h : (a :: rest).mapM f = some results) :
    ∃ b more, f a = some b ∧ rest.mapM f = some more ∧ results = b :: more := by
  rw [List.mapM_cons] at h
  obtain ⟨b, hb, h⟩ := Option.bind_eq_some_iff.mp h
  obtain ⟨more, hmore, h⟩ := Option.bind_eq_some_iff.mp h
  exact ⟨b, more, hb, hmore, (Option.some.inj h).symm⟩

theorem x_ofCoordinates (x : Binary64) (rest : List Binary64) :
    (ofCoordinates (x :: rest)).x = x := by
  rcases rest with _ | ⟨y, _ | ⟨z, rest⟩⟩ <;> rfl

theorem y_ofCoordinates (x y : Binary64) (rest : List Binary64) :
    (ofCoordinates (x :: y :: rest)).y = y := by
  cases rest <;> rfl

theorem isUnbounded_iff_of_read? {text : String} {value : Binary64}
    (h : Binary64.read? text = some value) : IsUnbounded text ↔ ¬ value.IsFinite := by
  rw [isUnbounded_iff, h]
  constructor
  · rintro ⟨other, hother, hfinite⟩
    cases hother
    exact hfinite
  · exact fun hfinite => ⟨value, rfl, hfinite⟩

/-- One of the first two coordinates is not finite exactly if it does not write a finite number. -/
theorem exists_isUnbounded_iff {parts : List String} {values : List Binary64}
    (h : parts.mapM Binary64.read? = some values) :
    (∃ part ∈ parts.take 2, IsUnbounded part) ↔
      ¬ ((ofCoordinates values).x.IsFinite ∧ (ofCoordinates values).y.IsFinite) := by
  cases parts with
  | nil =>
    cases h
    exact iff_of_false (fun ⟨_, hmem, _⟩ => nomatch hmem) (not_not.mpr ⟨True.intro, True.intro⟩)
  | cons first parts =>
    obtain ⟨x, values, hx, hrest, rfl⟩ := mapM_cons_eq_some h
    rw [x_ofCoordinates, not_and_or, ← isUnbounded_iff_of_read? hx]
    cases parts with
    | nil =>
      cases hrest
      have hzero : (ofCoordinates [x]).y.IsFinite := True.intro
      simp [hzero]
    | cons second parts =>
      obtain ⟨y, values, hy, -, rfl⟩ := mapM_cons_eq_some hrest
      rw [y_ofCoordinates, ← isUnbounded_iff_of_read? hy]
      simp

theorem strays_iff {text : String} :
    Strays text ↔ ∃ position, parse? text = some position ∧
      ¬ (position.x.IsFinite ∧ position.y.IsFinite) := by
  rw [parse?_eq]
  constructor
  · rintro ⟨hread, hunbounded⟩
    obtain ⟨values, hvalues, -⟩ := exists_mapM_of_forall (q := fun _ => True)
      fun part hpart => (Option.isSome_iff_exists.mp (hread part hpart)).imp fun _ h => ⟨h, trivial⟩
    rw [hvalues]
    exact ⟨_, rfl, (exists_isUnbounded_iff hvalues).mp hunbounded⟩
  · rintro ⟨position, hposition, hfinite⟩
    obtain ⟨values, hvalues, rfl⟩ := Option.map_eq_some_iff.mp hposition
    refine ⟨fun part hpart => ?_, (exists_isUnbounded_iff hvalues).mpr hfinite⟩
    obtain ⟨value, -, hvalue⟩ := exists_of_mem_mapM hvalues hpart
    exact Option.isSome_iff_exists.mpr ⟨value, hvalue⟩

theorem parse?_eq_none_iff {text : String} :
    parse? text = none ↔ ∃ part ∈ coordinates text, Binary64.read? part = none := by
  rw [parse?_eq, Option.map_eq_none_iff]
  constructor
  · intro hnone
    by_contra hall
    have hread : ∀ part ∈ coordinates text, ∃ value, Binary64.read? part = some value ∧ True := by
      intro part hpart
      cases hread : Binary64.read? part with
      | none => exact absurd ⟨part, hpart, hread⟩ hall
      | some value => exact ⟨value, rfl, trivial⟩
    obtain ⟨values, hvalues, -⟩ := exists_mapM_of_forall hread
    rw [hnone] at hvalues
    cases hvalues
  · rintro ⟨part, hpart, hnone⟩
    cases hvalues : (coordinates text).mapM Binary64.read? with
    | none => rfl
    | some values =>
      obtain ⟨value, -, hvalue⟩ := exists_of_mem_mapM hvalues hpart
      rw [hnone] at hvalue
      cases hvalue

theorem inRange_ofCoordinates {values : List Binary64} (h : ∀ value ∈ values, value.InRange) :
    (ofCoordinates values).y.InRange := by
  rcases values with _ | ⟨x, _ | ⟨y, values⟩⟩
  · exact Binary64.inRange_zero false
  · exact Binary64.inRange_zero false
  · rw [y_ofCoordinates]
    exact h y (by simp)

theorem inRange_of_parse? {text : String} {position : Position} (h : parse? text = some position) :
    position.y.InRange := by
  rw [parse?_eq] at h
  obtain ⟨values, hvalues, rfl⟩ := Option.map_eq_some_iff.mp h
  refine inRange_ofCoordinates fun value hvalue => ?_
  obtain ⟨front, back, rfl⟩ := List.append_of_mem hvalue
  obtain ⟨_, rest, -, -, hrest⟩ := exists_append_of_mapM hvalues
  obtain ⟨part, _, -, hread, -⟩ := exists_cons_of_mapM hrest
  exact Binary64.inRange_of_read? hread

/-- An attribute that is no position gives the origin. -/
theorem value_read (raw : Option String) : (read raw).value = (raw.bind parse?).getD origin := by
  cases raw with
  | none => rfl
  | some text =>
    by_cases hempty : text = ""
    · subst hempty
      rfl
    · unfold read
      dsimp only
      rw [if_neg hempty, Option.bind_some]
      cases parse? text <;> rfl

/-- **The pair that a vertex is pinned to is finite exactly if its attribute does not stray.** -/
theorem isPair_pinned_read_iff (raw : Option String) :
    IsPair (Dot.pinned (read raw).value Dot.defaultScale) ↔
      ∀ text, raw = some text → ¬ Strays text := by
  rw [Dot.isPair_pinned_iff, value_read]
  cases hposition : raw.bind parse? with
  | none =>
    have horigin : origin.y.InRange := Binary64.inRange_zero false
    rw [Option.getD_none, Dot.isFinite_mul_defaultScale horigin]
    refine iff_of_true ⟨True.intro, True.intro⟩ ?_
    rintro text rfl hstrays
    obtain ⟨position, hsome, -⟩ := strays_iff.mp hstrays
    rw [Option.bind_some, hsome] at hposition
    cases hposition
  | some position =>
    obtain ⟨text, rfl, htext⟩ := Option.bind_eq_some_iff.mp hposition
    rw [Option.getD_some, Dot.isFinite_mul_defaultScale (inRange_of_parse? htext)]
    constructor
    · rintro hfinite _ ⟨⟩ hstrays
      obtain ⟨other, hother, hnot⟩ := strays_iff.mp hstrays
      rw [htext] at hother
      cases hother
      exact hnot hfinite
    · intro h
      by_contra hnot
      exact h text rfl (strays_iff.mpr ⟨position, htext, hnot⟩)

/-- An attribute with a coordinate that cannot be read gives the origin. -/
theorem value_read_of_unread {raw : Option String}
    (h : ∀ text, raw = some text → ∃ part ∈ coordinates text, Binary64.read? part = none) :
    (read raw).value = origin := by
  rw [value_read]
  cases raw with
  | none => rfl
  | some text => rw [Option.bind_some, parse?_eq_none_iff.mpr (h text rfl)]; rfl

end Position

/-! ## Documents of scopes -/

/-- The text of a position prints what an attribute says. -/
structure Position.Prints (raw : Option String) (text : String) : Prop where
  /-- It is the position that is read, with the factor of documents. -/
  pinned : text = Dot.pinned (read raw).value Dot.defaultScale
  /-- It is a pair of finite decimals unless the attribute strays. -/
  pair : IsPair text ↔ ∀ value, raw = some value → ¬ Strays value
  /-- It is the origin if a coordinate cannot be read. -/
  origin : (∀ value, raw = some value → ∃ part ∈ coordinates value, Binary64.read? part = none) →
    text = "0.000000, 0.000000!"

theorem Position.prints_pinned (raw : Option String) :
    Prints raw (Dot.pinned (read raw).value Dot.defaultScale) where
  pinned := rfl
  pair := isPair_pinned_read_iff raw
  origin hunread := by
    rw [value_read_of_unread hunread]
    decide +kernel

open Dot in
/-- **The vertices of a document are pinned to pairs of finite decimals unless their positions
stray.**  Every scope of every source has a graph, whose document reads back.  Each of its vertices
is pinned where the attribute of a line of the source says that describes the node: to a pair of
finite decimals exactly if the attribute does not stray, that is, unless all its coordinates can be
read and one of the first two is not finite; and to the origin if one of them cannot be read. -/
theorem vertices_pinned {lines : List String} {scope : Scope}
    (hscope : scope ∈ (assembleScopes lines).value) :
    ∃ graph, scope.graph.value = .ok graph ∧ ∀ labeller,
      ReadsBack (serialize graph defaultScale labeller).value.1
          (drawn graph defaultScale labeller) ∧
        ∀ id label position,
          Statement.vertex id label position ∈ drawn graph defaultScale labeller →
            ∃ line ∈ lines.map Text.withoutLineEnd,
              (Markup.attributes line).get? "id" = some id ∧
                Position.Prints ((Markup.attributes line).get? "pos") position := by
  have hwellFormed := wellFormed_of_mem_assembleScopes hscope
  obtain ⟨graph, hgraph, hcovers⟩ := Scope.exists_covering_graph hwellFormed.none_not_mem_keys
  refine ⟨graph, hgraph, fun labeller => ⟨readsBack_serialize _ _ _, ?_⟩⟩
  intro id label position hstatement
  rcases List.mem_append.mp hstatement with hvertex | harc
  · obtain ⟨⟨own, node⟩, hmem, heq⟩ := List.mem_map.mp hvertex
    obtain ⟨rfl, -, rfl⟩ := Statement.vertex.inj heq
    have hentry : (some own, node) ∈ scope.nodes.entries := by
      rw [← hcovers]
      exact List.mem_map_of_mem (f := FlowGraph.declared) hmem
    obtain ⟨e, he, hnode⟩ :=
      Transcript.exists_entry_of_get? hscope (OrderedMap.get?_of_mem hentry)
    refine ⟨e.line, Transcript.line_mem_of_mem_entries he, ?_, ?_⟩
    · have hid := hwellFormed.keys _ hentry
      rw [hnode] at hid
      exact hid.symm
    · rw [hnode]
      exact Position.prints_pinned _
  · obtain ⟨arc, -, heq⟩ := List.mem_map.mp harc
    cases heq

namespace Astray

/-- A line whose node lies in the given place. -/
def line (position : String) : String :=
  "<Node Id=\"1\" Class=\"Ark:EndGame\" Pos=\"" ++ position ++ "\"/>"

/-- The node that it describes. -/
def node (position : Position) : Node :=
  ⟨some "1", none, some "Ark:EndGame", position, .empty⟩

/-- The scope that it gives. -/
def scope (position : Position) : Scope := ⟨none, .ofList [(some "1", node position)], [], true⟩

/-- A place with whole coordinates. -/
def somewhere : Position := ⟨.ofRatio true 5 2, .ofRatio false 2 1, .zero⟩

/-- A place that is nowhere. -/
def nowhere : Position := ⟨.infinite false, .zero, .zero⟩

theorem somewhere_mem : scope somewhere ∈ (assembleScopes [line "-2.5,2"]).value := by
  decide +kernel

theorem nowhere_mem : scope nowhere ∈ (assembleScopes [line "inf"]).value := by decide +kernel

end Astray

open Astray Dot in
theorem somewhere_pinned :
    scope somewhere ∈ (assembleScopes [line "-2.5,2"]).value ∧
      ∃ graph, (scope somewhere).graph.value = .ok graph ∧ ∀ labeller,
        ReadsBack (serialize graph defaultScale labeller).value.1
            (drawn graph defaultScale labeller) ∧
          ∀ id label position,
            Statement.vertex id label position ∈ drawn graph defaultScale labeller →
              id = "1" ∧ position = "-2.500000, 1.500000!" := by
  obtain ⟨graph, hgraph, hpinned⟩ := vertices_pinned somewhere_mem
  refine ⟨somewhere_mem, graph, hgraph, fun labeller => ⟨(hpinned labeller).1, ?_⟩⟩
  intro id label position hstatement
  obtain ⟨_, hmem, hid, hprints⟩ := (hpinned labeller).2 id label position hstatement
  obtain rfl := List.mem_singleton.mp hmem
  constructor
  · have hown : (Markup.attributes (Text.withoutLineEnd (line "-2.5,2"))).get? "id" = some "1" := by
      decide +kernel
    exact Option.some.inj (hid.symm.trans hown)
  · rw [hprints.pinned]
    decide +kernel

open Astray Dot in
/-- A coordinate that spells a word for what is infinite stands in the document as this word. -/
theorem not_forall_isPair :
    ¬ ∀ (lines : List String) (scope : Scope) (graph : FlowGraph) (labeller : Labeller),
      scope ∈ (assembleScopes lines).value → scope.graph.value = .ok graph →
        ∀ id label position,
          Statement.vertex id label position ∈ drawn graph defaultScale labeller →
            IsPair position := by
  intro h
  have hnone : none ∉ (scope nowhere).nodes.keys := by decide
  obtain ⟨graph, hgraph, hcovers⟩ := Scope.exists_covering_graph hnone
  have hentry : (some "1", node nowhere) ∈
      graph.network.vertices.entries.map FlowGraph.declared := by
    rw [hcovers]
    decide
  obtain ⟨⟨id, own⟩, hmem, heq⟩ := List.mem_map.mp hentry
  cases heq
  have hstatement := List.mem_append_left (graph.network.arcs.map arcOf)
    (List.mem_map_of_mem (f := vertexOf defaultScale (.new .blank defaultMaxLength)) hmem)
  have hpair := h _ _ graph _ nowhere_mem hgraph _ _ _ hstatement
  exact (isPair_pinned_iff.mp hpair).1

end FlowAtlas
