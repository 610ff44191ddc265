import FlowAtlas.Number.Integer

/-!
# How whole numbers are written

A whole number is written with digits of any script, with a sign before them or not, with an
underscore between any two of them or not, and with any blanks around it.  The reader accepts
exactly these texts, as long as they have no more digits than it takes.

Main fact: `readInteger?_eq_some_iff`.
-/

namespace FlowAtlas

open Text (digitValue? digitChar isSpace isAsciiSpace)

namespace Numeral

/-- Digits of any script with their values; an underscore may stand between two of them. -/
inductive DigitRun : List Char → List Nat → Prop
  | single {c : Char} {value : Nat} (h : digitValue? c = some value) : DigitRun [c] [value]
  | next {c : Char} {value : Nat} {text : List Char} {values : List Nat}
      (h : digitValue? c = some value) (rest : DigitRun text values) :
      DigitRun (c :: text) (value :: values)
  | grouped {c : Char} {value : Nat} {text : List Char} {values : List Nat}
      (h : digitValue? c = some value) (rest : DigitRun text values) :
      DigitRun (c :: '_' :: text) (value :: values)

/-- What may stand before the digits, and the factor that it means. -/
inductive SignOf : List Char → Int → Prop
  | absent : SignOf [] 1
  | plus : SignOf ['+'] 1
  | minus : SignOf ['-'] (-1)

/-- The number of a row of digits, given by their values. -/
def ofValues (values : List Nat) : Nat := values.foldl (fun n value => 10 * n + value) 0

end Numeral

open Numeral

/-- **The text writes the number**: a sign and digits, with blanks around them. -/
inductive Writes (text : String) : Int → Prop
  | intro {before sign run after : List Char} {factor : Int} {values : List Nat}
      (htext : text.toList = before ++ (sign ++ run) ++ after)
      (hbefore : ∀ c ∈ before, isSpace c = true) (hafter : ∀ c ∈ after, isSpace c = true)
      (hsign : SignOf sign factor) (hrun : DigitRun run values)
      (hlength : values.length ≤ maxDigits) : Writes text (factor * ofValues values)

/-! ## Characters -/

namespace Text

theorem isDigit_iff {c : Char} : c.isDigit = true ↔ 48 ≤ c.toNat ∧ c.toNat ≤ 57 := by
  change (decide ('0'.val ≤ c.val) && decide (c.val ≤ '9'.val)) = true ↔ _
  rw [Bool.and_eq_true, decide_eq_true_iff, decide_eq_true_iff]
  exact Iff.rfl

theorem exists_first_of_digitValue? {c : Char} {value : Nat} (h : digitValue? c = some value) :
    ∃ first ∈ zeros, first ≤ c.toNat ∧ c.toNat < first + 10 ∧ value = c.toNat - first := by
  obtain ⟨first, hfind, rfl⟩ := Option.map_eq_some_iff.mp h
  have hrange := List.find?_some hfind
  simp only [Bool.and_eq_true, decide_eq_true_eq] at hrange
  exact ⟨first, List.mem_of_find?_eq_some hfind, hrange.1, hrange.2, rfl⟩

theorem lt_ten_of_digitValue? {c : Char} {value : Nat} (h : digitValue? c = some value) :
    value < 10 := by
  obtain ⟨first, -, hge, hlt, rfl⟩ := exists_first_of_digitValue? h
  omega

theorem digitValue?_of_isDigit {c : Char} (h : c.isDigit = true) :
    digitValue? c = some (c.toNat - 48) := by
  obtain ⟨hge, hle⟩ := isDigit_iff.mp h
  have hzero : (decide (0x30 ≤ c.toNat) && decide (c.toNat < 0x30 + 10)) = true := by
    simp only [Bool.and_eq_true, decide_eq_true_eq]
    omega
  unfold digitValue? zeros
  dsimp only
  rw [List.find?_cons, hzero]
  rfl

theorem toNat_digitChar : ∀ {value : Nat}, value < 10 → (digitChar value).toNat = 48 + value := by
  decide

theorem isDigit_digitChar {value : Nat} (h : value < 10) : (digitChar value).isDigit = true := by
  rw [isDigit_iff, toNat_digitChar h]
  omega

theorem isAsciiSpace_of_isDigit {c : Char} (h : c.isDigit = true) : isAsciiSpace c = false := by
  have hrange := isDigit_iff.mp h
  simp only [isAsciiSpace, Bool.or_eq_false_iff, Bool.and_eq_false_iff, decide_eq_false_iff_not]
  omega

/-- No digit is a blank. -/
theorem isSpace_of_digitValue? {c : Char} {value : Nat} (h : digitValue? c = some value) :
    isSpace c = false := by
  have hzeros : ∀ first ∈ zeros, (first = 0x30 ∨ 0x660 ≤ first ∧ first + 10 ≤ 0x1680 ∨
      0x1680 < first ∧ first + 10 ≤ 0x2000 ∨ 0x3000 < first) := by decide
  obtain ⟨first, hzero, hge, hlt, -⟩ := exists_first_of_digitValue? h
  have hrange := hzeros first hzero
  simp only [isSpace, Bool.or_eq_false_iff, Bool.and_eq_false_iff, decide_eq_false_iff_not]
  omega

end Text

namespace Numeral

open Text

variable {c p : Char}

/-- The first of the scripts is the only one in ASCII. -/
theorem plainChar?_of_digitValue? {value : Nat} (h : digitValue? c = some value) :
    plainChar? c = some (digitChar value) := by
  unfold plainChar?
  split
  · rename_i hascii
    have hzeros : ∀ first ∈ zeros, first < 0x7f → first = 0x30 := by decide
    obtain ⟨first, hzero, hge, hlt, rfl⟩ := exists_first_of_digitValue? h
    have h30 : first = 0x30 := hzeros first hzero (by omega)
    have hsum : 48 + (c.toNat - first) = c.toNat := by omega
    unfold digitChar
    rw [hsum, Char.ofNat_toNat]
  · rw [isSpace_of_digitValue? h, h]
    rfl

/-- A character that is carried over to neither a blank nor a digit stays as it is. -/
theorem eq_of_plainChar? (h : plainChar? c = some p) (hspace : p ≠ ' ')
    (hdigit : p.isDigit = false) : c = p := by
  unfold plainChar? at h
  split at h
  · exact Option.some.inj h
  · split at h
    · exact absurd (Option.some.inj h).symm hspace
    · obtain ⟨value, hvalue, rfl⟩ := Option.map_eq_some_iff.mp h
      rw [isDigit_digitChar (lt_ten_of_digitValue? hvalue)] at hdigit
      cases hdigit

theorem isSpace_of_plainChar? (h : plainChar? c = some p) (hp : isAsciiSpace p = true) :
    isSpace c = true := by
  unfold plainChar? at h
  split at h
  · cases h
    exact isSpace_of_isAsciiSpace hp
  · split at h
    · assumption
    · obtain ⟨value, hvalue, rfl⟩ := Option.map_eq_some_iff.mp h
      have hdigit := isSpace_of_isAsciiSpace hp
      have hlt := lt_ten_of_digitValue? hvalue
      rw [isSpace_of_digitValue? (digitValue?_of_isDigit (isDigit_digitChar hlt))] at hdigit
      cases hdigit

theorem exists_plainChar?_of_isSpace (h : isSpace c = true) :
    ∃ p, plainChar? c = some p ∧ isAsciiSpace p = true := by
  unfold plainChar?
  by_cases hascii : c.toNat < 0x7f
  · rw [if_pos hascii]
    refine ⟨c, rfl, ?_⟩
    simp only [isSpace, isAsciiSpace, Bool.or_eq_true, Bool.and_eq_true, decide_eq_true_eq] at h ⊢
    omega
  · rw [if_neg hascii, if_pos h]
    exact ⟨' ', rfl, rfl⟩

theorem digitValue?_eq_of_plainChar? {value : Nat} (h : plainChar? c = some p)
    (hp : digitValue? p = some value) : digitValue? c = some value := by
  unfold plainChar? at h
  split at h
  · cases h
    exact hp
  · split at h
    · cases h
      have hspace := isSpace_of_digitValue? hp
      cases hspace
    · obtain ⟨own, hown, rfl⟩ := Option.map_eq_some_iff.mp h
      have hlt := lt_ten_of_digitValue? hown
      rw [digitValue?_of_isDigit (isDigit_digitChar hlt), toNat_digitChar hlt,
        Nat.add_sub_cancel_left] at hp
      rw [hown, hp]

/-! ## Carrying texts over -/

section Traverse

variable {α β : Type} {f : α → Option β}

theorem exists_cons_of_mapM {items : List α} {b : β} {rest : List β}
    (h : items.mapM f = some (b :: rest)) :
    ∃ a rest', items = a :: rest' ∧ f a = some b ∧ rest'.mapM f = some rest := by
  cases items with
  | nil => cases h
  | cons a rest' =>
    rw [List.mapM_cons] at h
    obtain ⟨b', hb, h⟩ := Option.bind_eq_some_iff.mp h
    obtain ⟨found, hfound, h⟩ := Option.bind_eq_some_iff.mp h
    cases h
    exact ⟨a, rest', rfl, hb, hfound⟩

theorem eq_nil_of_mapM {items : List α} (h : items.mapM f = some []) : items = [] := by
  cases items with
  | nil => rfl
  | cons a rest =>
    rw [List.mapM_cons] at h
    obtain ⟨b, -, h⟩ := Option.bind_eq_some_iff.mp h
    obtain ⟨found, -, h⟩ := Option.bind_eq_some_iff.mp h
    cases h

/-- What the parts of a result come from. -/
theorem exists_append_of_mapM {items : List α} {front back : List β}
    (h : items.mapM f = some (front ++ back)) :
    ∃ front' back', items = front' ++ back' ∧ front'.mapM f = some front ∧
      back'.mapM f = some back := by
  induction front generalizing items with
  | nil => exact ⟨[], items, rfl, rfl, h⟩
  | cons b front ih =>
    obtain ⟨a, rest, rfl, ha, hrest⟩ := exists_cons_of_mapM h
    obtain ⟨front', back', rfl, hfront, hback⟩ := ih hrest
    refine ⟨a :: front', back', rfl, ?_, hback⟩
    rw [List.mapM_cons, ha, hfront]
    rfl

theorem mapM_append_eq_some {front back : List α} {front' back' : List β}
    (hfront : front.mapM f = some front') (hback : back.mapM f = some back') :
    (front ++ back).mapM f = some (front' ++ back') := by
  rw [List.mapM_append, hfront, hback]
  rfl

theorem exists_of_mem_mapM {items : List α} {results : List β} (h : items.mapM f = some results)
    {a : α} (ha : a ∈ items) : ∃ b ∈ results, f a = some b := by
  obtain ⟨front, back, rfl⟩ := List.append_of_mem ha
  rw [List.mapM_append, List.mapM_cons] at h
  cases hfront : front.mapM f with
  | none =>
    rw [hfront] at h
    cases h
  | some front' =>
    cases hb : f a with
    | none =>
      rw [hfront, hb] at h
      cases h
    | some b =>
      cases hback : back.mapM f with
      | none =>
        rw [hfront, hb, hback] at h
        cases h
      | some back' =>
        rw [hfront, hb, hback] at h
        cases h
        exact ⟨b, by simp, rfl⟩

/-- Where every item has a result of a kind, all of them together have results of this kind. -/
theorem exists_mapM_of_forall {q : β → Prop} {items : List α}
    (h : ∀ a ∈ items, ∃ b, f a = some b ∧ q b) :
    ∃ results, items.mapM f = some results ∧ ∀ b ∈ results, q b := by
  induction items with
  | nil => exact ⟨[], rfl, List.forall_mem_nil _⟩
  | cons a items ih =>
    obtain ⟨b, hb, hq⟩ := h a List.mem_cons_self
    obtain ⟨results, hresults, hall⟩ :=
      ih fun other hother => h other (List.mem_cons_of_mem a hother)
    refine ⟨b :: results, ?_, List.forall_mem_cons.mpr ⟨hq, hall⟩⟩
    rw [List.mapM_cons, hb, hresults]
    rfl

end Traverse

theorem isSpace_of_mapM {text plain : List Char} (htext : text.mapM plainChar? = some plain)
    (hplain : ∀ c ∈ plain, isAsciiSpace c = true) : ∀ c ∈ text, isSpace c = true := by
  intro c hc
  obtain ⟨p, hp, hcp⟩ := exists_of_mem_mapM htext hc
  exact isSpace_of_plainChar? hcp (hplain p hp)

/-! ## Underscores between digits -/

theorem withoutUnderscores_cons {c : Char} (h : c ≠ '_') (afterDigit : Bool) (rest : List Char) :
    withoutUnderscores afterDigit (c :: rest) =
      (withoutUnderscores c.isDigit rest).map (c :: ·) := by
  rw [withoutUnderscores]
  · exact fun hc => absurd hc h
  · exact fun _ _ hc => absurd hc h

theorem ne_underscore_of_isDigit {c : Char} (h : c.isDigit = true) : c ≠ '_' := by
  rintro rfl
  cases h

/-- The values of ASCII digits. -/
def digitValues (digits : List Char) : List Nat := digits.map fun c => c.toNat - 48

theorem ofDigits_eq (digits : List Char) : ofDigits digits = ofValues (digitValues digits) := by
  unfold ofDigits ofValues digitValues
  rw [List.foldl_map]

/-- How a text goes on whose characters are digits once the underscores are taken out. -/
inductive GoesOn (afterDigit : Bool) : List Char → List Nat → Prop
  | ended : GoesOn afterDigit [] []
  | run {text : List Char} {values : List Nat} (h : DigitRun text values) :
      GoesOn afterDigit text values
  | grouped {text : List Char} {values : List Nat} (hafter : afterDigit = true)
      (h : DigitRun text values) : GoesOn afterDigit ('_' :: text) values

theorem GoesOn.digitRun {afterDigit : Bool} {text : List Char} {values : List Nat}
    (h : GoesOn afterDigit text values) {c : Char} {value : Nat} (hc : digitValue? c = some value) :
    DigitRun (c :: text) (value :: values) := by
  cases h with
  | ended => exact .single hc
  | run h => exact .next hc h
  | grouped _ h => exact .grouped hc h

theorem GoesOn.digitRun_of_ne_nil {text : List Char} {values : List Nat}
    (h : GoesOn false text values) (hne : values ≠ []) : DigitRun text values := by
  cases h with
  | ended => exact absurd rfl hne
  | run h => exact h
  | grouped hafter => cases hafter

theorem goesOn_of_withoutUnderscores {afterDigit : Bool} {text digits : List Char}
    (h : withoutUnderscores afterDigit text = some digits)
    (hdigits : ∀ c ∈ digits, c.isDigit = true) : GoesOn afterDigit text (digitValues digits) := by
  -- The cases are the reader's own: it takes an underscore together with the digit behind it.
  induction afterDigit, text using withoutUnderscores.induct generalizing digits with
  | case1 =>
    rw [withoutUnderscores] at h
    cases h
    exact .ended
  | case2 =>
    rw [withoutUnderscores] at h
    cases h
  | case3 afterDigit c rest hafter ih =>
    rw [withoutUnderscores, if_pos hafter] at h
    obtain ⟨digits, hrest, rfl⟩ := Option.map_eq_some_iff.mp h
    obtain ⟨hc, hmore⟩ := List.forall_mem_cons.mp hdigits
    have hrun := (ih hrest hmore).digitRun (Text.digitValue?_of_isDigit hc)
    exact .grouped (Bool.and_eq_true_iff.mp hafter).1 hrun
  | case4 afterDigit c rest hafter =>
    rw [withoutUnderscores, if_neg hafter] at h
    cases h
  | case5 afterDigit c rest hlast hmore ih =>
    have hne : c ≠ '_' := by
      cases rest with
      | nil => exact fun hc => hlast hc rfl
      | cons d rest => exact fun hc => hmore d rest hc rfl
    rw [withoutUnderscores_cons hne] at h
    obtain ⟨digits, hrest, rfl⟩ := Option.map_eq_some_iff.mp h
    obtain ⟨hc, hdigits⟩ := List.forall_mem_cons.mp hdigits
    exact .run ((ih hrest hdigits).digitRun (Text.digitValue?_of_isDigit hc))

/-- A run of digits comes from a run of digits with the same values. -/
theorem DigitRun.of_mapM {plain : List Char} {values : List Nat} (h : DigitRun plain values)
    {text : List Char} (htext : text.mapM plainChar? = some plain) : DigitRun text values := by
  induction h generalizing text with
  | single hp =>
    obtain ⟨c, rest, rfl, hc, hrest⟩ := exists_cons_of_mapM htext
    rw [eq_nil_of_mapM hrest]
    exact .single (digitValue?_eq_of_plainChar? hc hp)
  | next hp _ ih =>
    obtain ⟨c, rest, rfl, hc, hrest⟩ := exists_cons_of_mapM htext
    exact .next (digitValue?_eq_of_plainChar? hc hp) (ih hrest)
  | grouped hp _ ih =>
    obtain ⟨c, rest, rfl, hc, hrest⟩ := exists_cons_of_mapM htext
    obtain ⟨d, more, rfl, hd, hmore⟩ := exists_cons_of_mapM hrest
    rw [eq_of_plainChar? hd (by decide) (by decide)]
    exact .grouped (digitValue?_eq_of_plainChar? hc hp) (ih hmore)

/-- A run of digits is carried over to ASCII digits and underscores between them. -/
structure Plain (plain : List Char) (values : List Nat) : Prop where
  digits : ∀ afterDigit, withoutUnderscores afterDigit plain = some (values.map digitChar)
  first : ∃ c rest, plain = c :: rest ∧ c.isDigit = true
  last : ∃ c ∈ plain.getLast?, c.isDigit = true

theorem DigitRun.exists_plain {text : List Char} {values : List Nat} (h : DigitRun text values) :
    ∃ plain, text.mapM plainChar? = some plain ∧ Plain plain values := by
  induction h with
  | @single c value hc =>
    have hdigit := isDigit_digitChar (lt_ten_of_digitValue? hc)
    refine ⟨[digitChar value], ?_, fun afterDigit => ?_, ⟨_, _, rfl, hdigit⟩, ⟨_, rfl, hdigit⟩⟩
    · rw [List.mapM_cons, plainChar?_of_digitValue? hc]
      rfl
    · rw [withoutUnderscores_cons (ne_underscore_of_isDigit hdigit), withoutUnderscores]
      rfl
  | @next c value text values hc _ ih =>
    obtain ⟨plain, hplain, hdigits, -, last, hlast, hlastDigit⟩ := ih
    have hdigit := isDigit_digitChar (lt_ten_of_digitValue? hc)
    refine ⟨digitChar value :: plain, ?_, fun afterDigit => ?_, ⟨_, _, rfl, hdigit⟩, last, ?_,
      hlastDigit⟩
    · rw [List.mapM_cons, plainChar?_of_digitValue? hc, hplain]
      rfl
    · rw [withoutUnderscores_cons (ne_underscore_of_isDigit hdigit), hdigits]
      rfl
    · rw [List.getLast?_cons, Option.mem_def.mp hlast]
      rfl
  | @grouped c value text values hc _ ih =>
    obtain ⟨plain, hplain, hdigits, ⟨d, rest, rfl, hd⟩, last, hlast, hlastDigit⟩ := ih
    have hdigit := isDigit_digitChar (lt_ten_of_digitValue? hc)
    have hunderscore : plainChar? '_' = some '_' := by decide
    refine ⟨digitChar value :: '_' :: d :: rest, ?_, fun afterDigit => ?_, ⟨_, _, rfl, hdigit⟩,
      last, ?_, hlastDigit⟩
    · rw [List.mapM_cons, List.mapM_cons, plainChar?_of_digitValue? hc, hunderscore, hplain]
      rfl
    · have hrest := hdigits true
      rw [withoutUnderscores_cons (ne_underscore_of_isDigit hd), hd] at hrest
      have hboth : ((digitChar value).isDigit && d.isDigit) = true := by rw [hdigit, hd]; rfl
      rw [withoutUnderscores_cons (ne_underscore_of_isDigit hdigit), withoutUnderscores,
        if_pos hboth, hrest]
      rfl
    · rw [List.getLast?_cons_cons, List.getLast?_cons_cons]
      exact hlast

/-! ## Signs -/

theorem exists_sign_of_signed {plain digits : List Char} {negative : Bool}
    (h : signed plain = (negative, digits)) :
    ∃ sign, plain = sign ++ digits ∧ SignOf sign (if negative then -1 else 1) := by
  unfold signed at h
  split at h
  · cases h
    exact ⟨['-'], rfl, .minus⟩
  · cases h
    exact ⟨['+'], rfl, .plus⟩
  · cases h
    exact ⟨[], rfl, .absent⟩

theorem signed_append {sign : List Char} {factor : Int} (h : SignOf sign factor) {c : Char}
    (hminus : c ≠ '-') (hplus : c ≠ '+') (rest : List Char) :
    ∃ negative : Bool, signed (sign ++ c :: rest) = (negative, c :: rest) ∧
      factor = if negative then -1 else 1 := by
  cases h with
  | absent =>
    refine ⟨false, ?_, rfl⟩
    unfold signed
    split
    · rename_i heq
      exact absurd (List.cons.inj heq).1 hminus
    · rename_i heq
      exact absurd (List.cons.inj heq).1 hplus
    · rfl
  | plus => exact ⟨false, rfl, rfl⟩
  | minus => exact ⟨true, rfl, rfl⟩

/-- A character that is no digit stands first before and after the underscores are taken out. -/
theorem exists_cons_of_withoutUnderscores {c : Char} (hc : c.isDigit = false)
    {text rest : List Char} (h : withoutUnderscores false text = some (c :: rest)) :
    ∃ run, text = c :: run ∧ withoutUnderscores false run = some rest := by
  cases text with
  | nil => cases h
  | cons d text =>
    by_cases hd : d = '_'
    · subst hd
      cases text with
      | nil => cases h
      | cons => cases h
    · rw [withoutUnderscores_cons hd] at h
      obtain ⟨found, hfound, heq⟩ := Option.map_eq_some_iff.mp h
      cases heq
      rw [hc] at hfound
      exact ⟨text, rfl, hfound⟩

theorem SignOf.exists_run {sign : List Char} {factor : Int} (h : SignOf sign factor)
    {text digits : List Char} (htext : withoutUnderscores false text = some (sign ++ digits)) :
    ∃ run, text = sign ++ run ∧ withoutUnderscores false run = some digits := by
  cases h with
  | absent => exact ⟨text, rfl, htext⟩
  | plus => exact exists_cons_of_withoutUnderscores (by decide) htext
  | minus => exact exists_cons_of_withoutUnderscores (by decide) htext

theorem SignOf.withoutUnderscores_append {sign : List Char} {factor : Int} (h : SignOf sign factor)
    {run digits : List Char} (hrun : withoutUnderscores false run = some digits) :
    withoutUnderscores false (sign ++ run) = some (sign ++ digits) := by
  have hcons : ∀ c : Char, c ≠ '_' → c.isDigit = false →
      withoutUnderscores false (c :: run) = some (c :: digits) := by
    intro c hc hdigit
    rw [withoutUnderscores_cons hc, hdigit, hrun]
    rfl
  cases h with
  | absent => exact hrun
  | plus => exact hcons '+' (by decide) (by decide)
  | minus => exact hcons '-' (by decide) (by decide)

/-- Signs are carried over as they are. -/
theorem SignOf.mapM_plainChar? {sign : List Char} {factor : Int} (h : SignOf sign factor) :
    sign.mapM plainChar? = some sign := by
  cases h <;> decide

theorem SignOf.of_mapM {sign : List Char} {factor : Int} (h : SignOf sign factor)
    {text : List Char} (htext : text.mapM plainChar? = some sign) : text = sign := by
  have hone : ∀ c : Char, c ≠ ' ' → c.isDigit = false → text.mapM plainChar? = some [c] →
      text = [c] := by
    intro c hspace hdigit hc
    obtain ⟨d, rest, rfl, hd, hrest⟩ := exists_cons_of_mapM hc
    rw [eq_of_plainChar? hd hspace hdigit, eq_nil_of_mapM hrest]
  cases h with
  | absent => exact eq_nil_of_mapM htext
  | plus => exact hone '+' (by decide) (by decide) htext
  | minus => exact hone '-' (by decide) (by decide) htext

end Numeral

/-! ## Whole numbers -/

theorem readInteger?_eq_some_iff_plain {text : String} {n : Int} :
    readInteger? text = some n ↔ ∃ plain negative digits, plain? text = some plain ∧
      signed plain = (negative, digits) ∧ digits ≠ [] ∧ (∀ c ∈ digits, c.isDigit = true) ∧
      digits.length ≤ maxDigits ∧ n = (if negative then -1 else 1) * ofDigits digits := by
  have hvalue : ∀ (negative : Bool) (digits : List Char),
      (if negative then -(ofDigits digits : Int) else ofDigits digits) =
        (if negative then -1 else 1) * ofDigits digits := by
    intro negative digits
    cases negative with
    | false => exact (Int.one_mul _).symm
    | true => exact (Int.neg_one_mul _).symm
  unfold readInteger?
  refine Option.bind_eq_some_iff.trans ?_
  constructor
  · rintro ⟨plain, hplain, h⟩
    cases hsigned : signed plain with
    | mk negative digits =>
      rw [hsigned] at h
      dsimp only at h
      split at h
      · cases h
      · rename_i hdigits
        simp only [Bool.or_eq_true, Bool.not_eq_true', decide_eq_true_eq, not_or,
          List.isEmpty_iff, Bool.not_eq_false, List.all_eq_true] at hdigits
        obtain ⟨⟨hne, hall⟩, hlength⟩ := hdigits
        rw [hvalue] at h
        exact ⟨plain, negative, digits, hplain, hsigned, hne, hall, Nat.not_lt.mp hlength,
          (Option.some.inj h).symm⟩
  · rintro ⟨plain, negative, digits, hplain, hsigned, hne, hall, hlength, rfl⟩
    refine ⟨plain, hplain, ?_⟩
    have hdigits : (digits.isEmpty || !digits.all Char.isDigit || maxDigits < digits.length) =
        false := by
      simp only [Bool.or_eq_false_iff, Bool.not_eq_false', decide_eq_false_iff_not,
        List.isEmpty_eq_false_iff, List.all_eq_true]
      exact ⟨⟨hne, hall⟩, Nat.not_lt.mpr hlength⟩
    rw [hsigned]
    dsimp only
    rw [hdigits, hvalue]
    rfl

theorem writes_of_readInteger? {text : String} {n : Int} (h : readInteger? text = some n) :
    Writes text n := by
  obtain ⟨plain, negative, digits, hplain, hsigned, hne, hall, hlength, rfl⟩ :=
    readInteger?_eq_some_iff_plain.mp h
  obtain ⟨chars, hchars, hplain⟩ := Option.bind_eq_some_iff.mp hplain
  obtain ⟨front, back, htrim, hfront, hback⟩ := Text.exists_append_trim isAsciiSpace chars
  obtain ⟨sign, rfl, hsign⟩ := exists_sign_of_signed hsigned
  obtain ⟨run, hrun, hdigits⟩ := hsign.exists_run hplain
  rw [htrim, hrun] at hchars
  obtain ⟨middle, after, hmiddle, hchars, hafter⟩ := exists_append_of_mapM hchars
  obtain ⟨before, numeral, rfl, hbefore, hnumeral⟩ := exists_append_of_mapM hchars
  obtain ⟨sign', run', rfl, hsign', hrun'⟩ := exists_append_of_mapM hnumeral
  have hvalues : digitValues digits ≠ [] := by simpa [digitValues] using hne
  have hdigitRun : DigitRun run (digitValues digits) :=
    (goesOn_of_withoutUnderscores hdigits hall).digitRun_of_ne_nil hvalues
  rw [hsign.of_mapM hsign'] at hmiddle
  rw [ofDigits_eq]
  refine .intro hmiddle (isSpace_of_mapM hbefore hfront) (isSpace_of_mapM hafter hback) hsign
    (hdigitRun.of_mapM hrun') ?_
  unfold digitValues
  rw [List.length_map]
  exact hlength

theorem Numeral.DigitRun.lt_ten {text : List Char} {values : List Nat} (h : DigitRun text values) :
    ∀ value ∈ values, value < 10 := by
  induction h with
  | single hc => simpa using Text.lt_ten_of_digitValue? hc
  | next hc _ ih => exact List.forall_mem_cons.mpr ⟨Text.lt_ten_of_digitValue? hc, ih⟩
  | grouped hc _ ih => exact List.forall_mem_cons.mpr ⟨Text.lt_ten_of_digitValue? hc, ih⟩

theorem Numeral.DigitRun.ne_nil {text : List Char} {values : List Nat} (h : DigitRun text values) :
    values ≠ [] := by
  cases h <;> exact List.cons_ne_nil _ _

theorem isDigit_map_digitChar {values : List Nat} (h : ∀ value ∈ values, value < 10) :
    ∀ c ∈ values.map digitChar, c.isDigit = true := by
  intro c hc
  obtain ⟨value, hvalue, rfl⟩ := List.mem_map.mp hc
  exact Text.isDigit_digitChar (h value hvalue)

theorem digitValues_map_digitChar {values : List Nat} (h : ∀ value ∈ values, value < 10) :
    digitValues (values.map digitChar) = values := by
  unfold digitValues
  rw [List.map_map]
  refine (List.map_congr_left fun value hvalue => ?_).trans (List.map_id values)
  show (digitChar value).toNat - 48 = value
  rw [Text.toNat_digitChar (h value hvalue), Nat.add_sub_cancel_left]

/-- Between its blanks a numeral neither begins nor ends with one. -/
theorem trim_numeral {front back sign plain : List Char} {factor : Int} {values : List Nat}
    (hfront : ∀ c ∈ front, isAsciiSpace c = true) (hback : ∀ c ∈ back, isAsciiSpace c = true)
    (hsign : SignOf sign factor) (hplain : Plain plain values) :
    Text.trim isAsciiSpace (front ++ (sign ++ plain) ++ back) = sign ++ plain := by
  obtain ⟨c, rest, rfl, hc⟩ := hplain.first
  obtain ⟨last, hlast, hlastDigit⟩ := hplain.last
  have hhead : ∃ first, (sign ++ c :: rest).head? = some first ∧ isAsciiSpace first = false := by
    cases hsign with
    | absent => exact ⟨c, rfl, Text.isAsciiSpace_of_isDigit hc⟩
    | plus => exact ⟨'+', rfl, by decide⟩
    | minus => exact ⟨'-', rfl, by decide⟩
  obtain ⟨first, hfirst, hfirstSpace⟩ := hhead
  have hend : (sign ++ c :: rest).getLast? = some last := by
    rw [List.getLast?_append, Option.mem_def.mp hlast]
    rfl
  exact Text.trim_append hfront hback hfirst hfirstSpace hend
    (Text.isAsciiSpace_of_isDigit hlastDigit)

theorem readInteger?_of_writes {text : String} {n : Int} (h : Writes text n) :
    readInteger? text = some n := by
  obtain ⟨htext, hbefore, hafter, hsign, hrun, hlength⟩ := h
  rename_i before sign run after factor values
  obtain ⟨plain, hplain, hplainRun⟩ := hrun.exists_plain
  obtain ⟨front, hfront, hfrontSpace⟩ :=
    exists_mapM_of_forall fun c hc => exists_plainChar?_of_isSpace (hbefore c hc)
  obtain ⟨back, hback, hbackSpace⟩ :=
    exists_mapM_of_forall fun c hc => exists_plainChar?_of_isSpace (hafter c hc)
  have hchars : text.toList.mapM plainChar? = some (front ++ (sign ++ plain) ++ back) := by
    rw [htext]
    exact mapM_append_eq_some
      (mapM_append_eq_some hfront (mapM_append_eq_some hsign.mapM_plainChar? hplain)) hback
  have hread : plain? text = some (sign ++ values.map digitChar) := by
    unfold plain?
    rw [hchars]
    show withoutUnderscores false (Text.trim isAsciiSpace _) = _
    rw [trim_numeral hfrontSpace hbackSpace hsign hplainRun]
    exact hsign.withoutUnderscores_append (hplainRun.digits false)
  have hdigits : ∀ c ∈ values.map digitChar, c.isDigit = true := isDigit_map_digitChar hrun.lt_ten
  have hne : values.map digitChar ≠ [] := by simpa using hrun.ne_nil
  obtain ⟨first, rest, hfirst⟩ := List.exists_cons_of_ne_nil hne
  have hfirstDigit : first.isDigit = true := hdigits first (hfirst ▸ List.mem_cons_self)
  have hsigns : first ≠ '-' ∧ first ≠ '+' := by
    constructor <;> rintro rfl <;> cases hfirstDigit
  obtain ⟨negative, hsigned, hfactor⟩ := signed_append hsign hsigns.1 hsigns.2 rest
  rw [← hfirst] at hsigned
  refine readInteger?_eq_some_iff_plain.mpr ⟨_, negative, _, hread, hsigned, hne, hdigits, ?_, ?_⟩
  · rw [List.length_map]
    exact hlength
  · rw [ofDigits_eq, digitValues_map_digitChar hrun.lt_ten, hfactor]

/-- **A text is read as a number exactly if it writes the number.** -/
theorem readInteger?_eq_some_iff {text : String} {n : Int} :
    readInteger? text = some n ↔ Writes text n :=
  ⟨writes_of_readInteger?, readInteger?_of_writes⟩

end FlowAtlas
