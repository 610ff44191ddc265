import FlowAtlas.Number.Decimal
import FlowAtlas.Proofs.Markup.Values
import FlowAtlas.Proofs.Number.Spelling

/-!
# Words for numbers

A decimal number can be written as a word: `inf` and `infinity` for what is beyond all numbers, and
`nan` for what is none.  The letters may be of either case, a sign may stand before them, and blanks
may stand around them.  Digits may be read as what is beyond all numbers, but never as what is none.

Main facts: `Numeral.plain?_eq_some_iff` (the texts that leave a word for the reader) and
`Binary64.read?_eq_nan_iff`.
-/

namespace FlowAtlas

open Text (isSpace isAsciiSpace)

namespace Numeral

/-! ## Marks -/

/-- A character that is carried over as it is and neither cut off nor taken out. -/
structure IsMark (c : Char) : Prop where
  ascii : c.toNat < 0x7f
  space : isAsciiSpace c = false
  digit : c.isDigit = false
  underscore : c ≠ '_'

theorem IsMark.plainChar? {c : Char} (h : IsMark c) : plainChar? c = some c := by
  unfold Numeral.plainChar?
  rw [if_pos h.ascii]

/-- Only a mark itself is carried over to it. -/
theorem IsMark.eq_of_plainChar? {c mark : Char} (h : IsMark mark)
    (hc : Numeral.plainChar? c = some mark) : c = mark := by
  refine Numeral.eq_of_plainChar? hc ?_ h.digit
  rintro rfl
  exact absurd h.space (by decide)

section Marks

variable {marks : List Char}

theorem mapM_plainChar?_marks (h : ∀ c ∈ marks, IsMark c) : marks.mapM plainChar? = some marks := by
  induction marks with
  | nil => rfl
  | cons c marks ih =>
    obtain ⟨hc, hmarks⟩ := List.forall_mem_cons.mp h
    rw [List.mapM_cons, hc.plainChar?, ih hmarks]
    rfl

theorem eq_marks_of_mapM (h : ∀ c ∈ marks, IsMark c) {text : List Char}
    (htext : text.mapM plainChar? = some marks) : text = marks := by
  induction marks generalizing text with
  | nil => exact eq_nil_of_mapM htext
  | cons c marks ih =>
    obtain ⟨hc, hmarks⟩ := List.forall_mem_cons.mp h
    obtain ⟨d, rest, rfl, hd, hrest⟩ := exists_cons_of_mapM htext
    rw [hc.eq_of_plainChar? hd, ih hmarks hrest]

theorem withoutUnderscores_marks (h : ∀ c ∈ marks, IsMark c) :
    withoutUnderscores false marks = some marks := by
  induction marks with
  | nil => rw [withoutUnderscores]
  | cons c marks ih =>
    obtain ⟨hc, hmarks⟩ := List.forall_mem_cons.mp h
    rw [withoutUnderscores_cons hc.underscore, hc.digit, ih hmarks]
    rfl

theorem eq_marks_of_withoutUnderscores (h : ∀ c ∈ marks, IsMark c) {text : List Char}
    (htext : withoutUnderscores false text = some marks) : text = marks := by
  induction marks generalizing text with
  | nil =>
    cases goesOn_of_withoutUnderscores htext (List.forall_mem_nil _) with
    | ended => rfl
    | run hrun => cases hrun
    | grouped hafter => cases hafter
  | cons c marks ih =>
    obtain ⟨hc, hmarks⟩ := List.forall_mem_cons.mp h
    obtain ⟨run, rfl, hrun⟩ := exists_cons_of_withoutUnderscores hc.digit htext
    rw [ih hmarks hrun]

theorem trim_marks (hne : marks ≠ []) (h : ∀ c ∈ marks, IsMark c) {front back : List Char}
    (hfront : ∀ c ∈ front, isAsciiSpace c = true) (hback : ∀ c ∈ back, isAsciiSpace c = true) :
    Text.trim isAsciiSpace (front ++ marks ++ back) = marks :=
  Text.trim_append hfront hback (List.head?_eq_some_head hne) (h _ (List.head_mem hne)).space
    (List.getLast?_eq_some_getLast hne) (h _ (List.getLast_mem hne)).space

/-- **Marks are left for the reader exactly of a text that is made of them**, with blanks around
them. -/
theorem plain?_eq_some_iff (hne : marks ≠ []) (h : ∀ c ∈ marks, IsMark c) {text : String} :
    plain? text = some marks ↔ ∃ before after, text.toList = before ++ marks ++ after ∧
      (∀ c ∈ before, isSpace c = true) ∧ ∀ c ∈ after, isSpace c = true := by
  constructor
  · intro hplain
    obtain ⟨chars, hchars, hplain⟩ := Option.bind_eq_some_iff.mp hplain
    obtain ⟨front, back, htrim, hfront, hback⟩ := Text.exists_append_trim isAsciiSpace chars
    rw [htrim, eq_marks_of_withoutUnderscores h hplain] at hchars
    obtain ⟨middle, after, hmiddle, hchars, hafter⟩ := exists_append_of_mapM hchars
    obtain ⟨before, own, rfl, hbefore, hown⟩ := exists_append_of_mapM hchars
    rw [eq_marks_of_mapM h hown] at hmiddle
    exact ⟨before, after, hmiddle, isSpace_of_mapM hbefore hfront, isSpace_of_mapM hafter hback⟩
  · rintro ⟨before, after, htext, hbefore, hafter⟩
    obtain ⟨front, hfront, hfrontSpace⟩ :=
      exists_mapM_of_forall fun c hc => exists_plainChar?_of_isSpace (hbefore c hc)
    obtain ⟨back, hback, hbackSpace⟩ :=
      exists_mapM_of_forall fun c hc => exists_plainChar?_of_isSpace (hafter c hc)
    have hchars : text.toList.mapM plainChar? = some (front ++ marks ++ back) := by
      rw [htext]
      exact mapM_append_eq_some (mapM_append_eq_some hfront (mapM_plainChar?_marks h)) hback
    unfold plain?
    rw [hchars]
    show withoutUnderscores false (Text.trim isAsciiSpace _) = _
    rw [trim_marks hne h hfrontSpace hbackSpace, withoutUnderscores_marks h]

end Marks

/-! ## Letters -/

theorem toNat_range_of_isAlpha {c : Char} (h : c.isAlpha = true) :
    65 ≤ c.toNat ∧ c.toNat ≤ 90 ∨ 97 ≤ c.toNat ∧ c.toNat ≤ 122 := by
  rcases Bool.or_eq_true_iff.mp h with hupper | hlower
  · exact Or.inl (Markup.isUpper_iff.mp hupper)
  · exact Or.inr (Markup.isLower_iff.mp hlower)

theorem isMark_of_isAlpha {c : Char} (h : c.isAlpha = true) : IsMark c := by
  have hrange := toNat_range_of_isAlpha h
  refine ⟨by omega, ?_, ?_, ?_⟩
  · simp only [isAsciiSpace, Bool.or_eq_false_iff, Bool.and_eq_false_iff, decide_eq_false_iff_not]
    omega
  · rw [← Bool.not_eq_true, Text.isDigit_iff]
    omega
  · rintro rfl
    cases h

theorem isAlpha_of_toLower {c : Char} (h : c.toLower.isLower = true) : c.isAlpha = true := by
  by_cases hupper : c.isUpper = true
  · exact Bool.or_eq_true_iff.mpr (Or.inl hupper)
  · rw [Markup.toLower_of_not_isUpper hupper] at h
    exact Bool.or_eq_true_iff.mpr (Or.inr h)

theorem isMark_of_mem_sign {sign : List Char} {factor : Int} (h : SignOf sign factor) :
    ∀ c ∈ sign, IsMark c := by
  cases h with
  | absent => exact List.forall_mem_nil _
  | plus => exact List.forall_mem_singleton.mpr ⟨by decide, by decide, by decide, by decide⟩
  | minus => exact List.forall_mem_singleton.mpr ⟨by decide, by decide, by decide, by decide⟩

end Numeral

open Numeral

/-- **The text spells the word**, in letters of either case, with a sign or none, and with blanks
around them. -/
inductive SpellsWord (word : String) (text : String) : Bool → Prop
  | intro {before sign letters after : List Char} {negative : Bool}
      (htext : text.toList = before ++ (sign ++ letters) ++ after)
      (hbefore : ∀ c ∈ before, isSpace c = true) (hafter : ∀ c ∈ after, isSpace c = true)
      (hsign : SignOf sign (if negative then -1 else 1))
      (hletters : letters.map Char.toLower = word.toList) : SpellsWord word text negative

section Spelled

variable {word text : String} {negative : Bool}

theorem isAlpha_of_map_toLower (hword : word.toList.all Char.isLower = true) {letters : List Char}
    (h : letters.map Char.toLower = word.toList) : ∀ c ∈ letters, c.isAlpha = true := by
  intro c hc
  have hlower : c.toLower ∈ word.toList := h ▸ List.mem_map_of_mem hc
  exact isAlpha_of_toLower (List.all_eq_true.mp hword _ hlower)

theorem ne_nil_of_map_toLower (hne : word.toList ≠ []) {letters : List Char}
    (h : letters.map Char.toLower = word.toList) : letters ≠ [] := by
  rintro rfl
  exact hne h.symm

/-- A text spells a word exactly if a sign and the letters of the word are left of it. -/
theorem spellsWord_iff (hne : word.toList ≠ []) (hword : word.toList.all Char.isLower = true) :
    SpellsWord word text negative ↔ ∃ plain letters, plain? text = some plain ∧
      signed plain = (negative, letters) ∧ letters.map Char.toLower = word.toList := by
  have hmarks : ∀ {sign letters : List Char} {factor : Int}, SignOf sign factor →
      letters.map Char.toLower = word.toList → ∀ c ∈ sign ++ letters, IsMark c := by
    intro sign letters factor hsign hletters
    refine List.forall_mem_append.mpr ⟨isMark_of_mem_sign hsign, fun c hc => ?_⟩
    exact isMark_of_isAlpha (isAlpha_of_map_toLower hword hletters c hc)
  have happend : ∀ {sign letters : List Char}, letters.map Char.toLower = word.toList →
      sign ++ letters ≠ [] := by
    intro sign letters hletters
    exact List.append_ne_nil_of_right_ne_nil _ (ne_nil_of_map_toLower hne hletters)
  constructor
  · rintro ⟨htext, hbefore, hafter, hsign, hletters⟩
    rename_i before sign letters after
    refine ⟨sign ++ letters, letters, ?_, ?_, hletters⟩
    · exact (plain?_eq_some_iff (happend hletters) (hmarks hsign hletters)).mpr
        ⟨before, after, htext, hbefore, hafter⟩
    · obtain ⟨first, rest, rfl⟩ := List.exists_cons_of_ne_nil (ne_nil_of_map_toLower hne hletters)
      have hfirst := isAlpha_of_map_toLower hword hletters first List.mem_cons_self
      obtain ⟨found, hsigned, hfactor⟩ := signed_append hsign (c := first)
        (by rintro rfl; cases hfirst) (by rintro rfl; cases hfirst) rest
      cases found <;> cases negative <;> first | exact hsigned | cases hfactor
  · rintro ⟨plain, letters, hplain, hsigned, hletters⟩
    obtain ⟨sign, rfl, hsign⟩ := exists_sign_of_signed hsigned
    obtain ⟨before, after, htext, hbefore, hafter⟩ :=
      (plain?_eq_some_iff (happend hletters) (hmarks hsign hletters)).mp hplain
    exact ⟨htext, hbefore, hafter, hsign, hletters⟩

end Spelled

/-! ## Reading -/

namespace Binary64

variable {text : String} {negative : Bool}

/-- What a sign and the characters behind it denote. -/
def readSigned (negative : Bool) (magnitude : List Char) : Option Binary64 :=
  let word := String.ofList (magnitude.map Char.toLower)
  if word = "inf" || word = "infinity" then some (.infinite negative)
  else if word = "nan" then some .nan
  else readMagnitude negative magnitude

theorem read?_eq_some_iff {value : Binary64} :
    read? text = some value ↔ ∃ plain negative magnitude, plain? text = some plain ∧
      signed plain = (negative, magnitude) ∧ readSigned negative magnitude = some value := by
  refine Option.bind_eq_some_iff.trans ?_
  constructor
  · rintro ⟨plain, hplain, hvalue⟩
    exact ⟨plain, _, _, hplain, rfl, hvalue⟩
  · rintro ⟨plain, negative, magnitude, hplain, hsigned, hvalue⟩
    refine ⟨plain, hplain, ?_⟩
    rw [hsigned]
    exact hvalue

theorem ofList_eq_iff {magnitude : List Char} {word : String} :
    String.ofList (magnitude.map Char.toLower) = word ↔
      magnitude.map Char.toLower = word.toList := by
  rw [← String.toList_inj, String.toList_ofList]

theorem ofUnits_ne_nan (negative : Bool) (num den : Nat) : ofUnits negative num den ≠ .nan := by
  unfold ofUnits
  dsimp only
  split <;> exact nofun

theorem ofDecimal_ne_nan (negative : Bool) (coefficient : Nat) (exponent : Int) :
    ofDecimal negative coefficient exponent ≠ .nan := by
  unfold ofDecimal
  split
  · exact nofun
  · dsimp only
    split
    · exact nofun
    · split
      · exact nofun
      · exact ofUnits_ne_nan _ _ _

theorem readPower_ne_nan (negative : Bool) (digits : List Char) (places : Nat) (rest : List Char) :
    readPower negative digits places rest ≠ some .nan := by
  have hdecimal : ∀ coefficient exponent,
      some (ofDecimal negative coefficient exponent) ≠ some .nan :=
    fun _ _ h => ofDecimal_ne_nan _ _ _ (Option.some.inj h)
  cases rest with
  | nil => exact hdecimal _ _
  | cons mark rest =>
    unfold readPower
    dsimp only
    split
    · exact hdecimal _ _
    · exact (Option.some_ne_none _).symm

theorem readMagnitude_ne_nan (negative : Bool) (text : List Char) :
    readMagnitude negative text ≠ some .nan := by
  unfold readMagnitude
  dsimp only
  split <;> split
  · exact nofun
  · exact readPower_ne_nan _ _ _ _
  · exact nofun
  · exact readPower_ne_nan _ _ _ _

theorem readSigned_eq_nan_iff {magnitude : List Char} :
    readSigned negative magnitude = some .nan ↔ magnitude.map Char.toLower = "nan".toList := by
  rw [← ofList_eq_iff]
  unfold readSigned
  dsimp only
  split
  · rename_i hword
    refine ⟨nofun, fun hnan => ?_⟩
    rw [hnan] at hword
    cases hword
  · split
    · rename_i hnan
      exact ⟨fun _ => hnan, fun _ => rfl⟩
    · rename_i hnan
      exact ⟨fun h => absurd h (readMagnitude_ne_nan _ _), fun h => absurd h hnan⟩

/-- **A text is read as what is no number exactly if it spells the word for it.** -/
theorem read?_eq_nan_iff :
    read? text = some .nan ↔ ∃ negative, SpellsWord "nan" text negative := by
  simp only [read?_eq_some_iff, spellsWord_iff (by decide : "nan".toList ≠ []) (by decide),
    readSigned_eq_nan_iff]
  constructor
  · rintro ⟨plain, negative, letters, h⟩
    exact ⟨negative, plain, letters, h⟩
  · rintro ⟨negative, plain, letters, h⟩
    exact ⟨plain, negative, letters, h⟩

end Binary64

end FlowAtlas
