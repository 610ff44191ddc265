import FlowAtlas.Proofs.Number.Words
import FlowAtlas.Proofs.Settings.Layers

/-!
# The time limit that is accepted

Settings are accepted if neither the time limit nor the length of labels is at most zero.  This
makes the length of labels positive, and the time limit too if it is a number.  But the text of a
time limit may spell the word for what is no number, and that is not at most zero either.

Main facts: `CommandLine.exists_offered` (where a time limit of the command line is written) and
`limits_of_settings`.
-/

namespace FlowAtlas

/-! ## Where the time limit is written -/

namespace CommandLine

/-- The texts that a word has for values. -/
def Word.values : Word → List String
  | .plain text => [text]
  | .switch _ (some text) => [text]
  | _ => []

/-- The text is one of the words, or it stands in one behind an equals sign. -/
def Offers (words : List String) (text : String) : Prop :=
  text ∈ words ∨ ∃ front, front ++ "=" ++ text ∈ words

theorem Offers.cons {words : List String} {text : String} (h : Offers words text) (word : String) :
    Offers (word :: words) text := by
  rcases h with hmem | ⟨front, hmem⟩
  · exact Or.inl (List.mem_cons_of_mem _ hmem)
  · exact Or.inr ⟨front, List.mem_cons_of_mem _ hmem⟩

theorem values_nonSwitch {word text : String} (h : text ∈ (nonSwitch word).values) :
    text = word := by
  unfold nonSwitch at h
  split at h
  · exact List.mem_singleton.mp h
  · cases h

/-- What is attached to a switch stands behind an equals sign. -/
theorem values_longWord {word text : String} {w : Word} (hword : longWord word = .ok w)
    (h : text ∈ w.values) : text = word ∨ ∃ front, front ++ "=" ++ text = word := by
  have hattached : ∀ value, word.toList.dropWhile (· ≠ '=') = '=' :: value →
      ∃ front, front ++ "=" ++ String.ofList value = word := by
    intro value hdrop
    refine ⟨String.ofList (word.toList.takeWhile (· ≠ '=')), String.toList_inj.mp ?_⟩
    simp only [String.toList_append, String.toList_ofList, List.append_assoc]
    show _ ++ '=' :: value = _
    rw [← hdrop, List.takeWhile_append_dropWhile]
  unfold longWord at hword
  dsimp only at hword
  split at hword
  · cases hword
    split at h
    · obtain rfl := List.mem_singleton.mp h
      exact Or.inr (hattached _ ‹_›)
    · cases h
  · split at hword
    · cases hword
      exact Or.inl (values_nonSwitch h)
    · cases hword
      split at h
      · obtain rfl := List.mem_singleton.mp h
        exact Or.inr (hattached _ ‹_›)
      · cases h
    · cases hword

theorem values_classifyWord {word text : String} {w : Word} (hword : classifyWord word = .ok w)
    (h : text ∈ w.values) : text = word ∨ ∃ front, front ++ "=" ++ text = word := by
  unfold classifyWord at hword
  split at hword
  · cases hword
    cases h
  · exact values_longWord hword h
  · cases hword
    cases h
  · rename_i heq
    cases hword
    obtain rfl := List.mem_singleton.mp h
    exact Or.inr ⟨"-h", String.toList_inj.mp heq.symm⟩
  · cases hword
    cases h
  · cases hword
    cases h
  · cases hword
    exact Or.inl (values_nonSwitch h)
  · cases hword
    exact Or.inl (List.mem_singleton.mp h)

theorem classify_cons {word : String} {words : List String} {ws : List Word}
    (h : classify (word :: words) = .ok ws) :
    ∃ w, classifyWord word = .ok w ∧ (ws = .separator :: words.map .plain ∨
      ∃ rest, classify words = .ok rest ∧ ws = w :: rest) := by
  unfold classify at h
  cases hword : classifyWord word with
  | error e =>
    rw [hword] at h
    cases h
  | ok w =>
    rw [hword] at h
    refine ⟨w, rfl, ?_⟩
    cases hrest : classify words with
    | error e =>
      rw [hrest] at h
      cases w <;> cases h
      exact Or.inl rfl
    | ok rest =>
      rw [hrest] at h
      cases w with
      | separator =>
        cases h
        exact Or.inl rfl
      | plain | switch | cluster | unknown =>
        cases h
        exact Or.inr ⟨rest, rfl, rfl⟩

theorem offers_of_classify {words : List String} {ws : List Word} (h : classify words = .ok ws) :
    ∀ text ∈ ws.flatMap Word.values, Offers words text := by
  induction words generalizing ws with
  | nil =>
    cases h
    exact fun _ hmem => nomatch hmem
  | cons word words ih =>
    obtain ⟨w, hword, rfl | ⟨rest, hrest, rfl⟩⟩ := classify_cons h
    · intro text hmem
      have hplain : text ∈ (words.map Word.plain).flatMap Word.values := hmem
      rw [List.flatMap_map] at hplain
      obtain ⟨other, hother, htext⟩ := List.mem_flatMap.mp hplain
      obtain rfl := List.mem_singleton.mp htext
      exact Or.inl (List.mem_cons_of_mem _ hother)
    · intro text hmem
      rw [List.flatMap_cons, List.mem_append] at hmem
      rcases hmem with hmem | hmem
      · rcases values_classifyWord hword hmem with rfl | ⟨front, rfl⟩
        · exact Or.inl List.mem_cons_self
        · exact Or.inr ⟨front, List.mem_cons_self⟩
      · exact (ih hrest text hmem).cons word

/-! ## Which one is taken -/

section Taking

variable {a b : Arguments} {limit : Binary64}

theorem timeout_withValue {s : Switch} {value : String} (h : a.withValue s value = .ok b)
    (hlimit : b.timeout = .given limit) :
    a.timeout = .given limit ∨ Binary64.read? value = some limit := by
  unfold Arguments.withValue at h
  split at h
  · cases h
    exact Or.inl hlimit
  · cases h
    exact Or.inl hlimit
  · cases h
    exact Or.inl hlimit
  · split at h
    · rename_i read hread
      cases h
      cases hlimit
      exact Or.inr hread
    · cases h
  · cases h

theorem timeout_withAttached {s : Switch} {text : String} (h : a.withAttached s text = .ok b)
    (hlimit : b.timeout = .given limit) :
    a.timeout = .given limit ∨ Binary64.read? text = some limit := by
  unfold Arguments.withAttached at h
  split at h
  · cases h
    cases s <;> first | exact Or.inl hlimit | cases hlimit
  · exact timeout_withValue h hlimit

theorem timeout_withSwitch (a : Arguments) (s : Switch) : (a.withSwitch s).timeout = a.timeout := by
  cases s <;> rfl

@[simp] theorem arguments_takeInput (r : Reading) (text : String) :
    (r.takeInput text).arguments = r.arguments := by
  unfold Reading.takeInput
  split <;> rfl

/-- A switch without value looks at no other word. -/
theorem readWords_switch {s : Switch} (h : s.takesValue = false) (r : Reading) (rest : List Word) :
    readWords r (.switch s none :: rest) =
      if s = .help then .ok .help else readWords (r.leave (r.arguments.withSwitch s)) rest := by
  cases s with
  | sourceRoot | outputDir | dot | timeout => cases h
  | help | noRender | verbose =>
    cases rest with
    | nil => rfl
    | cons w rest => cases w <;> rfl

/-- One of the words has the time limit for its value. -/
def Gives (ws : List Word) (limit : Binary64) : Prop :=
  ∃ text ∈ ws.flatMap Word.values, Binary64.read? text = some limit

theorem Gives.cons {ws : List Word} (h : Gives ws limit) (w : Word) : Gives (w :: ws) limit := by
  obtain ⟨text, hmem, hread⟩ := h
  exact ⟨text, by rw [List.flatMap_cons]; exact List.mem_append_right _ hmem, hread⟩

theorem gives_of_mem_values {w : Word} {text : String} (hmem : text ∈ w.values)
    (hread : Binary64.read? text = some limit) (ws : List Word) : Gives (w :: ws) limit :=
  ⟨text, by rw [List.flatMap_cons]; exact List.mem_append_left _ hmem, hread⟩

/-- A time limit that is taken was there before or is the value of one of the words. -/
theorem gives_of_readWords {r : Reading} {ws : List Word} (h : readWords r ws = .ok (.run a))
    (hlimit : a.timeout = .given limit) : r.arguments.timeout = .given limit ∨ Gives ws limit := by
  -- The cases are the reader's own: a switch takes its value from the word itself or the next one.
  induction r, ws using readWords.induct with
  | case1 r =>
    unfold readWords Reading.finish at h
    split at h
    · cases h
      exact Or.inl hlimit
    · cases h
  | case2 r text rest ih =>
    rw [readWords] at h
    simpa using (ih h).imp_right fun hgives => hgives.cons (.plain text)
  | case3 r rest ih =>
    rw [readWords] at h
    simpa using (ih h).imp_right fun hgives => hgives.cons .separator
  | case4 r text rest ih =>
    rw [readWords] at h
    exact (ih h).imp_right fun hgives => hgives.cons (.unknown text)
  | case5 r letters rest value hvalue =>
    rw [readWords, hvalue] at h
    cases h
  | case6 r letters rest hnone =>
    rw [readWords, hnone] at h
    cases h
  | case7 r s value rest ih =>
    rw [readWords] at h
    cases hattached : r.arguments.withAttached s value with
    | error e =>
      rw [hattached] at h
      cases h
    | ok arguments =>
      rw [hattached] at h
      rcases ih arguments h with hbefore | hgives
      · exact (timeout_withAttached hattached hbefore).imp_right fun hread =>
          gives_of_mem_values (w := .switch s (some value)) List.mem_cons_self hread rest
      · exact Or.inr (hgives.cons _)
  | case8 r rest =>
    rw [readWords_switch rfl, if_pos rfl] at h
    cases h
  | case9 r s hhelp htakes value rest ih =>
    rw [readWords, if_neg hhelp, if_pos htakes] at h
    cases hvalue : r.arguments.withValue s value with
    | error e =>
      rw [hvalue] at h
      cases h
    | ok arguments =>
      rw [hvalue] at h
      rcases ih arguments h with hbefore | hgives
      · exact (timeout_withValue hvalue hbefore).imp_right fun hread =>
          (gives_of_mem_values (w := .plain value) List.mem_cons_self hread rest).cons _
      · exact Or.inr ((hgives.cons _).cons _)
  | case10 r s rest hhelp htakes hnone =>
    rw [readWords, if_neg hhelp, if_pos htakes] at h
    · cases h
    · exact hnone
  | case11 r s rest hhelp htakes ih =>
    rw [readWords_switch (by simpa using htakes), if_neg hhelp] at h
    have hsame := (ih h).imp_right fun hgives => hgives.cons (.switch s none)
    rwa [Reading.leave, timeout_withSwitch] at hsame

end Taking

/-- **A time limit that a command line gives stands there**, as a word or behind an equals sign. -/
theorem exists_offered {words : List String} {a : Arguments} (h : parse words = .ok (.run a))
    {limit : Binary64} (hlimit : a.timeout = .given limit) :
    ∃ text, Offers words text ∧ Binary64.read? text = some limit := by
  unfold parse at h
  cases hwords : classify words with
  | error e =>
    rw [hwords] at h
    cases h
  | ok ws =>
    rw [hwords] at h
    rcases gives_of_readWords h hlimit with hstart | ⟨text, hmem, hread⟩
    · cases hstart
    · exact ⟨text, offers_of_classify hwords text hmem, hread⟩

end CommandLine

/-! ## Which limits are accepted -/

/-- What is neither at most zero nor no number is greater than zero. -/
theorem Binary64.isPositive_iff {x : Binary64} :
    x.isPositive = true ↔ x.isAtMostZero = false ∧ x ≠ .nan := by
  cases x <;> simp [isPositive, isAtMostZero]

namespace Settings

theorem of_check {s s' : Settings} (h : s.check = .ok s') :
    s' = s ∧ s.timeout.isAtMostZero = false ∧ 0 < s.maxLabelLength := by
  unfold check at h
  split at h
  · cases h
  · rename_i htimeout
    split at h
    · cases h
    · rename_i hlength
      exact ⟨(Except.ok.inj h).symm, Bool.not_eq_true _ ▸ htimeout, Int.not_le.mp hlength⟩

theorem limitIn_eq_nan_iff {env : Environment} :
    limitIn env = .nan ↔ ∃ text negative, Variable.timeout.valueIn env = some text ∧
      SpellsWord "nan" text negative := by
  have hstandard : standard.timeout ≠ .nan := by decide +kernel
  have hread : ∀ text, Variable.timeout.valueIn env = some text →
      (limitIn env = .nan ↔ Binary64.read? text = some .nan) := by
    intro text htext
    unfold limitIn timeoutIn
    rw [htext]
    cases hread : Binary64.read? text with
    | none => simpa [hread, Except.toOption] using hstandard
    | some timeout => simp [hread, Except.toOption]
  cases htext : Variable.timeout.valueIn env with
  | none =>
    have hlimit : limitIn env = standard.timeout := by
      unfold limitIn timeoutIn
      rw [htext]
      rfl
    rw [hlimit]
    exact ⟨fun h => absurd h hstandard, fun ⟨_, _, h, _⟩ => nomatch h⟩
  | some text =>
    rw [hread text htext, Binary64.read?_eq_nan_iff]
    constructor
    · rintro ⟨negative, hspells⟩
      exact ⟨text, negative, rfl, hspells⟩
    · rintro ⟨other, negative, hother, hspells⟩
      cases hother
      exact ⟨negative, hspells⟩

end Settings

/-- What accepted settings are made of. -/
theorem Arguments.of_settings {a : Arguments} {env : Settings.Environment} {s : Settings}
    (h : a.settings env = .ok s) :
    s = a.laidOver (Settings.told env) ∧ a.timeout ≠ .void ∧ s.timeout.isAtMostZero = false ∧
      0 < s.maxLabelLength := by
  have hover : s = a.laidOver (Settings.told env) := by
    rw [settings_eq] at h
    cases hfault : a.firstFault? env with
    | none =>
      rw [hfault] at h
      exact (Except.ok.inj h).symm
    | some e =>
      rw [hfault] at h
      cases h
  rw [settings_eq_bind] at h
  cases hbase : Settings.ofEnvironment env with
  | error e =>
    rw [hbase] at h
    cases h
  | ok base =>
    rw [hbase, Except.bind] at h
    split at h
    · cases h
    · rename_i hvoid
      obtain ⟨rfl, hlimits⟩ := Settings.of_check h
      exact ⟨hover, hvoid, hlimits⟩

/-- **Accepted settings have a positive length of labels, and a positive time limit unless its text
spells the word for what is no number.**  The text is the one of the command line, which stands
there as a word or behind an equals sign, or else the one of the environment. -/
theorem limits_of_settings {words : List String} {a : Arguments}
    (hparse : CommandLine.parse words = .ok (.run a)) {env : Settings.Environment} {s : Settings}
    (h : a.settings env = .ok s) :
    0 < s.maxLabelLength ∧
      (s.timeout.isPositive = true ↔ s.timeout ≠ .nan) ∧
      (s.timeout = .nan ↔ a.timeout = .given .nan ∨ a.timeout = .unset ∧
        ∃ text negative, Settings.Variable.timeout.valueIn env = some text ∧
          SpellsWord "nan" text negative) ∧
      (a.timeout = .given .nan → ∃ text negative, CommandLine.Offers words text ∧
        SpellsWord "nan" text negative) := by
  obtain ⟨hover, hvoid, htimeout, hlength⟩ := Arguments.of_settings h
  refine ⟨hlength, ?_, ?_, ?_⟩
  · rw [Binary64.isPositive_iff, and_iff_right htimeout]
  · rw [← Settings.limitIn_eq_nan_iff]
    have hlimit : s.timeout = a.timeout.getD (Settings.limitIn env) := by rw [hover]; rfl
    rw [hlimit]
    cases hchoice : a.timeout with
    | unset => simp [Choice.getD]
    | void => exact absurd hchoice hvoid
    | given limit => simp [Choice.getD]
  · intro hgiven
    obtain ⟨text, hoffers, hread⟩ := CommandLine.exists_offered hparse hgiven
    obtain ⟨negative, hspells⟩ := Binary64.read?_eq_nan_iff.mp hread
    exact ⟨text, negative, hoffers, hspells⟩

namespace WrittenLimit

/-- A command line that gives a time limit. -/
def words (text : String) : List String := ["--timeout=" ++ text]

/-- What it tells. -/
def arguments (limit : Binary64) : Arguments := { Arguments.none with timeout := .given limit }

/-- The settings that it makes without an environment. -/
def settings (limit : Binary64) : Settings := { Settings.standard with timeout := limit }

end WrittenLimit

open WrittenLimit in
/-- A thousandth of a second is a time limit. -/
theorem thousandth_limits :
    CommandLine.parse (words "1e-3") = .ok (.run (arguments (.ofRatio false 1 1000))) ∧
      (arguments (.ofRatio false 1 1000)).settings .empty =
        .ok (settings (.ofRatio false 1 1000)) ∧
      0 < (settings (.ofRatio false 1 1000)).maxLabelLength ∧
      (settings (.ofRatio false 1 1000)).timeout.isPositive = true := by
  have hparse : CommandLine.parse (words "1e-3") =
      .ok (.run (arguments (.ofRatio false 1 1000))) := ok_of_toOption (by decide +kernel)
  have hsettings : (arguments (.ofRatio false 1 1000)).settings .empty =
      .ok (settings (.ofRatio false 1 1000)) := ok_of_toOption (by decide +kernel)
  have hlimits := limits_of_settings hparse hsettings
  exact ⟨hparse, hsettings, hlimits.1, hlimits.2.1.mpr (by decide +kernel)⟩

open WrittenLimit in
/-- The word for what is no number is accepted for a time limit. -/
theorem not_forall_limits :
    ¬ ∀ (words : List String) (a : Arguments) (env : Settings.Environment) (s : Settings),
      CommandLine.parse words = .ok (.run a) → a.settings env = .ok s →
        s.timeout.isPositive = true ∧ 0 < s.maxLabelLength := by
  intro h
  have hparse : CommandLine.parse (words "nan") = .ok (.run (arguments .nan)) :=
    ok_of_toOption (by decide +kernel)
  have hsettings : (arguments .nan).settings .empty = .ok (settings .nan) :=
    ok_of_toOption (by decide +kernel)
  exact absurd (h _ _ _ _ hparse hsettings).1 (by decide)

end FlowAtlas
