import YamlLinter.Config
import YamlLinter.Proofs.Configuration.Values

/-!
# Configurations are JSON

A configuration is read from left to right, each setting as soon as its value is there. The same
configuration comes out if the text is read as a JSON value first: the object of settings is looked up
in it, its values are taken as settings, and they are put in their places one after the other.

## Contents

* `LintConfig.entries`, `LintConfig.settings?`, `LintConfig.ofJson?`: the configuration that a value
  describes;
* `readSettingsFrom_succ`, `exists_of_readSettingsFrom`, `readSettings_iff`: the object of settings;
* `readMembers_eq_ok_iff`, `readItems_eq_ok_iff`: what can stand around it;
* `readMembers_iff`, `readItems_iff`, `readTop_iff`: the same, read as a value;
* `read_eq_ok_iff`: reading a configuration and reading a value.
-/

namespace YamlLinter.LintConfig

open Json

/-! ## The configuration that a value describes -/

/-- The members of the object of settings. It is the member `rules` of an object, or the item of an
array; there may be none. -/
def entries : Json → Option (List (String × Json))
  | .object [] => some []
  | .object [(name, .object members)] => if name = "rules" then some members else none
  | .array [] => some []
  | .array [.object members] => some members
  | _ => none

/-- The settings that the members of an object describe, in the order of the text. -/
def settings? : List (String × Json) → Option (List (String × Setting))
  | [] => some []
  | (id, value) :: more =>
    match Setting.ofJson value, settings? more with
    | some setting, some settings => some ((id, setting) :: settings)
    | _, _ => none

/-- The configuration that a value describes, without defaults. -/
def ofJson? (v : Json) : Option LintConfig :=
  match entries v with
  | none => none
  | some members => (settings? members).map fun settings => ⟨setRules [] settings⟩

variable {cs rest : List Char} {first : Bool} {fuel : Nat} {rules rules' : List (String × Setting)}
  {members : List (String × Json)} {settings : List (String × Setting)}

/-- The setting of the first rule, and those of the others. -/
theorem settings?_cons {id : String} {value : Json} :
    settings? ((id, value) :: members) = some settings ↔
      ∃ setting more, Setting.ofJson value = some setting ∧ settings? members = some more ∧
        settings = (id, setting) :: more := by
  rw [settings?]
  constructor
  · intro h
    split at h
    · rename_i setting more hsetting hmore
      cases h
      exact ⟨setting, more, hsetting, hmore, rfl⟩
    · cases h
  · rintro ⟨setting, more, hsetting, hmore, rfl⟩
    rw [hsetting, hmore]

/-- A configuration is made of the settings that its rules have. -/
theorem ofJson?_eq_some_iff {v : Json} {config : LintConfig} :
    ofJson? v = some config ↔
      ∃ members settings, entries v = some members ∧ settings? members = some settings ∧
        config = ⟨setRules [] settings⟩ := by
  unfold ofJson?
  cases hentries : entries v with
  | none => simp
  | some members =>
    constructor
    · intro h
      obtain ⟨settings, hsettings, rfl⟩ := Option.map_eq_some_iff.1 h
      exact ⟨members, settings, rfl, hsettings, rfl⟩
    · rintro ⟨_, settings, heq, hsettings, rfl⟩
      cases heq
      exact Option.map_eq_some_iff.2 ⟨settings, hsettings, rfl⟩

/-! ## The object of settings -/

/-- One step over the settings: their end, or a rule with its setting and the others. -/
theorem readSettingsFrom_succ :
    readSettingsFrom (fuel + 1) first rules cs = .ok (rules', rest) ↔
      Seals first cs rest ∧ rules' = rules ∨
        ∃ id text value behind setting, Names first cs id text ∧ Reads 2 text value behind ∧
          Setting.ofJson value = some setting ∧
          readSettingsFrom fuel false (setRule rules id setting) behind = .ok (rules', rest) := by
  constructor
  · intro h
    unfold readSettingsFrom at h
    split at h
    · cases h
    · rename_i brace hseam
      cases h
      exact .inl ⟨⟨brace, hseam, rfl⟩, rfl⟩
    · rename_i quoted hseam
      split at h
      · cases h
      · rename_i id behind htext
        split at h
        · cases h
        · rename_i text hcolon
          split at h
          · cases h
          · rename_i value rest₁ hvalue
            split at h
            · cases h
            · rename_i setting hsetting
              exact .inr ⟨id, text, value, rest₁, setting, ⟨quoted, behind, hseam, htext, hcolon⟩,
                reads_iff.2 hvalue, hsetting, h⟩
  · rintro (⟨⟨brace, hseam, rfl⟩, rfl⟩ |
      ⟨id, text, value, behind, setting, ⟨quoted, after, hseam, htext, hcolon⟩, hvalue, hsetting, h⟩)
    · simp only [readSettingsFrom, hseam]
    · have hvalue := reads_iff.1 hvalue
      simp only [readSettingsFrom, hseam, htext, hcolon, hvalue, hsetting, h]

/-- Settings are the members of an object, put in their places. -/
theorem exists_of_readSettingsFrom (h : readSettingsFrom fuel first rules cs = .ok (rules', rest)) :
    ∃ members settings, ReadsMembers 2 first cs members rest ∧ settings? members = some settings ∧
      rules' = setRules rules settings := by
  induction fuel generalizing first rules cs with
  | zero => cases h
  | succ fuel ih =>
    obtain ⟨hseals, rfl⟩ | ⟨id, text, value, behind, setting, hnames, hvalue, hsetting, h⟩ :=
      readSettingsFrom_succ.1 h
    · exact ⟨[], [], readsMembers_iff.2 (.inl ⟨hseals, rfl⟩), rfl, rfl⟩
    · obtain ⟨members, settings, hmembers, hsettings, rfl⟩ := ih h
      refine ⟨(id, value) :: members, (id, setting) :: settings, ?_, ?_, rfl⟩
      · exact readsMembers_iff.2 (.inr ⟨id, text, value, behind, members, hnames, hvalue, hmembers, rfl⟩)
      · exact settings?_cons.2 ⟨setting, settings, hsetting, hsettings, rfl⟩

theorem readSettingsFrom_of_readsMembers (h : ReadsMembers 2 first cs members rest)
    (hsettings : settings? members = some settings) (hfuel : cs.length < fuel) :
    readSettingsFrom fuel first rules cs = .ok (setRules rules settings, rest) := by
  induction members generalizing first rules cs fuel settings with
  | nil =>
    obtain ⟨fuel, rfl⟩ : ∃ f, fuel = f + 1 := ⟨fuel - 1, by omega⟩
    obtain ⟨hseals, -⟩ | ⟨id, text, value, behind, more, -, -, -, heq⟩ := readsMembers_iff.1 h
    · cases hsettings
      exact readSettingsFrom_succ.2 (.inl ⟨hseals, rfl⟩)
    · cases heq
  | cons member members ih =>
    obtain ⟨fuel, rfl⟩ : ∃ f, fuel = f + 1 := ⟨fuel - 1, by omega⟩
    obtain ⟨-, heq⟩ | ⟨id, text, value, behind, more, hnames, hvalue, hmore, heq⟩ :=
      readsMembers_iff.1 h
    · cases heq
    · cases heq
      obtain ⟨setting, others, hsetting, hothers, rfl⟩ := settings?_cons.1 hsettings
      have hlt := hnames.length_lt
      have hlt' := hvalue.length_lt
      refine readSettingsFrom_succ.2 (.inr ⟨id, text, value, behind, setting, hnames, hvalue, hsetting, ?_⟩)
      exact ih hmore hothers (by omega)

/-- The settings are read off the object, the last one of each rule. -/
theorem readSettings_iff :
    readSettings cs = .ok (rules, rest) ↔
      ∃ members settings, Reads 1 cs (.object members) rest ∧ settings? members = some settings ∧
        rules = setRules [] settings := by
  unfold readSettings
  constructor
  · intro h
    split at h
    · rename_i text hspace
      obtain ⟨members, settings, hmembers, hsettings, heq⟩ := exists_of_readSettingsFrom h
      exact ⟨members, settings, reads_object.2 ⟨by decide, text, hspace, hmembers⟩, hsettings, heq⟩
    · cases h
  · rintro ⟨members, settings, hreads, hsettings, rfl⟩
    obtain ⟨-, text, hspace, hmembers⟩ := reads_object.1 hreads
    rw [hspace]
    exact readSettingsFrom_of_readsMembers hmembers hsettings (Nat.lt_succ_self _)

/-! ## What stands around it -/

/-- An object has no field but `rules`. -/
theorem entries_object {fields : List (String × Json)} (h : entries (.object fields) = some members) :
    fields = [] ∧ members = [] ∨ fields = [("rules", .object members)] := by
  unfold entries at h
  split at h
  · rename_i heq
    cases heq
    cases h
    exact .inl ⟨rfl, rfl⟩
  · rename_i name members' heq
    cases heq
    split at h
    · rename_i hname
      cases h
      exact .inr (by rw [hname])
    · cases h
  · rename_i heq
    cases heq
  · rename_i heq
    cases heq
  · cases h

/-- An array has no item but the rules. -/
theorem entries_array {items : List Json} (h : entries (.array items) = some members) :
    items = [] ∧ members = [] ∨ items = [.object members] := by
  unfold entries at h
  split at h
  · rename_i heq
    cases heq
  · rename_i heq
    cases heq
  · rename_i heq
    cases heq
    cases h
    exact .inl ⟨rfl, rfl⟩
  · rename_i members' heq
    cases heq
    cases h
    exact .inr rfl
  · cases h

theorem exists_of_entries {v : Json} (h : entries v = some members) :
    (∃ fields, v = .object fields) ∨ ∃ items, v = .array items := by
  cases v with
  | object fields => exact .inl ⟨fields, rfl⟩
  | array items => exact .inr ⟨items, rfl⟩
  | null => cases h
  | bool b => cases h
  | number n => cases h
  | text s => cases h

/-- An object is a configuration if it is empty or has the one member `rules`. -/
theorem readMembers_eq_ok_iff {config : LintConfig} :
    readMembers cs = .ok (config, rest) ↔
      Seals true cs rest ∧ config = ⟨[]⟩ ∨
        ∃ text rules behind, Names true cs "rules" text ∧ readSettings text = .ok (rules, behind) ∧
          Seals false behind rest ∧ config = ⟨rules⟩ := by
  constructor
  · intro h
    unfold readMembers at h
    split at h
    · cases h
    · rename_i brace hseam
      cases h
      exact .inl ⟨⟨brace, hseam, rfl⟩, rfl⟩
    · rename_i quoted hseam
      split at h
      · cases h
      · rename_i name after htext
        split at h
        · cases h
        · rename_i hname
          obtain rfl : name = "rules" := by simpa using hname
          split at h
          · cases h
          · rename_i text hcolon
            split at h
            · cases h
            · rename_i rules behind hrules
              split at h
              · cases h
              · rename_i brace hclose
                cases h
                exact .inr ⟨text, rules, behind, ⟨quoted, after, hseam, htext, hcolon⟩, hrules,
                  ⟨brace, hclose, rfl⟩, rfl⟩
              -- a second member is a fault, whatever its name is
              · split at h
                · cases h
                · cases h
  · rintro (⟨⟨brace, hseam, rfl⟩, rfl⟩ |
      ⟨text, rules, behind, ⟨quoted, after, hseam, htext, hcolon⟩, hrules, ⟨brace, hclose, rfl⟩, rfl⟩)
    · simp only [readMembers, hseam]
    · simp [readMembers, hseam, htext, hcolon, hrules, hclose]

/-- A configuration in an object is what its fields say. -/
theorem readMembers_iff {config : LintConfig} :
    readMembers cs = .ok (config, rest) ↔
      ∃ fields, ReadsMembers 1 true cs fields rest ∧ ofJson? (.object fields) = some config := by
  rw [readMembers_eq_ok_iff]
  constructor
  · rintro (⟨hseals, rfl⟩ | ⟨text, rules, behind, hnames, hrules, hseals, rfl⟩)
    · exact ⟨[], readsMembers_iff.2 (.inl ⟨hseals, rfl⟩), rfl⟩
    · obtain ⟨members, settings, hmembers, hsettings, rfl⟩ := readSettings_iff.1 hrules
      have hend : ReadsMembers 1 false behind [] rest := readsMembers_iff.2 (.inl ⟨hseals, rfl⟩)
      refine ⟨[("rules", .object members)], ?_, ?_⟩
      · exact readsMembers_iff.2 (.inr ⟨_, text, _, behind, _, hnames, hmembers, hend, rfl⟩)
      · exact ofJson?_eq_some_iff.2 ⟨members, settings, rfl, hsettings, rfl⟩
  · rintro ⟨fields, hfields, hconfig⟩
    obtain ⟨members, settings, hentries, hsettings, rfl⟩ := ofJson?_eq_some_iff.1 hconfig
    rcases entries_object hentries with ⟨rfl, rfl⟩ | rfl
    · obtain ⟨hseals, -⟩ | ⟨_, _, _, _, _, -, -, -, heq⟩ := readsMembers_iff.1 hfields
      · cases hsettings
        exact .inl ⟨hseals, rfl⟩
      · cases heq
    · obtain ⟨-, heq⟩ | ⟨_, text, _, behind, _, hnames, hvalue, hend, heq⟩ := readsMembers_iff.1 hfields
      · cases heq
      · cases heq
        have hrules := readSettings_iff.2 ⟨members, settings, hvalue, hsettings, rfl⟩
        obtain ⟨hseals, -⟩ | ⟨_, _, _, _, _, -, -, -, heq⟩ := readsMembers_iff.1 hend
        · exact .inr ⟨text, _, behind, hnames, hrules, hseals, rfl⟩
        · cases heq

/-- A bracket that closes an array is where no further item is. -/
theorem readClose_iff :
    readClose ']' cs = .ok rest ↔
      ∃ bracket, readItemSeam false cs = .ok (false, bracket) ∧ rest = bracket.drop 1 := by
  unfold readClose readItemSeam
  cases hspace : skipSpace cs with
  | nil => simp
  | cons c text =>
    by_cases hc : (c == ']') = true
    · simp [hc, eq_comm]
    · constructor
      · intro h
        simp only [if_neg hc] at h
        cases h
      · rintro ⟨bracket, h, -⟩
        simp only [if_neg hc] at h
        split at h
        · cases h
        · split at h
          · split at h
            · cases h
            · split at h
              · cases h
              · cases h
          · cases h

/-- An array is a configuration if it is empty or holds the settings alone. -/
theorem readItems_eq_ok_iff {config : LintConfig} :
    readItems cs = .ok (config, rest) ↔
      (∃ bracket, readItemSeam true cs = .ok (false, bracket) ∧ rest = bracket.drop 1) ∧
          config = ⟨[]⟩ ∨
        ∃ text rules behind, readItemSeam true cs = .ok (true, text) ∧
          readSettings text = .ok (rules, behind) ∧ readClose ']' behind = .ok rest ∧
          config = ⟨rules⟩ := by
  constructor
  · intro h
    unfold readItems at h
    split at h
    · cases h
    · rename_i bracket hseam
      cases h
      exact .inl ⟨⟨bracket, hseam, rfl⟩, rfl⟩
    · rename_i text hseam
      split at h
      · cases h
      · rename_i rules behind hrules
        split at h
        · cases h
        · rename_i hclose
          cases h
          exact .inr ⟨text, rules, behind, hseam, hrules, hclose, rfl⟩
  · rintro (⟨⟨bracket, hseam, rfl⟩, rfl⟩ | ⟨text, rules, behind, hseam, hrules, hclose, rfl⟩)
    · simp only [readItems, hseam]
    · simp only [readItems, hseam, hrules, hclose]

/-- A configuration in an array is what its items say. -/
theorem readItems_iff {config : LintConfig} :
    readItems cs = .ok (config, rest) ↔
      ∃ items, ReadsItems 1 true cs items rest ∧ ofJson? (.array items) = some config := by
  rw [readItems_eq_ok_iff]
  constructor
  · rintro (⟨hseam, rfl⟩ | ⟨text, rules, behind, hseam, hrules, hclose, rfl⟩)
    · exact ⟨[], readsItems_iff.2 (.inl ⟨hseam, rfl⟩), rfl⟩
    · obtain ⟨members, settings, hmembers, hsettings, rfl⟩ := readSettings_iff.1 hrules
      have hend : ReadsItems 1 false behind [] rest :=
        readsItems_iff.2 (.inl ⟨readClose_iff.1 hclose, rfl⟩)
      refine ⟨[.object members], ?_, ?_⟩
      · exact readsItems_iff.2 (.inr ⟨text, _, behind, _, hseam, hmembers, hend, rfl⟩)
      · exact ofJson?_eq_some_iff.2 ⟨members, settings, rfl, hsettings, rfl⟩
  · rintro ⟨items, hitems, hconfig⟩
    obtain ⟨members, settings, hentries, hsettings, rfl⟩ := ofJson?_eq_some_iff.1 hconfig
    rcases entries_array hentries with ⟨rfl, rfl⟩ | rfl
    · obtain ⟨hseam, -⟩ | ⟨_, _, _, _, -, -, -, heq⟩ := readsItems_iff.1 hitems
      · cases hsettings
        exact .inl ⟨hseam, rfl⟩
      · cases heq
    · obtain ⟨-, heq⟩ | ⟨text, _, behind, _, hseam, hvalue, hend, heq⟩ := readsItems_iff.1 hitems
      · cases heq
      · cases heq
        have hrules := readSettings_iff.2 ⟨members, settings, hvalue, hsettings, rfl⟩
        obtain ⟨hclose, -⟩ | ⟨_, _, _, _, -, -, -, heq⟩ := readsItems_iff.1 hend
        · exact .inr ⟨text, _, behind, hseam, hrules, readClose_iff.2 hclose, rfl⟩
        · cases heq

/-- A configuration is read off any value that makes one. -/
theorem readTop_iff {config : LintConfig} :
    readTop cs = .ok (config, rest) ↔ ∃ v, Reads 0 cs v rest ∧ ofJson? v = some config := by
  unfold readTop
  constructor
  · intro h
    split at h
    · rename_i text hspace
      obtain ⟨fields, hfields, hconfig⟩ := readMembers_iff.1 h
      exact ⟨.object fields, reads_object.2 ⟨by decide, text, hspace, hfields⟩, hconfig⟩
    · rename_i text hspace
      obtain ⟨items, hitems, hconfig⟩ := readItems_iff.1 h
      exact ⟨.array items, reads_array.2 ⟨by decide, text, hspace, hitems⟩, hconfig⟩
    · cases h
  · rintro ⟨v, hreads, hconfig⟩
    obtain ⟨members, -, hentries, -⟩ := ofJson?_eq_some_iff.1 hconfig
    obtain ⟨fields, rfl⟩ | ⟨items, rfl⟩ := exists_of_entries hentries
    · obtain ⟨-, text, hspace, hfields⟩ := reads_object.1 hreads
      rw [hspace]
      exact readMembers_iff.2 ⟨fields, hfields, hconfig⟩
    · obtain ⟨-, text, hspace, hitems⟩ := reads_array.1 hreads
      rw [hspace]
      exact readItems_iff.2 ⟨items, hitems, hconfig⟩

/-- A text is a configuration if it is a value that describes one. -/
theorem read_eq_ok_iff {text : String} {config : LintConfig} :
    read text = .ok config ↔ ∃ v, Json.parse text = .ok v ∧ ofJson? v = some config := by
  simp only [parse_eq_ok_iff]
  unfold read
  constructor
  · intro h
    split at h
    · cases h
    · rename_i config' rest htop
      split at h
      · cases h
      · rename_i hend
        cases h
        obtain ⟨v, hreads, hconfig⟩ := readTop_iff.1 htop
        exact ⟨v, ⟨rest, hreads, hend⟩, hconfig⟩
  · rintro ⟨v, ⟨rest, hreads, hend⟩, hconfig⟩
    have htop := readTop_iff.2 ⟨v, hreads, hconfig⟩
    simp only [htop, hend]

end YamlLinter.LintConfig
