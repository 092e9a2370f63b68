import Mathlib.Data.List.Permutation
import YamlLinter.Proofs.Configuration.Layers

/-!
# Accepted configurations

A configuration is checked where it is read, and its rules are built somewhere else. Both go over the
settings twice: first every setting is resolved to a rule with a level, then every rule that is
switched on is given its options. So they find the same fault, and a bad id or level counts before a
bad option, wherever the two stand. Once a text is accepted, its rules are those of the defaults.

## Contents

* `EntryFault`, `OptionsFault`, `FirstFault`: what can be wrong with a setting, and what is found;
* `resolve_eq_error_iff`, `enables_of_resolve`: one setting is resolved;
* `resolveAll_eq_error_iff`, `buildAll_eq_error_iff`, `runs_of_buildAll`: the two passes;
* `validate_eq_map`, `validate_eq_error_iff`: the check and its faults;
* `accepted_config_is_canonical`: what an accepted configuration looks like, and what it builds.
-/

namespace YamlLinter

namespace Setting

/-- Whether the rule is switched on. -/
def isOn : Setting → Bool
  | .disable => false
  | _ => true

/-- The options of the rule: all that is given but the level. -/
def ruleOptions : Setting → Options
  | .options opts => opts.erase "level"
  | _ => []

/-- The level of the rule: an error, if no other level is given. -/
def level : Setting → Level
  | .options opts =>
    match (opts.get? "level").map Options.readLevel with
    | some (.ok level) => level
    | _ => .error
  | _ => .error

end Setting

namespace LintConfig

/-! ## Faults -/

/-- What is wrong with a setting before the options of its rule are looked at. -/
inductive EntryFault : String × Setting → ConfigError → Prop where
  | unknown {id : String} {setting : Setting} (hid : ∀ b : Builtin, b.id ≠ id) :
    EntryFault (id, setting) (.unknownRule id)
  | level {b : Builtin} {opts : Options} {value : Json} (hlevel : opts.get? "level" = some value)
    (hbad : ∀ level, Options.readLevel value ≠ .ok level) :
    EntryFault (b.id, .options opts) (.invalidOption b.id .level)

/-- What is wrong with the options of a rule that is switched on. -/
inductive OptionsFault : String × Setting → ConfigError → Prop where
  | build {b : Builtin} {setting : Setting} {fault : OptionFault} (hon : setting.isOn = true)
    (hbuild : b.build setting.ruleOptions = .error fault) :
    OptionsFault (b.id, setting) (.invalidOption b.id fault)

/-- The fault of the first setting that has one. -/
inductive FirstFault (Fault : String × Setting → ConfigError → Prop) :
    List (String × Setting) → ConfigError → Prop where
  | here {entry : String × Setting} {rest : List (String × Setting)} {e : ConfigError}
    (h : Fault entry e) : FirstFault Fault (entry :: rest) e
  | there {entry : String × Setting} {rest : List (String × Setting)} {e : ConfigError}
    (hnone : ∀ other, ¬Fault entry other) (h : FirstFault Fault rest e) :
    FirstFault Fault (entry :: rest) e

variable {id : String} {setting : Setting} {e : ConfigError} {rules : List (String × Setting)}
  {enabled : List Enabled}

/-- A built-in rule is found by its id. -/
theorem ofId_eq_some_iff {b : Builtin} : Builtin.ofId id = some b ↔ b.id = id := by
  constructor
  · intro h
    simpa using List.find?_some h
  · rintro rfl
    cases b <;> decide

theorem ofId_eq_none_iff : Builtin.ofId id = none ↔ ∀ b : Builtin, b.id ≠ id := by
  constructor
  · intro hnone b hb
    rw [ofId_eq_some_iff.2 hb] at hnone
    cases hnone
  · intro h
    cases hid : Builtin.ofId id with
    | none => rfl
    | some b => exact absurd (ofId_eq_some_iff.1 hid) (h b)

theorem ofId_id (b : Builtin) : Builtin.ofId b.id = some b :=
  ofId_eq_some_iff.2 rfl

/-! ## One setting -/

/-- The only thing to say about a bad level is that it is one. -/
theorem levelOfName_error {name : String} {fault : OptionFault}
    (h : Options.levelOfName name = .error fault) : fault = .level := by
  unfold Options.levelOfName at h
  split at h
  · cases h
  · split at h
    · cases h
    · cases h
      rfl

/-- A level fails in one way only. -/
theorem readLevel_error {value : Json} {fault : OptionFault}
    (h : Options.readLevel value = .error fault) : fault = .level := by
  unfold Options.readLevel at h
  split at h
  · exact levelOfName_error h
  · split at h
    · exact levelOfName_error h
    · cases h
      rfl
  · cases h
    rfl

/-- An entry is refused for its own fault. -/
theorem resolve_eq_error_iff : resolve id setting = .error e ↔ EntryFault (id, setting) e := by
  constructor
  · intro h
    unfold resolve at h
    split at h
    · rename_i hid
      cases h
      exact .unknown (ofId_eq_none_iff.1 hid)
    · rename_i b hid
      obtain rfl := ofId_eq_some_iff.1 hid
      split at h
      · cases h
      · cases h
      · split at h
        · cases h
        · rename_i value hvalue
          split at h
          · rename_i fault hfault
            cases h
            rw [readLevel_error hfault]
            exact .level hvalue fun level hlevel => by rw [hfault] at hlevel; cases hlevel
          · cases h
  · intro h
    cases h with
    | unknown hid => rw [resolve, ofId_eq_none_iff.2 hid]
    | @level b opts value hlevel hbad =>
      cases hread : Options.readLevel value with
      | ok level => exact absurd hread (hbad level)
      | error fault => simp only [resolve, ofId_id, hlevel, hread, readLevel_error hread]

/-- A rule that a setting switches on. -/
structure Enables (entry : String × Setting) (x : Enabled) : Prop where
  id : x.rule.id = entry.1
  on : entry.2.isOn = true
  options : x.options = entry.2.ruleOptions
  level : x.level = entry.2.level

/-- Options without a level are all for the rule. -/
theorem erase_of_get?_eq_none {opts : Options} {name : String} (h : opts.get? name = none) :
    opts.erase name = opts := by
  apply List.filter_eq_self.2
  intro option hoption
  have hnone := List.find?_eq_none.1 (Option.map_eq_none_iff.1 h) option hoption
  simpa using hnone

/-- An entry that is not refused is off, or enables its rule. -/
theorem enables_of_resolve {found : Option Enabled} (h : resolve id setting = .ok found) :
    found = none ∧ setting.isOn = false ∨ ∃ x, found = some x ∧ Enables (id, setting) x := by
  unfold resolve at h
  split at h
  · cases h
  · rename_i b hid
    obtain rfl := ofId_eq_some_iff.1 hid
    split at h
    · cases h
      exact .inl ⟨rfl, rfl⟩
    · cases h
      exact .inr ⟨_, rfl, ⟨rfl, rfl, rfl, rfl⟩⟩
    · split at h
      · rename_i opts hnone
        cases h
        refine .inr ⟨_, rfl, ⟨rfl, rfl, (erase_of_get?_eq_none hnone).symm, ?_⟩⟩
        simp only [Setting.level, hnone, Option.map_none]
      · rename_i opts value hvalue
        split at h
        · cases h
        · rename_i level hlevel
          cases h
          refine .inr ⟨_, rfl, ⟨rfl, rfl, rfl, ?_⟩⟩
          simp only [Setting.level, hvalue, Option.map_some, hlevel]

/-! ## The two passes -/

/-- The first fault is that of the first entry, or the first one behind it. -/
theorem firstFault_cons {Fault : String × Setting → ConfigError → Prop} {entry : String × Setting} :
    FirstFault Fault (entry :: rules) e ↔
      Fault entry e ∨ (∀ other, ¬Fault entry other) ∧ FirstFault Fault rules e := by
  constructor
  · intro h
    cases h with
    | here h => exact .inl h
    | there hnone h => exact .inr ⟨hnone, h⟩
  · rintro (h | ⟨hnone, h⟩)
    · exact .here h
    · exact .there hnone h

theorem not_firstFault_nil {Fault : String × Setting → ConfigError → Prop} :
    ¬FirstFault Fault [] e := by
  intro h
  cases h

/-- All entries are resolved if the first is and all others are. -/
theorem resolveAll_cons_eq_ok_iff :
    resolveAll ((id, setting) :: rules) = .ok enabled ↔
      ∃ found more, resolve id setting = .ok found ∧ resolveAll rules = .ok more ∧
        enabled = found.toList ++ more := by
  rw [resolveAll]
  cases resolve id setting with
  | error fault => simp
  | ok found =>
    cases resolveAll rules with
    | error fault => simp
    | ok more => simp [eq_comm]

theorem resolveAll_cons_eq_error_iff :
    resolveAll ((id, setting) :: rules) = .error e ↔
      resolve id setting = .error e ∨
        (∀ other, resolve id setting ≠ .error other) ∧ resolveAll rules = .error e := by
  rw [resolveAll]
  cases resolve id setting with
  | error fault => simp
  | ok found =>
    cases resolveAll rules with
    | error fault => simp
    | ok more => simp

/-- The entries are refused for the first fault among them. -/
theorem resolveAll_eq_error_iff : resolveAll rules = .error e ↔ FirstFault EntryFault rules e := by
  induction rules with
  | nil =>
    rw [iff_false_right not_firstFault_nil]
    intro h
    cases h
  | cons entry rules ih =>
    rw [resolveAll_cons_eq_error_iff, firstFault_cons, ih]
    simp only [ne_eq, resolve_eq_error_iff]

/-- The first fault is that of some entry. -/
theorem FirstFault.exists_mem {Fault : String × Setting → ConfigError → Prop}
    (h : FirstFault Fault rules e) : ∃ entry ∈ rules, Fault entry e := by
  induction h with
  | here h => exact ⟨_, List.mem_cons_self, h⟩
  | there _ _ ih =>
    obtain ⟨entry, hmem, h⟩ := ih
    exact ⟨entry, List.mem_cons_of_mem _ hmem, h⟩

/-- All entries are resolved if none has a fault. -/
theorem exists_resolveAll_iff :
    (∃ enabled, resolveAll rules = .ok enabled) ↔
      ∀ entry ∈ rules, ∀ other, ¬EntryFault entry other := by
  constructor
  · rintro ⟨enabled, h⟩
    induction rules generalizing enabled with
    | nil => simp
    | cons entry rules ih =>
      obtain ⟨found, more, hfound, hmore, -⟩ := resolveAll_cons_eq_ok_iff.1 h
      refine List.forall_mem_cons.2 ⟨?_, ih more hmore⟩
      intro other hother
      rw [resolve_eq_error_iff.2 hother] at hfound
      cases hfound
  · intro hnone
    cases hresolve : resolveAll rules with
    | ok enabled => exact ⟨enabled, rfl⟩
    | error fault =>
      obtain ⟨entry, hmem, hfault⟩ := (resolveAll_eq_error_iff.1 hresolve).exists_mem
      exact absurd hfault (hnone entry hmem fault)

/-- What a setting says of the rule that it switches on is wrong where the rule cannot be built. -/
theorem Enables.optionsFault_iff {x : Enabled} (h : Enables (id, setting) x) :
    OptionsFault (id, setting) e ↔
      ∃ fault, x.rule.build x.options = .error fault ∧ e = .invalidOption x.rule.id fault := by
  rw [h.options]
  constructor
  · intro hfault
    cases hfault with
    | @build b _ fault hon hbuild =>
      -- The rules that the setting names and that it is resolved to have one id, so they are one.
      have hrule : x.rule = b := Option.some.inj (ofId_id _ ▸ ofId_eq_some_iff.2 h.id.symm)
      exact ⟨fault, hrule ▸ hbuild, by rw [hrule]⟩
  · rintro ⟨fault, hbuild, rfl⟩
    obtain rfl : x.rule.id = id := h.id
    exact .build h.on hbuild

/-- The options of a rule that is off are not looked at. -/
theorem not_optionsFault_of_off (h : setting.isOn = false) : ¬OptionsFault (id, setting) e := by
  intro hfault
  cases hfault with
  | build hon _ =>
    rw [hon] at h
    cases h

theorem buildAll_cons_eq_ok_iff {x : Enabled} {built : List (TokenRule × Level)} :
    buildAll (x :: enabled) = .ok built ↔
      ∃ rule more, x.rule.build x.options = .ok rule ∧ buildAll enabled = .ok more ∧
        built = (rule, x.level) :: more := by
  rw [buildAll]
  cases x.rule.build x.options with
  | error fault => simp
  | ok rule =>
    cases buildAll enabled with
    | error fault => simp
    | ok more => simp [eq_comm]

theorem buildAll_cons_eq_error_iff {x : Enabled} :
    buildAll (x :: enabled) = .error e ↔
      (∃ fault, x.rule.build x.options = .error fault ∧ e = .invalidOption x.rule.id fault) ∨
        (∀ fault, x.rule.build x.options ≠ .error fault) ∧ buildAll enabled = .error e := by
  rw [buildAll]
  cases x.rule.build x.options with
  | error fault => simp [eq_comm]
  | ok rule =>
    cases buildAll enabled with
    | error fault => simp
    | ok more => simp

/-- Building fails for the first fault in the options of an enabled rule. -/
theorem buildAll_eq_error_iff (h : resolveAll rules = .ok enabled) :
    buildAll enabled = .error e ↔ FirstFault OptionsFault rules e := by
  induction rules generalizing enabled with
  | nil =>
    cases h
    rw [iff_false_right not_firstFault_nil]
    intro h
    cases h
  | cons entry rules ih =>
    obtain ⟨id, setting⟩ := entry
    obtain ⟨found, more, hfound, hmore, rfl⟩ := resolveAll_cons_eq_ok_iff.1 h
    rw [firstFault_cons, ← ih hmore]
    -- A rule that is off is not built, and nothing can be wrong with its options.
    obtain ⟨rfl, hoff⟩ | ⟨x, rfl, hx⟩ := enables_of_resolve hfound
    · simp [not_optionsFault_of_off hoff]
    · have hnone : (∀ other, ¬OptionsFault (id, setting) other) ↔
          ∀ fault, x.rule.build x.options ≠ .error fault := by
        constructor
        · intro hnone fault hfault
          exact hnone _ (hx.optionsFault_iff.2 ⟨fault, hfault, rfl⟩)
        · intro hnone other hother
          obtain ⟨fault, hfault, -⟩ := hx.optionsFault_iff.1 hother
          exact hnone fault hfault
      rw [hnone, hx.optionsFault_iff]
      exact buildAll_cons_eq_error_iff

/-- A rule of a linter that a setting asks for, with its options and its level. -/
structure Runs (entry : String × Setting) (r : TokenRule × Level) : Prop where
  id : r.1.id = entry.1
  built : ∃ b : Builtin, b.id = entry.1 ∧ b.build entry.2.ruleOptions = .ok r.1
  level : r.2 = entry.2.level

/-- A rule keeps its id when it is built. -/
theorem id_of_build {b : Builtin} {options : Options} {rule : TokenRule}
    (h : b.build options = .ok rule) : rule.id = b.id := by
  have hmap : ∀ {α : Type} {config : Except OptionFault α} {f : α → TokenRule},
      config.map f = .ok rule → ∃ c, rule = f c := by
    intro α config f h
    cases config with
    | error fault => cases h
    | ok c =>
      cases h
      exact ⟨c, rfl⟩
  cases b with
  | anchors =>
    obtain ⟨c, rfl⟩ := hmap h
    rfl
  | indentation =>
    obtain ⟨c, rfl⟩ := hmap h
    rfl
  | keyDuplicates =>
    obtain ⟨c, rfl⟩ := hmap h
    rfl

/-- A rule that an entry enables runs as the entry says. -/
theorem Enables.runs {entry : String × Setting} {x : Enabled} {rule : TokenRule} (h : Enables entry x)
    (hbuild : x.rule.build x.options = .ok rule) : Runs entry (rule, x.level) where
  id := (id_of_build hbuild).trans h.id
  built := ⟨x.rule, h.id, h.options ▸ hbuild⟩
  level := h.level

/-- The rules that run are those of the entries that are on, in their order. -/
theorem runs_of_buildAll {built : List (TokenRule × Level)} (h : resolveAll rules = .ok enabled)
    (hbuild : buildAll enabled = .ok built) :
    List.Forall₂ Runs (rules.filter (·.2.isOn)) built := by
  induction rules generalizing enabled built with
  | nil =>
    cases h
    cases hbuild
    exact .nil
  | cons entry rules ih =>
    obtain ⟨id, setting⟩ := entry
    obtain ⟨found, more, hfound, hmore, rfl⟩ := resolveAll_cons_eq_ok_iff.1 h
    obtain ⟨rfl, hoff⟩ | ⟨x, rfl, hx⟩ := enables_of_resolve hfound
    · rw [List.filter_cons_of_neg (by simp [hoff])]
      exact ih hmore hbuild
    · obtain ⟨rule, built, hrule, hbuilt, rfl⟩ := buildAll_cons_eq_ok_iff.1 hbuild
      have hon : setting.isOn = true := hx.on
      simp only [List.filter_cons, hon, if_true]
      exact .cons (hx.runs hrule) (ih hmore hbuilt)

/-! ## The check -/

variable {config : LintConfig}

theorem checkAll_eq_map : checkAll enabled = (buildAll enabled).map fun _ => () := by
  induction enabled with
  | nil => rfl
  | cons x enabled ih =>
    rw [checkAll, buildAll, ih]
    cases x.rule.build x.options with
    | error fault => rfl
    | ok rule =>
      cases buildAll enabled with
      | error fault => rfl
      | ok built => rfl

/-- Checking the options fails just where building the rules does. -/
theorem checkAll_eq_error_iff : checkAll enabled = .error e ↔ buildAll enabled = .error e := by
  rw [checkAll_eq_map]
  cases buildAll enabled with
  | error fault => simp [Except.map]
  | ok built => simp [Except.map]

/-- A configuration is checked by building its rules. -/
theorem validate_eq_map (config : LintConfig) :
    config.validate = (Linter.ofConfig config).map fun _ => () := by
  unfold validate Linter.ofConfig
  cases config.enabledRules with
  | error fault => rfl
  | ok enabled =>
    simp only [checkAll_eq_map]
    cases buildAll enabled with
    | error fault => rfl
    | ok built => rfl

/-- Validation tells the first fault of an entry, and only without one the first fault in options.
-/
theorem validate_eq_error_iff :
    config.validate = .error e ↔
      FirstFault EntryFault config.rules e ∨
        (∀ entry ∈ config.rules, ∀ other, ¬EntryFault entry other) ∧
          FirstFault OptionsFault config.rules e := by
  unfold validate enabledRules
  constructor
  · intro h
    cases hresolve : resolveAll config.rules with
    | error fault =>
      simp only [hresolve] at h
      cases h
      exact .inl (resolveAll_eq_error_iff.1 hresolve)
    | ok enabled =>
      simp only [hresolve, checkAll_eq_error_iff] at h
      exact .inr ⟨exists_resolveAll_iff.1 ⟨enabled, hresolve⟩, (buildAll_eq_error_iff hresolve).1 h⟩
  · rintro (h | ⟨hnone, h⟩)
    · simp only [resolveAll_eq_error_iff.2 h]
    · obtain ⟨enabled, hresolve⟩ := exists_resolveAll_iff.2 hnone
      simp only [hresolve, checkAll_eq_error_iff, (buildAll_eq_error_iff hresolve).2 h]

-- The rule that does not exist comes behind the bad option, and counts all the same.
example : validate ⟨[("indentation", .options [("spaces", .ofInt 0)]), ("tabs", .enable)]⟩ =
    .error (.unknownRule "tabs") := by cbv

/-- A configuration that passes the check builds a linter with the rules that are switched on. -/
theorem ofConfig_of_validate (h : config.validate = .ok ()) :
    ∃ l, Linter.ofConfig config = .ok l ∧
      l.ruleIds = (config.rules.filter (·.2.isOn)).map (·.1) ∧
      List.Forall₂ Runs (config.rules.filter (·.2.isOn)) l.tokenRules := by
  rw [validate_eq_map] at h
  cases hlinter : Linter.ofConfig config with
  | error fault =>
    rw [hlinter] at h
    cases h
  | ok l =>
    unfold Linter.ofConfig enabledRules at hlinter
    split at hlinter
    · cases hlinter
    · rename_i enabled hresolve
      split at hlinter
      · cases hlinter
      · rename_i built hbuild
        cases hlinter
        have hruns := runs_of_buildAll hresolve hbuild
        refine ⟨_, rfl, ?_, hruns⟩
        have hids : built.map (·.1.id) = (config.rules.filter (·.2.isOn)).map (·.1) := by
          rw [← List.forall₂_eq_eq_eq, List.forall₂_map_left_iff, List.forall₂_map_right_iff]
          exact hruns.flip.imp fun _ _ h => h.id
        simpa [Linter.ruleIds, Linter.empty] using hids

/-! ## Accepted texts -/

/-- A text is accepted if the settings that it describes pass the check over the defaults. -/
theorem ofText_eq_ok_iff {text : String} :
    ofText text = .ok config ↔
      ∃ v members settings, Json.parse text = .ok v ∧ entries v = some members ∧
        List.Forall₂ Describes members settings ∧ config = ⟨layered settings⟩ ∧
        config.validate = .ok () := by
  unfold ofText
  constructor
  · intro h
    split at h
    · cases h
    · rename_i user hread
      obtain ⟨v, hparse, hjson⟩ := read_eq_ok_iff.1 hread
      obtain ⟨members, settings, hentries, hsettings, rfl⟩ := ofJson?_eq_some_iff.1 hjson
      dsimp only at h
      split at h
      · cases h
      · rename_i hvalidate
        cases h
        exact ⟨v, members, settings, hparse, hentries, settings?_eq_some_iff.1 hsettings, rfl, hvalidate⟩
  · rintro ⟨v, members, settings, hparse, hentries, hdescribes, rfl, hvalidate⟩
    have hread : read text = .ok ⟨setRules [] settings⟩ :=
      read_eq_ok_iff.2 ⟨v, hparse, ofJson?_eq_some_iff.2
        ⟨members, settings, hentries, settings?_eq_some_iff.2 hdescribes, rfl⟩⟩
    have hcheck : validate ⟨setRules default.rules (setRules [] settings)⟩ = .ok () := hvalidate
    simp only [hread, hcheck]
    rfl

/-- A configuration that passes the check sets no rules but those of the defaults. -/
theorem known_of_validate (h : config.validate = .ok ()) :
    ∀ entry ∈ config.rules, entry.1 ∈ default.rules.map (·.1) := by
  intro entry hentry
  by_contra hunknown
  have hid : ∀ b : Builtin, b.id ≠ entry.1 := by
    intro b hb
    apply hunknown
    rw [← hb]
    cases b <;> decide
  unfold validate enabledRules at h
  split at h
  · cases h
  · rename_i enabled hresolve
    exact exists_resolveAll_iff.1 ⟨enabled, hresolve⟩ entry hentry _ (.unknown hid)

/-- **Accepted configurations are canonical and usable.** An accepted text sets the rules of the
defaults and no others, each to the user's last value for it, and the linter of the configuration
exists and has the rules that are switched on; the order of the user's settings does not matter. The
check of a configuration and its linter fail together, for the first bad id or level if there is one,
else for the first bad option. -/
theorem accepted_config_is_canonical :
    (∀ (text : String) (config : LintConfig), ofText text = .ok config →
      ∃ v members, Json.parse text = .ok v ∧ entries v = some members ∧
        config.rules.map (·.1) = ["indentation", "key-duplicates", "anchors"] ∧
        (∀ entry ∈ config.rules, Given members entry) ∧
        (∃ l, Linter.ofConfig config = .ok l ∧
          l.ruleIds = (config.rules.filter (·.2.isOn)).map (·.1) ∧
          List.Forall₂ Runs (config.rules.filter (·.2.isOn)) l.tokenRules) ∧
        ((members.map (·.1)).Nodup → ∀ (text' : String) v' members',
          Json.parse text' = .ok v' → entries v' = some members' → members'.Perm members →
            ofText text' = .ok config)) ∧
    ∀ config : LintConfig,
      (config.validate = .ok () ∧ (∃ l, Linter.ofConfig config = .ok l) ∨
        ∃ e, config.validate = .error e ∧ Linter.ofConfig config = .error e) ∧
      ∀ e, config.validate = .error e ↔
        FirstFault EntryFault config.rules e ∨
          (∀ entry ∈ config.rules, ∀ other, ¬EntryFault entry other) ∧
            FirstFault OptionsFault config.rules e := by
  constructor
  · intro text config h
    obtain ⟨v, members, settings, hparse, hentries, hdescribes, rfl, hvalidate⟩ := ofText_eq_ok_iff.1 h
    -- Every id that the user sets is among those that have passed the check.
    have hknown : ∀ x ∈ settings.map (·.1), x ∈ default.rules.map (·.1) := by
      intro x hx
      obtain ⟨entry, hentry, rfl⟩ := List.mem_map.1 (mem_keys_layered hx)
      exact known_of_validate hvalidate entry hentry
    refine ⟨v, members, hparse, hentries, keys_layered hknown, ?_, ofConfig_of_validate hvalidate, ?_⟩
    · intro entry hentry
      exact given_of_mem_layered hdescribes hentry
    · intro hids text' v' members' hparse' hentries' hperm
      obtain ⟨settings', hdescribes', heq⟩ := layered_perm hdescribes hids hknown hperm
      exact ofText_eq_ok_iff.2
        ⟨v', members', settings', hparse', hentries', hdescribes', by rw [heq], hvalidate⟩
  · intro config
    refine ⟨?_, fun e => validate_eq_error_iff⟩
    rw [validate_eq_map]
    cases Linter.ofConfig config with
    | ok l => exact .inl ⟨rfl, l, rfl⟩
    | error e => exact .inr ⟨e, rfl, rfl⟩

/-- A text that sets two rules. -/
def twoSettings : String :=
  "\x7b\"rules\": \x7b\"anchors\": \x7b\"level\": \"warning\"\x7d, \"key-duplicates\": \"disable\"\x7d\x7d"

/-- The same settings in the other order, as the item of an array. -/
def twoSettingsSwapped : String :=
  "[\x7b\"key-duplicates\": \"disable\", \"anchors\": \x7b\"level\": \"warning\"\x7d\x7d]"

theorem accepted_config_is_canonical_swapped :
    let config : LintConfig := ⟨[("indentation", .enable), ("key-duplicates", .disable),
      ("anchors", .options [("level", .text "warning")])]⟩
    ofText twoSettings = .ok config ∧ ofText twoSettingsSwapped = .ok config ∧
      ∃ l, Linter.ofConfig config = .ok l ∧ l.ruleIds = ["indentation", "anchors"] := by
  intro config
  have hvalue : Json.parse twoSettings =
      .ok (.object [("rules", .object [("anchors", .object [("level", .text "warning")]),
        ("key-duplicates", .text "disable")])]) := by cbv
  have hswapped : Json.parse twoSettingsSwapped =
      .ok (.array [.object [("key-duplicates", .text "disable"),
        ("anchors", .object [("level", .text "warning")])]]) := by cbv
  have haccepted : ofText twoSettings = .ok config :=
    ofText_eq_ok_iff.2 ⟨_, _, [("anchors", .options [("level", .text "warning")]),
      ("key-duplicates", .disable)], hvalue, rfl, settings?_eq_some_iff.1 rfl, rfl, by cbv⟩
  obtain ⟨v, members, hparse, hentries, -, -, ⟨l, hlinter, hids, -⟩, hperm⟩ :=
    accepted_config_is_canonical.1 _ _ haccepted
  cases hvalue.symm.trans hparse
  cases hentries
  exact ⟨haccepted, hperm (by decide) _ _ _ hswapped rfl (.swap _ _ _), l, hlinter, hids⟩

end LintConfig

end YamlLinter
