import YamlLinter.Config.Builtin
import YamlLinter.Json.Reader
import YamlLinter.Linter

/-!
# Configurations

A configuration says which rules are switched on, with which options and at which level. A text
configures rules one by one; all others keep their default, which is to be switched on.

## Contents

* `Setting`, `LintConfig`: the settings of rules, in order;
* `LintConfig.read`: the configuration that a text describes;
* `ConfigError`: what can be wrong with a configuration;
* `LintConfig.enabledRules`, `Linter.ofConfig`: the rules of a configuration;
* `LintConfig.validate`, `LintConfig.ofText`: a text over the defaults.
-/

namespace YamlLinter

/-- The setting of one rule. -/
inductive Setting where
  | enable
  | disable
  /-- Switched on, with options. -/
  | options (opts : Options)
  deriving Repr, Inhabited

/-- A configuration: settings of rules by id, each id once. -/
structure LintConfig where
  rules : List (String × Setting)
  deriving Repr, Inhabited

/-- What can be wrong with a configuration. -/
inductive ConfigError where
  /-- The text is not a configuration. -/
  | text (fault : JsonFault)
  /-- A rule that does not exist. -/
  | unknownRule (id : String)
  /-- An option or level of a rule that is wrong. -/
  | invalidOption (rule : String) (fault : OptionFault)
  deriving Repr, Inhabited

namespace Setting

/-- The setting that a value describes. An object with the only member `enable` or `disable` and a
null in it stands for that word. -/
def ofJson : Json → Option Setting
  | .text s =>
    if s == "enable" then some .enable
    else if s == "disable" then some .disable
    else none
  | .object [(name, .null)] =>
    if name == "enable" then some .enable
    else if name == "disable" then some .disable
    else some (.options [(name, .null)])
  | .object members => some (.options (Options.ofMembers members))
  | _ => none

/-- The value that describes a setting. -/
def toJson : Setting → Json
  | .enable => .text "enable"
  | .disable => .text "disable"
  | .options opts => .object opts

end Setting

namespace LintConfig

/-- All rules with their default options. -/
def default : LintConfig :=
  ⟨[(Indentation.id, .enable), (KeyDuplicates.id, .enable), (Anchors.id, .enable)]⟩

/-- Gives a rule a setting: in the place of its earlier one, or at the end. -/
def setRule (rules : List (String × Setting)) (id : String) (setting : Setting) :
    List (String × Setting) :=
  match rules with
  | [] => [(id, setting)]
  | (i, s) :: rest =>
    if i == id then (id, setting) :: rest else (i, s) :: setRule rest id setting

/-- Gives rules settings, one after the other. -/
def setRules (rules new : List (String × Setting)) : List (String × Setting) :=
  new.foldl (fun rules (id, setting) => setRule rules id setting) rules

/-! ## Reading -/

/-- The fault of a value that should have been an object. What is not even JSON counts first. -/
def notObject (cs : List Char) : JsonFault :=
  match Json.skipSpace cs with
  | [] => .eof
  | c :: rest =>
    if c == '[' || c == '\x7b' then .shape
    else
      match Json.readScalar c rest with
      | .error e => e
      | .ok _ => .shape

/-- Reads the settings of an object behind its opening brace. The fuel bounds their number. -/
def readSettingsFrom : (fuel : Nat) → (first : Bool) → List (String × Setting) → List Char →
    Json.Read (List (String × Setting))
  | 0, _, _, _ => .error .malformed
  | fuel + 1, first, rules, cs =>
    match Json.readMemberSeam first cs with
    | .error e => .error e
    | .ok (false, rest) => .ok (rules, rest.drop 1)
    | .ok (true, rest) =>
      match Json.readText rest with
      | .error e => .error e
      | .ok (id, rest₁) =>
        match Json.readColon rest₁ with
        | .error e => .error e
        | .ok rest₂ =>
          match Json.readValue 2 rest₂ with
          | .error e => .error e
          | .ok (value, rest₃) =>
            match Setting.ofJson value with
            | none => .error .shape
            | some setting => readSettingsFrom fuel false (setRule rules id setting) rest₃

/-- Reads the object of settings. -/
def readSettings (cs : List Char) : Json.Read (List (String × Setting)) :=
  match Json.skipSpace cs with
  | '\x7b' :: rest => readSettingsFrom (rest.length + 1) true [] rest
  | _ => .error (notObject cs)

/-- Reads a configuration behind its opening brace: at most one member, `rules`. -/
def readMembers (cs : List Char) : Json.Read LintConfig :=
  match Json.readMemberSeam true cs with
  | .error e => .error e
  | .ok (false, rest) => .ok (⟨[]⟩, rest.drop 1)
  | .ok (true, rest) =>
    match Json.readText rest with
    | .error e => .error e
    | .ok (name, rest₁) =>
      if name != "rules" then .error .shape
      else
        match Json.readColon rest₁ with
        | .error e => .error e
        | .ok rest₂ =>
          match readSettings rest₂ with
          | .error e => .error e
          | .ok (rules, rest₃) =>
            match Json.readMemberSeam false rest₃ with
            | .error e => .error e
            | .ok (false, rest₄) => .ok (⟨rules⟩, rest₄.drop 1)
            | .ok (true, rest₄) =>
              match Json.readText rest₄ with
              | .error e => .error e
              | .ok _ => .error .shape

/-- Reads a configuration behind an opening bracket: at most one item, the settings. -/
def readItems (cs : List Char) : Json.Read LintConfig :=
  match Json.readItemSeam true cs with
  | .error e => .error e
  | .ok (false, rest) => .ok (⟨[]⟩, rest.drop 1)
  | .ok (true, rest) =>
    match readSettings rest with
    | .error e => .error e
    | .ok (rules, rest₁) =>
      match Json.readClose ']' rest₁ with
      | .error e => .error e
      | .ok rest₂ => .ok (⟨rules⟩, rest₂)

/-- Reads a configuration at the front of a text. -/
def readTop (cs : List Char) : Json.Read LintConfig :=
  match Json.skipSpace cs with
  | '\x7b' :: rest => readMembers rest
  | '[' :: rest => readItems rest
  | _ => .error (notObject cs)

/-- The configuration that a whole text describes, without defaults. -/
def read (text : String) : Except JsonFault LintConfig :=
  match readTop text.toList with
  | .error e => .error e
  | .ok (config, rest) =>
    match Json.readEnd rest with
    | .error e => .error e
    | .ok () => .ok config

/-! ## The rules of a configuration -/

/-- A rule that is switched on. -/
structure Enabled where
  rule : Builtin
  level : Level
  options : Options
  deriving Repr, Inhabited

/-- The rule that a setting switches on, if it does. -/
def resolve (id : String) (setting : Setting) : Except ConfigError (Option Enabled) :=
  match Builtin.ofId id with
  | none => .error (.unknownRule id)
  | some rule =>
    match setting with
    | .disable => .ok none
    | .enable => .ok (some ⟨rule, .error, []⟩)
    | .options options =>
      match options.get? "level" with
      | none => .ok (some ⟨rule, .error, options⟩)
      | some value =>
        match Options.readLevel value with
        | .error fault => .error (.invalidOption id fault)
        | .ok level => .ok (some ⟨rule, level, options.erase "level"⟩)

/-- The rules that settings switch on, in order. -/
def resolveAll : List (String × Setting) → Except ConfigError (List Enabled)
  | [] => .ok []
  | (id, setting) :: rest =>
    match resolve id setting with
    | .error e => .error e
    | .ok enabled =>
      match resolveAll rest with
      | .error e => .error e
      | .ok more => .ok (enabled.toList ++ more)

/-- The rules that a configuration switches on, in order. -/
def enabledRules (config : LintConfig) : Except ConfigError (List Enabled) :=
  resolveAll config.rules

/-- Builds rules with their levels, up to the first with a wrong option. -/
def buildAll : List Enabled → Except ConfigError (List (TokenRule × Level))
  | [] => .ok []
  | e :: rest =>
    match e.rule.build e.options with
    | .error fault => .error (.invalidOption e.rule.id fault)
    | .ok rule =>
      match buildAll rest with
      | .error e => .error e
      | .ok rules => .ok ((rule, e.level) :: rules)

end LintConfig

/-- The linter with the rules of a configuration. -/
def Linter.ofConfig (config : LintConfig) : Except ConfigError Linter :=
  match config.enabledRules with
  | .error e => .error e
  | .ok enabled =>
    match LintConfig.buildAll enabled with
    | .error e => .error e
    | .ok tokenRules => .ok { Linter.empty with tokenRules }

namespace LintConfig

/-- Checks rules, levels and options one after the other. -/
def checkAll : List Enabled → Except ConfigError Unit
  | [] => .ok ()
  | e :: rest =>
    match e.rule.build e.options with
    | .error fault => .error (.invalidOption e.rule.id fault)
    | .ok _ => checkAll rest

/-- Checks a configuration without keeping its rules. -/
def validate (config : LintConfig) : Except ConfigError Unit :=
  match config.enabledRules with
  | .error e => .error e
  | .ok enabled => checkAll enabled

/-- The configuration that a text describes over the defaults. -/
def ofText (text : String) : Except ConfigError LintConfig :=
  match read text with
  | .error fault => .error (.text fault)
  | .ok user =>
    let config : LintConfig := ⟨setRules default.rules user.rules⟩
    match config.validate with
    | .error e => .error e
    | .ok () => .ok config

end LintConfig

namespace ConfigError

/-- The wording of an error without its heading; a text that is no configuration has none. -/
def detail? : ConfigError → Option String
  | text _ => none
  | unknownRule id => some ("no such rule: \"" ++ id ++ "\"")
  | invalidOption rule fault => some ("rule \"" ++ rule ++ "\": " ++ fault.message)

/-- The wording of an error; for a text that is no configuration, an ellipsis stands for it. -/
def message (e : ConfigError) : String :=
  "invalid config: " ++ e.detail?.getD "..."

end ConfigError

end YamlLinter
