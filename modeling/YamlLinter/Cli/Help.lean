import YamlLinter.Report.Format

/-!
# Help texts

## Contents

* `shortHelpText`, `longHelpText`: what `-h` and `--help` print;
* `versionText`: what `--version` prints.
-/

namespace YamlLinter

/-- The summary of the arguments. -/
def shortHelpText : String :=
  unlines [
    "Style linter for YAML files",
    "",
    "Usage: yamlstyle [OPTIONS] [FILES]...",
    "",
    "Arguments:",
    "  [FILES]...  Files to lint; \x60-\x60 or no file reads standard input",
    "",
    "Options:",
    "  -c, --config-file <CONFIG_FILE>  Path to a JSON configuration file",
    "  -d, --config-data <CONFIG_DATA>  Configuration as inline JSON",
    "  -f, --format <FORMAT>            Output format [default: standard] [possible values: standard, parsable, json, pretty]",
    "  -s, --strict                     Exit with status 2 when only warnings are found",
    "      --no-warnings                Only report error level problems",
    "  -v, --verbose...                 Log more (-v debug, -vv trace); RUST_LOG takes precedence",
    "  -h, --help                       Print help (see more with '--help')",
    "  -V, --version                    Print version"]

/-- The description of the arguments. -/
def longHelpText : String :=
  unlines [
    "Style linter for YAML files",
    "",
    "Usage: yamlstyle [OPTIONS] [FILES]...",
    "",
    "Arguments:",
    "  [FILES]...",
    "          Files to lint; \x60-\x60 or no file reads standard input",
    "",
    "Options:",
    "  -c, --config-file <CONFIG_FILE>",
    "          Path to a JSON configuration file",
    "",
    "  -d, --config-data <CONFIG_DATA>",
    "          Configuration as inline JSON",
    "",
    "  -f, --format <FORMAT>",
    "          Output format",
    "",
    "          Possible values:",
    "          - standard: File name, then one aligned line per problem",
    "          - parsable: \x60file:line:column: [level] message (rule)\x60, one per line",
    "          - json:     A JSON array of all problems",
    "          - pretty:   Source excerpts with the problem highlighted",
    "          ",
    "          [default: standard]",
    "",
    "  -s, --strict",
    "          Exit with status 2 when only warnings are found",
    "",
    "      --no-warnings",
    "          Only report error level problems",
    "",
    "  -v, --verbose...",
    "          Log more (-v debug, -vv trace); RUST_LOG takes precedence",
    "",
    "  -h, --help",
    "          Print help (see a summary with '-h')",
    "",
    "  -V, --version",
    "          Print version"]

/-- The name of the program and its version. -/
def versionText : String := "yamlstyle 0.0.1-beta.3\n"

end YamlLinter
