namespace ScopeAnalysis

namespace CommandLine

/-- Lines, each with its end. -/
def linesText (lines : List String) : String :=
  String.join (lines.map (· ++ "\n"))

def versionText : String :=
  "kaizen-scope 0.1.0\n"

def usageLines : List String :=
  ["Usage: kaizen-scope [OPTIONS] <COMMAND>",
    "",
    "Commands:",
    "  analyze  Build and print the scope tree of JavaScript/TypeScript files",
    "  help     Print this message or the help of the given subcommand(s)",
    "",
    "Options:"]

def logLevelLine : String :=
  "      --log-level <LOG_LEVEL>  Set the log level [default: warn] " ++
    "[possible values: trace, debug, info, warn, error]"

def shortHelp : String :=
  linesText <|
    ["Static scope analyzer for JavaScript/TypeScript", ""] ++ usageLines ++
    [logLevelLine,
      "      --log-file <LOG_FILE>    Write logs to the specified file",
      "      --log-json               Output logs in JSON format",
      "  -h, --help                   Print help (see more with '--help')",
      "  -V, --version                Print version"]

def longHelp : String :=
  linesText <|
    ["kaizen-scope builds the scope tree of JavaScript and TypeScript files.",
      "",
      "For every scope it reports the declared variables, how each identifier",
      "resolves, and the names left unresolved.",
      ""] ++ usageLines ++
    ["      --log-level <LOG_LEVEL>",
      "          Set the log level",
      "          ",
      "          [default: warn]",
      "          [possible values: trace, debug, info, warn, error]",
      "",
      "      --log-file <LOG_FILE>",
      "          Write logs to the specified file",
      "",
      "      --log-json",
      "          Output logs in JSON format",
      "",
      "  -h, --help",
      "          Print help (see a summary with '-h')",
      "",
      "  -V, --version",
      "          Print version"]

def analyzeHelp : String :=
  linesText
    ["Build and print the scope tree of JavaScript/TypeScript files",
      "",
      "Usage: kaizen-scope analyze [OPTIONS] <PATH>",
      "",
      "Arguments:",
      "  <PATH>  Path to file or directory to analyze",
      "",
      "Options:",
      "  -f, --format <FORMAT>        Output format (pretty, json) [default: pretty]",
      logLevelLine,
      "      --source-type <TYPE>     Parse files as `script` or `module`. Without it, .ts/.tsx " ++
        "files are modules and the rest follow the config. .mjs/.cjs style extensions always " ++
        "take precedence",
      "      --ecma-version <N>       ECMAScript version, either an edition (5, 6) or a year (2015)",
      "      --log-file <LOG_FILE>    Write logs to the specified file",
      "      --log-json               Output logs in JSON format",
      "      --nodejs-scope           Wrap each file in a function scope, as Node.js CommonJS does",
      "      --implied-strict         Treat code as strict without a \"use strict\" directive",
      "      --ignore-eval            Do not treat direct eval calls as dynamic scope",
      "      --optimistic             Resolve references inside `with` and eval-affected scopes " ++
        "statically",
      "      --no-color               Disable colored output",
      "  -h, --help                   Print help"]

def helpHelp : String :=
  linesText
    ["Print this message or the help of the given subcommand(s)",
      "",
      "Usage: kaizen-scope help [COMMAND]...",
      "",
      "Arguments:",
      "  [COMMAND]...  Print help for the subcommand(s)"]

end CommandLine

end ScopeAnalysis
