/-!
The parameters of the command line: how each is written, and what it is for.
-/

namespace Rephrase.CommandLine

inductive Parameter where
  /-- The only one that is told by its place. -/
  | instruction
  | search
  | replacement
  | root
  | batchSize
  | dryRun
  | noDiff
  | json
  | session
  | initConfig
  | verbose
  | help
  | version
  deriving DecidableEq, Repr

namespace Parameter

/-- The name after two hyphens; the instruction has none. -/
def long? : Parameter → Option String
  | .instruction => none
  | .search => some "search"
  | .replacement => some "replace"
  | .root => some "root"
  | .batchSize => some "batch-size"
  | .dryRun => some "dry-run"
  | .noDiff => some "no-diff"
  | .json => some "json"
  | .session => some "session"
  | .initConfig => some "init-config"
  | .verbose => some "verbose"
  | .help => some "help"
  | .version => some "version"

/-- The letter after one hyphen. -/
def short? : Parameter → Option Char
  | .search => some 's'
  | .replacement => some 'r'
  | .verbose => some 'v'
  | .help => some 'h'
  | .version => some 'V'
  | _ => none

def value? : Parameter → Option String
  | .instruction => some "INSTRUCTION"
  | .search => some "SEARCH"
  | .replacement => some "REPLACE"
  | .root => some "ROOT"
  | .batchSize => some "BATCH_SIZE"
  | .session => some "SESSION"
  | _ => none

def takesValue (p : Parameter) : Bool := p.value?.isSome

def named : List Parameter :=
  [.search, .replacement, .root, .batchSize, .dryRun, .noDiff, .json, .session, .initConfig,
    .verbose, .help, .version]

def ofLong? (name : String) : Option Parameter :=
  named.find? fun p => p.long? = some name

def ofShort? (letter : Char) : Option Parameter :=
  named.find? fun p => p.short? = some letter

def shown (p : Parameter) : String :=
  match p.long?, p.value? with
  | some name, some value => "--" ++ name ++ " <" ++ value ++ ">"
  | some name, none => "--" ++ name
  | none, some value => "[" ++ value ++ "]"
  | none, none => ""

end Parameter

def helpText : String :=
  "\n".intercalate
    ["Change text across a source tree, even when it is split across markup",
      "",
      "Usage: retext [OPTIONS] [INSTRUCTION]",
      "",
      "Arguments:",
      "  [INSTRUCTION]  What the change is for, in plain words (defaults to " ++
        "\"Change SEARCH to REPLACE\")",
      "",
      "Options:",
      "  -s, --search <SEARCH>          Text to find",
      "  -r, --replace <REPLACE>        Text to put in its place",
      "      --root <ROOT>              Project root (defaults to current directory) " ++
        "[default: .]",
      "      --batch-size <BATCH_SIZE>  Nodes per oracle call",
      "      --dry-run                  Compute changes and diffs without writing files",
      "      --no-diff                  Skip diff generation",
      "      --json                     Print the full report as JSON",
      "      --session <SESSION>        Record into an existing session",
      "      --init-config              Write a retext.toml with default settings to the " ++
        "project root and exit",
      "  -v, --verbose                  Log progress to stderr",
      "  -h, --help                     Print help",
      "  -V, --version                  Print version",
      ""]

def versionText : String := "retext 0.1.0\n"

end Rephrase.CommandLine
