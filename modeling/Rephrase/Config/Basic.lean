import Rephrase.Text.Blank
import Rephrase.Text.Lowercase

/-!
The settings of a run: which files are looked at, how hard phrases are searched for, and how the
oracle is reached.
-/

namespace Rephrase

structure Oracle.Settings where
  url : String := "https://openrouter.ai/api/v1/chat/completions"
  model : String := "anthropic/claude-sonnet-4.5"
  maxTokens : Nat := 8192
  keyVariable : String := "OPENROUTER_API_KEY"

structure Config where
  /-- Extensions of the files that are looked at, without the dot. -/
  extensions : List String :=
    ["html", "htm", "vue", "svelte", "js", "jsx", "mjs", "cjs", "ts", "tsx", "py", "rs", "go",
      "md"]
  /-- Names of files and directories that are never looked at. -/
  ignoredNames : List String :=
    ["target", "node_modules", ".git", ".svn", ".hg", "dist", "build", "out", ".next", "coverage",
      "__pycache__", ".venv", "venv", "vendor", ".retext"]
  maxFileBytes : Nat := 1024 * 1024
  batchSize : Nat := 10
  contextLines : Nat := 3
  /-- Share of the phrase's words that fragments have to cover. -/
  fragmentMinCoverage : Float := 0.6
  /-- How many text units ahead fragments may reach. -/
  fragmentLookahead : Nat := 5
  /-- Share of the key phrases that have to occur in a file. -/
  keyPhraseThreshold : Float := 0.4
  /-- Share of the phrase's words that have to occur in a file. -/
  wordMajorityThreshold : Float := 0.6
  generateDiffs : Bool := true
  dryRun : Bool := false
  timeoutSeconds : Nat := 120
  /-- How long records of a session are kept. -/
  sessionHours : Int := 24
  oracle : Oracle.Settings := {}

namespace Config

/-- A share moved into the range from zero to one. -/
def clampShare (x : Float) : Float :=
  -- What is not a number stays.
  if x < 0 then 0 else if 1 < x then 1 else x

def cleanExtension (extension : String) : String :=
  String.ofList (Text.lowercase (Text.stripStart (· == '.') extension.toList))

/-- The settings with values that make no sense moved to the nearest ones that do. -/
def sensible (config : Config) : Config :=
  { config with
    batchSize := max config.batchSize 1
    fragmentLookahead := max config.fragmentLookahead 1
    fragmentMinCoverage := clampShare config.fragmentMinCoverage
    keyPhraseThreshold := clampShare config.keyPhraseThreshold
    wordMajorityThreshold := clampShare config.wordMajorityThreshold
    timeoutSeconds := max config.timeoutSeconds 1
    extensions := config.extensions.map cleanExtension }

def asciiLower (s : String) : String :=
  s.map Char.toLower

def takesExtension (config : Config) (extension : String) : Bool :=
  -- Only the case of ASCII letters is set aside.
  config.extensions.any fun accepted => asciiLower accepted == asciiLower extension

def passesOver (config : Config) (name : String) : Bool :=
  config.ignoredNames.contains name

end Config

end Rephrase
