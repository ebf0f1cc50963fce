import Rephrase.Config.Json
import Rephrase.Toml.Printer
import Rephrase.Toml.Reader

/-!
Settings as a TOML text.
-/

namespace Rephrase.Config

def trimOracle (entries : List (String × Toml)) : List (String × Toml) :=
  entries.map fun (key, value) =>
    match value with
    -- An array for the oracle's settings may have more items than there are settings.
    | .array items => (key, if key = "oracle" then .array (items.take 4) else value)
    | _ => (key, value)

def ofToml? (cs : List Char) : Option Config :=
  match Toml.ofText? cs with
  | some (.table entries) =>
    let document := (Toml.table (trimOracle entries)).toDocument
    (decode document.depth document).map sensible
  | _ => none

/-- The numbers of the settings that may be too large for TOML. -/
def writtenCounts (config : Config) : List Nat :=
  [config.maxFileBytes, config.batchSize, config.contextLines, config.fragmentLookahead,
    config.timeoutSeconds]

def line (key : String) (value : List Char) : List Char :=
  key.toList ++ " = ".toList ++ value ++ ['\n']

def toToml? (config : Config) : Option String :=
  if config.writtenCounts.all (· < 0x8000000000000000) then
    some <| String.ofList <|
      line "extensions" (Toml.writeStrings config.extensions) ++
      line "ignored_dirs" (Toml.writeStrings config.ignoredNames) ++
      line "max_file_bytes" (Decimal.natural config.maxFileBytes) ++
      line "batch_size" (Decimal.natural config.batchSize) ++
      line "context_lines" (Decimal.natural config.contextLines) ++
      line "fragment_min_coverage" (Toml.writeFloat config.fragmentMinCoverage) ++
      line "fragment_lookahead" (Decimal.natural config.fragmentLookahead) ++
      line "key_phrase_threshold" (Toml.writeFloat config.keyPhraseThreshold) ++
      line "word_majority_threshold" (Toml.writeFloat config.wordMajorityThreshold) ++
      line "generate_diffs" (Toml.writeBool config.generateDiffs) ++
      line "dry_run" (Toml.writeBool config.dryRun) ++
      line "oracle_timeout_secs" (Decimal.natural config.timeoutSeconds) ++
      line "session_ttl_hours" (Decimal.integer config.sessionHours) ++
      "\n[oracle]\n".toList ++
      line "api_url" (Toml.writeString config.oracle.url) ++
      line "model" (Toml.writeString config.oracle.model) ++
      line "max_tokens" (Decimal.natural config.oracle.maxTokens) ++
      line "api_key_env" (Toml.writeString config.oracle.keyVariable)
  else
    none

end Rephrase.Config
