import Rephrase.Config.Basic
import Rephrase.Json.Decode

/-!
Settings as JSON. Fields that are missing keep their defaults.
-/

namespace Rephrase

open Json.Decode

def Oracle.Settings.toJson (settings : Oracle.Settings) : Json :=
  .object
    [("api_url", .string settings.url),
      ("model", .string settings.model),
      ("max_tokens", .ofNat settings.maxTokens),
      ("api_key_env", .string settings.keyVariable)]

def Oracle.Settings.decode : Json.Decoder Oracle.Settings := fun levels document => do
  let field ← record ["api_url", "model", "max_tokens", "api_key_env"] levels document
  let base : Oracle.Settings := {}
  return {
    url := ← (field "api_url").withDefault string base.url
    model := ← (field "model").withDefault string base.model
    maxTokens := ← (field "max_tokens").withDefault (natBelow 0x100000000) base.maxTokens
    keyVariable := ← (field "api_key_env").withDefault string base.keyVariable }

namespace Config

def fieldNames : List String :=
  ["extensions", "ignored_dirs", "max_file_bytes", "batch_size", "context_lines",
    "fragment_min_coverage", "fragment_lookahead", "key_phrase_threshold",
    "word_majority_threshold", "generate_diffs", "dry_run", "oracle_timeout_secs",
    "session_ttl_hours", "oracle"]

def toJson (config : Config) : Json :=
  .object
    [("extensions", .ofStrings config.extensions),
      ("ignored_dirs", .ofStrings config.ignoredNames),
      ("max_file_bytes", .ofNat config.maxFileBytes),
      ("batch_size", .ofNat config.batchSize),
      ("context_lines", .ofNat config.contextLines),
      ("fragment_min_coverage", .number (.float config.fragmentMinCoverage)),
      ("fragment_lookahead", .ofNat config.fragmentLookahead),
      ("key_phrase_threshold", .number (.float config.keyPhraseThreshold)),
      ("word_majority_threshold", .number (.float config.wordMajorityThreshold)),
      ("generate_diffs", .bool config.generateDiffs),
      ("dry_run", .bool config.dryRun),
      ("oracle_timeout_secs", .ofNat config.timeoutSeconds),
      ("session_ttl_hours", .number (.integer config.sessionHours)),
      ("oracle", config.oracle.toJson)]

def decode : Json.Decoder Config := fun levels document => do
  let field ← record fieldNames levels document
  let base : Config := {}
  return {
    extensions := ← (field "extensions").withDefault (list string) base.extensions
    ignoredNames := ← (field "ignored_dirs").withDefault (list string) base.ignoredNames
    maxFileBytes := ← (field "max_file_bytes").withDefault nat base.maxFileBytes
    batchSize := ← (field "batch_size").withDefault nat base.batchSize
    contextLines := ← (field "context_lines").withDefault nat base.contextLines
    fragmentMinCoverage :=
      ← (field "fragment_min_coverage").withDefault float base.fragmentMinCoverage
    fragmentLookahead := ← (field "fragment_lookahead").withDefault nat base.fragmentLookahead
    keyPhraseThreshold :=
      ← (field "key_phrase_threshold").withDefault float base.keyPhraseThreshold
    wordMajorityThreshold :=
      ← (field "word_majority_threshold").withDefault float base.wordMajorityThreshold
    generateDiffs := ← (field "generate_diffs").withDefault bool base.generateDiffs
    dryRun := ← (field "dry_run").withDefault bool base.dryRun
    timeoutSeconds := ← (field "oracle_timeout_secs").withDefault nat base.timeoutSeconds
    sessionHours := ← (field "session_ttl_hours").withDefault int base.sessionHours
    oracle := ← (field "oracle").withDefault Oracle.Settings.decode base.oracle }

end Config

end Rephrase
