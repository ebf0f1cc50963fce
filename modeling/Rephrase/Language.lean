import Rephrase.Path
import Rephrase.Text.Lowercase

/-!
The languages whose syntax trees are understood. Everything else is plain text.
-/

namespace Rephrase

inductive Language where
  | html
  | javaScript
  | typeScript
  | tsx
  | python
  | rust
  | go
  /-- Has no syntax tree; phrases are found by a pattern. -/
  | plainText
  deriving DecidableEq, Repr

namespace Language

/-- The language of files with an extension, in whatever case. -/
def ofExtension (extension : String) : Language :=
  match String.ofList (Text.lowercase extension.toList) with
  | "html" | "htm" | "vue" | "svelte" => .html
  | "js" | "jsx" | "mjs" | "cjs" => .javaScript
  | "ts" | "mts" | "cts" => .typeScript
  | "tsx" => .tsx
  | "py" | "pyi" => .python
  | "rs" => .rust
  | "go" => .go
  | _ => .plainText

def ofPath (path : String) : Language :=
  match Path.extension? path with
  | some extension => ofExtension extension
  | none => .plainText

def usesTags : Language → Bool
  | .html | .javaScript | .tsx => true
  | _ => false

def hasTrees (language : Language) : Bool :=
  language ≠ .plainText

def label : Language → String
  | .html => "Html"
  | .javaScript => "JavaScript"
  | .typeScript => "TypeScript"
  | .tsx => "Tsx"
  | .python => "Python"
  | .rust => "Rust"
  | .go => "Go"
  | .plainText => "PlainText"

def ofLabel? : String → Option Language
  | "Html" => some .html
  | "JavaScript" => some .javaScript
  | "TypeScript" => some .typeScript
  | "Tsx" => some .tsx
  | "Python" => some .python
  | "Rust" => some .rust
  | "Go" => some .go
  | "PlainText" => some .plainText
  | _ => none

end Language

end Rephrase
