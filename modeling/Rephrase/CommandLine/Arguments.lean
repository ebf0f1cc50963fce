import Rephrase.CommandLine.Parameter
import Rephrase.Fault

/-!
Reads the words of a command line. A word that starts with a hyphen is never the value of the
parameter before it, unless it is a hyphen alone; after two hyphens alone all words are told by
their place. Of several mistakes the one that is met first is reported, and a value is looked at
only when the next parameter is met.
-/

namespace Rephrase.CommandLine

structure Arguments where
  instruction : Option String := none
  search : Option String := none
  replacement : Option String := none
  root : String := "."
  batchSize : Option Nat := none
  dryRun : Bool := false
  noDiff : Bool := false
  json : Bool := false
  session : Option String := none
  initConfig : Bool := false
  verbose : Bool := false
  deriving DecidableEq, Repr

inductive NumberError where
  | missing
  | notDigit
  | tooLarge
  deriving DecidableEq, Repr

def NumberError.message : NumberError → String
  | .missing => "cannot parse integer from empty string"
  | .notDigit => "invalid digit found in string"
  | .tooLarge => "number too large to fit in target type"

inductive UsageError where
  | missing (parameters : List Parameter)
  | unexpected (word : String)
  | noValue (p : Parameter)
  | wrongValue (p : Parameter) (value : String) (e : NumberError)
  | needlessValue (p : Parameter) (value : String)
  | repeated (p : Parameter)
  deriving DecidableEq, Repr

def UsageError.message : UsageError → String
  | .missing parameters =>
    "error: the following required arguments were not provided:" ++
      String.join (parameters.map fun p => "\n  " ++ p.shown)
  | .unexpected word => "error: unexpected argument '" ++ word ++ "' found"
  | .noValue p => "error: a value is required for '" ++ p.shown ++ "' but none was supplied"
  | .wrongValue p value e =>
    "error: invalid value '" ++ value ++ "' for '" ++ p.shown ++ "': " ++ e.message
  | .needlessValue p value =>
    "error: unexpected value '" ++ value ++ "' for '" ++ p.shown ++
      "' found; no more were expected"
  | .repeated p => "error: the argument '" ++ p.shown ++ "' cannot be used multiple times"

inductive Stop where
  | help
  | version
  | usage (e : UsageError)
  deriving DecidableEq, Repr

/-- Reads the digits of a number that has to fit in a machine word. -/
def digits? (n : Nat) : List Char → Except NumberError Nat
  | [] => .ok n
  | c :: rest =>
    if !c.isDigit then .error .notDigit
    else
      let next := 10 * n + (c.toNat - '0'.toNat)
      if next < Fault.wordLimit then digits? next rest else .error .tooLarge

def number? : List Char → Except NumberError Nat
  | [] => .error .missing
  -- A plus sign may stand in front of digits, but not alone.
  | ['+'] => .error .notDigit
  | '+' :: cs => digits? 0 cs
  | cs => digits? 0 cs

structure Draft where
  arguments : Arguments := {}
  met : List Parameter := []
  /-- The last parameter with a value, until the next one is met. -/
  waiting : Option (Parameter × Option String) := none
  /-- Whether there was a word that is told by its place. -/
  placed : Bool := false

def Arguments.set (a : Arguments) (p : Parameter) (value : String) : Except Stop Arguments :=
  match p with
  | .instruction => .ok { a with instruction := some value }
  | .search => .ok { a with search := some value }
  | .replacement => .ok { a with replacement := some value }
  | .root => if value = "" then .error (.usage (.noValue p)) else .ok { a with root := value }
  | .batchSize =>
    match number? value.toList with
    | .ok n => .ok { a with batchSize := some n }
    | .error e => .error (.usage (.wrongValue p value e))
  -- A parameter that takes no value ignores it.
  | .dryRun => .ok { a with dryRun := true }
  | .noDiff => .ok { a with noDiff := true }
  | .json => .ok { a with json := true }
  | .session => .ok { a with session := some value }
  | .initConfig => .ok { a with initConfig := true }
  | .verbose => .ok { a with verbose := true }
  | .help => .error .help
  | .version => .error .version

def Draft.put (d : Draft) (p : Parameter) (value : Option String) : Except Stop Draft :=
  if p.takesValue && value.isNone then .error (.usage (.noValue p))
  else if d.met.contains p then .error (.usage (.repeated p))
  else do
    return { d with
      arguments := ← d.arguments.set p (value.getD "")
      met := p :: d.met }

/-- Takes in the parameter that waits for its value, or with it. -/
def Draft.settle (d : Draft) : Except Stop Draft :=
  match d.waiting with
  | none => .ok d
  | some (p, value) => { d with waiting := none }.put p value

/-- Takes in a parameter, with the value that is written in the same word. -/
def Draft.meet (d : Draft) (p : Parameter) (value : Option String) : Except Stop Draft := do
  let d ← d.settle
  if p.takesValue && value.isNone then return { d with waiting := some (p, none) }
  else d.put p value

def Draft.readLong (d : Draft) (name : String) (value : Option String) : Except Stop Draft :=
  match Parameter.ofLong? name with
  | none => .error (.usage (.unexpected ("--" ++ name)))
  | some p =>
    match value with
    | some text =>
      if p.takesValue then d.meet p value else .error (.usage (.needlessValue p text))
    | none => d.meet p none

/-- The value that follows a letter in its word. -/
def attached? : List Char → Option String
  | [] => none
  | '=' :: rest => some (String.ofList rest)
  | rest => some (String.ofList rest)

def Draft.readShort (d : Draft) : List Char → Except Stop Draft
  | [] => .ok d
  | letter :: rest =>
    match Parameter.ofShort? letter with
    | none => .error (.usage (.unexpected (String.ofList ['-', letter])))
    | some p =>
      -- What follows a letter that takes a value is the value.
      if p.takesValue then d.meet p (attached? rest)
      else do Draft.readShort (← d.meet p none) rest

/-- Takes in a word that is told by its place. -/
def Draft.place (d : Draft) (word : String) : Except Stop Draft :=
  -- There is room for one.
  if d.placed then .error (.usage (.unexpected word))
  else do
    return { ← d.settle with waiting := some (.instruction, some word), placed := true }

/-- Reads a word without a hyphen in front: the value of the parameter that waits for one, or a word
that is told by its place. -/
def Draft.readPlain (d : Draft) (word : String) : Except Stop Draft :=
  match d.waiting with
  | some (p, none) => .ok { d with waiting := some (p, some word) }
  | _ => d.place word

def Draft.readWord (d : Draft) (word : String) : Except Stop Draft :=
  match word.toList with
  | '-' :: '-' :: rest =>
    let name := String.ofList (rest.takeWhile (· != '='))
    match rest.dropWhile (· != '=') with
    | _ :: value => d.readLong name (some (String.ofList value))
    | [] => d.readLong name none
  | '-' :: letter :: rest => d.readShort (letter :: rest)
  | _ => d.readPlain word

def Draft.readWords (d : Draft) : List String → Except Stop Draft
  | [] => d.settle
  | word :: rest => do
    if word = "--" then (← rest.foldlM Draft.place d).settle
    else Draft.readWords (← d.readWord word) rest

/-- The parameters that have to be there and are not. -/
def Arguments.lacking (a : Arguments) : List Parameter :=
  -- Nothing is needed to write the default settings.
  if a.initConfig then []
  else
    (if a.search.isNone then [.search] else []) ++
      if a.replacement.isNone then [.replacement] else []

def Arguments.ofWords (words : List String) : Except Stop Arguments := do
  let d ← Draft.readWords {} words
  if d.arguments.lacking.isEmpty then return d.arguments
  else throw (.usage (.missing d.arguments.lacking))

end Rephrase.CommandLine
