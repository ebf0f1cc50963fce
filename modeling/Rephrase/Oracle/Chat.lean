import Rephrase.Config.Basic
import Rephrase.Oracle.Consultation

/-!
An oracle behind a chat service. A request is posted as JSON; while the service asks for patience it
is posted again, up to three times and each time after twice as long a wait, and the first other
response decides.
-/

namespace Rephrase.Chat

open Json.Decode

structure Post where
  url : String
  contentType : String := "application/json"
  title : String := "retext"
  authorization : String
  body : String
  deriving DecidableEq, Repr

inductive Delivery where
  | response (status : Nat) (body : String)
  /-- There is no response. The causes begin with the outermost one. -/
  | lost (causes : List String)
  deriving DecidableEq, Repr

abbrev Transport (μ : Type) := Post → StateM μ Delivery

inductive Error where
  | missingKey (name : String)
  | unauthorized
  | rateLimited (retries : Nat)
  | http (status : Nat) (body : String)
  | malformed (detail : String)
  | transport (causes : List String)
  deriving DecidableEq, Repr

/-- The text of an error, without what has caused it. -/
def Error.message : Error → String
  | .missingKey name =>
    "no API key configured; set the " ++ name ++ " environment variable"
  | .unauthorized => "invalid API key"
  | .rateLimited retries =>
    "rate limited after " ++ String.ofList (Decimal.natural retries) ++ " retries"
  | .http status body =>
    "oracle returned HTTP " ++ String.ofList (Decimal.natural status) ++ ": " ++ body
  | .malformed detail => Oracle.malformed detail
  | .transport causes => "oracle request failed: " ++ causes.head?.getD ""

def Error.causes (e : Error) : List String :=
  match e with
  | .transport causes => e.message :: causes
  | _ => [e.message]

/-! ## Posting -/

def messageJson (role content : String) : Json :=
  .object [("role", .string role), ("content", .string content)]

def bodyJson (settings : Oracle.Settings) (request : Oracle.Request) : Json :=
  .object
    [("model", .string settings.model),
      ("messages", .array
        [messageJson "system" Oracle.systemMessage, messageJson "user" request.message]),
      ("max_tokens", .ofNat settings.maxTokens),
      ("stream", .bool false),
      ("response_format", .object [("type", .string "json_object")])]

def postOf (settings : Oracle.Settings) (key : String) (request : Oracle.Request) : Post :=
  { url := settings.url
    authorization := "Bearer " ++ key
    body := String.ofList (Json.compact (bodyJson settings request)) }

/-- The key in an environment; a blank one is none. -/
def key? (settings : Oracle.Settings) (environment : String → Option String) :
    Except Error String :=
  match environment settings.keyVariable with
  | some key =>
    if (Text.trim key.toList).isEmpty then .error (.missingKey settings.keyVariable) else .ok key
  | none => .error (.missingKey settings.keyVariable)

/-! ## Responses -/

def decodeMessage : Json.Decoder (Option String) := fun levels document => do
  let field ← record ["content"] levels document
  (field "content").optional string

def decodeChoice : Json.Decoder (Option String) := fun levels document => do
  let field ← record ["message"] levels document
  (field "message").required decodeMessage

def decodeChoices : Json.Decoder (List (Option String)) := fun levels document => do
  let field ← record ["choices"] levels document
  (field "choices").required (list decodeChoice)

def shownChars : Nat := 500

def shown (body : String) : String :=
  String.ofList (Text.truncate body.toList shownChars)

def noChoices : String := "no choices in the body"

def answerOf (body : String) : Except Error String :=
  match Json.decodeText? decodeChoices body.toList with
  -- The content of the first choice may be missing, and so may the choice.
  | some choices => .ok ((choices.head?.bind id).getD "")
  | none => .error (.malformed (noChoices ++ ": " ++ shown body))

def isSuccess (status : Nat) : Bool := 200 ≤ status && status < 300

def tooManyRequests : Nat := 429

/-- What a delivery says that does not ask for patience. -/
def verdict : Delivery → Except Error String
  | .lost causes => .error (.transport causes)
  | .response status body =>
    if isSuccess status then answerOf body
    else if status = 401 then .error .unauthorized
    else .error (.http status (shown body))

/-! ## Patience -/

def retryLimit : Nat := 3

/-- The wait before a request is posted again, in milliseconds. Attempts are counted from 1. -/
def backoff (attempt : Nat) : Nat := 2000 <<< (attempt - 1)

def warning (attempt : Nat) : String :=
  "Oracle rate limited. Retrying in " ++ String.ofList (Decimal.natural (backoff attempt)) ++
    "ms (attempt " ++ String.ofList (Decimal.natural attempt) ++ "/" ++
    String.ofList (Decimal.natural retryLimit) ++ ")"

/-- An exchange with the service: its result, and the attempts to repeat it. -/
structure Exchange where
  result : Except Error String
  attempts : List Nat

def Exchange.waited (exchange : Exchange) : Nat :=
  exchange.attempts.foldl (fun total attempt => total + backoff attempt) 0

/-- Posts a request, and again up to `left` times. -/
def exchangeFrom {μ : Type} (transport : Transport μ) (post : Post) :
    Nat → StateM μ Exchange
  | 0 => do
    match ← transport post with
    | .response status body =>
      if status = tooManyRequests then return ⟨.error (.rateLimited retryLimit), []⟩
      else return ⟨verdict (.response status body), []⟩
    | delivery => return ⟨verdict delivery, []⟩
  | left + 1 => do
    match ← transport post with
    | .response status body =>
      if status = tooManyRequests then
        let rest ← exchangeFrom transport post left
        return { rest with attempts := (retryLimit - left) :: rest.attempts }
      else return ⟨verdict (.response status body), []⟩
    | delivery => return ⟨verdict delivery, []⟩

/-- Posts a request until the service does not ask for patience any more. -/
def exchange {μ : Type} (transport : Transport μ) (post : Post) : StateM μ Exchange :=
  exchangeFrom transport post retryLimit

def Exchange.toResponse (exchange : Exchange) : Oracle.Response :=
  { outcome := match exchange.result with
      | .ok text => .answered text
      | .error e => .failed e.causes
    seconds := exchange.waited / 1000 }

def oracle {μ : Type} (settings : Oracle.Settings) (key : String) (transport : Transport μ) :
    Oracle μ := fun request (memory, disk) =>
  let (exchange, memory) := exchange transport (postOf settings key request) memory
  (exchange.toResponse, (memory, disk))

end Rephrase.Chat
