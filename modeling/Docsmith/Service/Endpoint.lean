import Docsmith.Generate.Race
import Docsmith.Service.Response
import Docsmith.Service.Retry
import Docsmith.Text.Blank

namespace Docsmith

open Text

/-!
# Model endpoints

Two providers of language models are known.  They differ in how a request is laid out and in where
an answer carries its text.

* `Provider`, `Endpoint`: a provider, and how it is reached.
* `Endpoint.request`: the request for a context.
* `Provider.completion`: the text that an answer carries.
* `Transport`: whatever carries requests.
* `Endpoint.ask`, `Endpoint.service`: asking with repetition, and the service that does so.
-/

/-- The providers that are known. -/
inductive Provider where
  | openai
  | anthropic
deriving DecidableEq, Repr

/-- The name of a provider in settings and messages. -/
def Provider.name : Provider → String
  | openai => "openai"
  | anthropic => "anthropic"

/-- Where a provider is reached unless told otherwise. -/
def Provider.url : Provider → String
  | openai => "https://api.openai.com/v1/chat/completions"
  | anthropic => "https://api.anthropic.com/v1/messages"

/-- The model of a provider that is used unless told otherwise. -/
def Provider.defaultModel : Provider → String
  | openai => "gpt-4o-mini"
  | anthropic => "claude-3-5-haiku-latest"

/-- How a provider is reached and what is asked of it.  The values come from settings, where they
    may be of any sort, and go into requests as they are. -/
structure Endpoint where
  provider : Provider
  apiKey : Json
  model : Json
  url : Json
  maxTokens : Json
  temperature : Json
  attempts : Int := RetryPolicy.usual.attempts

/-- A request: where it goes, its headers and its document. -/
structure Request where
  url : String
  headers : List (String × String)
  body : Json

/-- Carries requests, with a state of its own. -/
abbrev Transport (σ : Type) := Request → σ → Except ServiceFault Response × σ

/-! ### Requests -/

/-- What a model is told first. -/
def systemPrompt : String :=
  "You are a technical writer documenting source code. You answer with the documentation text only."

/-- A message of a conversation. -/
def chatMessage (role content : String) : Json :=
  .object [("role", .text role), ("content", .text content)]

namespace Endpoint

/-- The document of the request for a prompt. -/
def payload (e : Endpoint) (prompt : String) : Json :=
  match e.provider with
  | .openai =>
    .object [("model", e.model),
      ("messages", .list [chatMessage "system" systemPrompt, chatMessage "user" prompt]),
      ("temperature", e.temperature), ("max_tokens", e.maxTokens)]
  | .anthropic =>
    .object [("model", e.model), ("max_tokens", e.maxTokens), ("temperature", e.temperature),
      ("system", .text systemPrompt), ("messages", .list [chatMessage "user" prompt])]

/-- The headers of a request. -/
def headers (e : Endpoint) : List (String × String) :=
  let credentials := match e.provider with
    | .openai => [("authorization", "Bearer " ++ e.apiKey.plain)]
    | .anthropic => [("x-api-key", e.apiKey.plain), ("anthropic-version", "2023-06-01")]
  credentials ++ [("content-type", "application/json")]

/-- The request for a context. -/
def request (e : Endpoint) (c : Context) : Request :=
  { url := e.url.plain, headers := e.headers, body := e.payload c.prompt }

end Endpoint

mutual

/-- Every number in a value is finite, so that it can be written as a document. -/
def Json.isFinite : Json → Bool
  | .num (.float x) => x.isFinite
  | .list items => allFinite items
  | .object fields => allFieldsFinite fields
  | _ => true

/-- Every number in some values is finite. -/
def allFinite : List Json → Bool
  | [] => true
  | j :: rest => j.isFinite && allFinite rest

/-- Every number in some fields is finite. -/
def allFieldsFinite : List (String × Json) → Bool
  | [] => true
  | (_, j) :: rest => j.isFinite && allFieldsFinite rest

end

/-! ### Answers -/

/-- The fault of a value that lacks an operation. -/
def lacking (j : Json) (operation : String) : ServiceFault :=
  .raised .member ("'" ++ j.typeName ++ "' object has no attribute '" ++ operation ++ "'")

/-- A field of a record; other values are refused. -/
def fieldOf (j : Json) (name : String) : Except ServiceFault (Option Json) :=
  match j with
  | .object _ => .ok (j.get? name)
  | j => .error (lacking j "get")

/-- A field of a record, or a value in the place of one that is missing or empty. -/
def fieldOr (j : Json) (name : String) (other : Json) : Except ServiceFault Json := do
  match ← fieldOf j name with
  | some value => return if value.truthy then value else other
  | none => return other

/-- The first item of a value that is not empty. -/
def firstOf : Json → Except ServiceFault Json
  | .list (j :: _) => .ok j
  | .list [] => .error (.raised .index "list index out of range")
  | .text s => .ok (.text (String.ofList (s.toList.take 1)))
  | .object _ => .error (.raised .key "0")
  | j => .error (.raised .mismatch ("'" ++ j.typeName ++ "' object is not subscriptable"))

/-- The items of a value: of a text its characters, of a record its names. -/
def itemsOf : Json → Except ServiceFault (List Json)
  | .list items => .ok items
  | .text s => .ok (s.toList.map fun c => .text (String.ofList [c]))
  | .object fields => .ok (fields.map fun (k, _) => .text k)
  | j => .error (.raised .mismatch ("'" ++ j.typeName ++ "' object is not iterable"))

/-- Texts after one another; the first value that is no text is refused with its place. -/
def joinTexts : Nat → List Json → Except ServiceFault String
  | _, [] => .ok ""
  | i, .text s :: rest => (joinTexts (i + 1) rest).map (s ++ ·)
  | i, j :: _ =>
    .error (.raised .mismatch
      ("sequence item " ++ toString i ++ ": expected str instance, " ++ j.typeName ++ " found"))

/-- The text in a block of an answer, if the block is one of text. -/
def blockText? (block : Json) : Except ServiceFault (Option Json) := do
  match ← fieldOf block "type" with
  | some (.text "text") => return some ((block.get? "text").getD (.text ""))
  | _ => return none

/-- The text of the first choice of an answer. -/
def chosenText (identifier : String) (answer : Json) : Except ServiceFault String := do
  let choices ← fieldOr answer "choices" (.list [.object []])
  let message ← fieldOr (← firstOf choices) "message" (.object [])
  match ← fieldOr message "content" (.text "") with
  | .text s =>
    if (trim s).isEmpty then
      throw (.rejected Provider.openai.name 200 ("empty completion for " ++ identifier))
    let usage := (answer.get? "usage").getD (.object [])
    let _ ← fieldOf usage "prompt_tokens"
    return trim s
  | other => throw (lacking other "strip")

/-- The text of the blocks of an answer. -/
def blocksText (answer : Json) : Except ServiceFault String := do
  let blocks ← itemsOf (← fieldOr answer "content" (.list []))
  let texts ← blocks.filterMapM blockText?
  let text := trim (← joinTexts 0 texts)
  if text.isEmpty then
    throw (.rejected Provider.anthropic.name 200
      ("Empty response from Anthropic: " ++ answer.display))
  return text

/-- The text that an answer carries for an identifier, without blanks at its ends. -/
def Provider.completion : Provider → String → Json → Except ServiceFault String
  | openai, identifier, answer => chosenText identifier answer
  | anthropic, _, answer => blocksText answer

/-! ### Asking -/

/-- What a service remembers: the state of the transport, the pauses it made, and its warnings. -/
structure Exchange (σ : Type) where
  transport : σ
  pauses : List Number := []
  warnings : List String := []

namespace Endpoint

variable {σ : Type}

/-- Sends a request once. -/
def send (e : Endpoint) (transport : Transport σ) (r : Request) (s : σ) :
    Except ServiceFault Json × σ :=
  if !r.body.isFinite then
    (.error (.raised .value "Out of range float values are not JSON compliant"), s)
  else
    let (result, s) := transport r s
    (result.bind fun response => do
      response.check e.provider.name
      response.document, s)

/-- How often and how soon a request is repeated. -/
def policy (e : Endpoint) : RetryPolicy Number := { RetryPolicy.usual with attempts := e.attempts }

/-- What retries are called in warnings. -/
def operation (e : Endpoint) (c : Context) : String := e.provider.name ++ ":" ++ c.input.identifier

/-- Asks for the documentation of a context. -/
def ask (e : Endpoint) (transport : Transport σ) (c : Context) (x : Exchange σ) :
    Except ServiceFault String × Exchange σ :=
  let o := e.policy.run Number.delays ServiceFault.retryAfter? (e.send transport (e.request c))
    x.transport
  (o.result.bind (e.provider.completion c.input.identifier),
    { transport := o.state
      pauses := x.pauses ++ o.pauses.map (·.delay)
      warnings := x.warnings ++ o.pauses.map fun p => p.warning (e.operation c) e.attempts })

/-- The service of an endpoint. -/
def service (e : Endpoint) (transport : Transport σ) : Service (Exchange σ) where
  ask c x :=
    let (result, x) := e.ask transport c x
    match result with
    | .ok s => ({ answer := .text s }, x)
    | .error f => ({ answer := .fault f }, x)

end Endpoint

end Docsmith
