import WireLayout.Error
import WireLayout.Json.Parser
import WireLayout.Oracle.Request
import WireLayout.Text.Quoted

/-! An oracle behind a messages service over HTTP: its configuration, the request that forces one tool
call, and what is made of the reply. -/

namespace WireLayout.Oracle

open WireLayout.Text

def keyVariable : String := "ANTHROPIC_API_KEY"

def defaultModel : String := "claude-sonnet-4-20250514"

def defaultBaseUrl : String := "https://api.anthropic.com"

def serviceVersion : String := "2023-06-01"

def toolName : String := "record_layout"

def toolDescription : String := "Record the recovered wire layout of the message"

structure Config where
  apiKey : String
  model : String := defaultModel
  baseUrl : String := defaultBaseUrl
  maxTokens : Nat := 4096
  deriving DecidableEq, Repr

namespace Config

def missingKey : Error := .missingCredential keyVariable

/-- The configuration with the key of the environment, which must not be blank. -/
def ofEnvironment (key : Option String) : Except Error Config :=
  match key with
  | some k => if isBlank k then .error missingKey else .ok { apiKey := k }
  | none => .error missingKey

/-- Sets the address of the service; slashes at its end are dropped. -/
def withBaseUrl (config : Config) (url : String) : Config :=
  { config with baseUrl := String.ofList (dropEnd (· = '/') url.toList) }

def inspect (config : Config) : String :=
  "OracleConfig \x7b api_key: \"<redacted>\", model: " ++ Text.inspect config.model ++ ", base_url: " ++
    Text.inspect config.baseUrl ++ s!", max_tokens: {config.maxTokens} " ++ "\x7d"

/-- The key can stand in a header: it has no control characters but tabs. -/
def isSendable (config : Config) : Bool :=
  config.apiKey.toList.all fun c => c = '\t' || (32 ≤ c.toNat && c.toNat ≠ 127)

/-- A configuration is of use when its key is not blank. -/
def check (config : Config) : Except Error Config :=
  if isBlank config.apiKey then .error missingKey else .ok config

end Config

structure HttpRequest where
  method : String
  url : String
  headers : List (String × String)
  body : Json

/-- A reply over HTTP, or none when the connection broke. -/
inductive HttpReply where
  | reply (status : Nat) (body : String)
  | dropped (details : String)
  deriving DecidableEq, Repr

def requestBody (config : Config) (request : Request) : Json :=
  .obj [
    ("model", .str config.model),
    ("max_tokens", Json.ofNat config.maxTokens),
    ("system", .str request.system),
    ("tools", .arr [.obj [
      ("name", .str toolName),
      ("description", .str toolDescription),
      ("input_schema", request.schema)]]),
    ("tool_choice", .obj [("type", .str "tool"), ("name", .str toolName)]),
    ("messages", .arr [.obj [("role", .str "user"), ("content", .str request.prompt)]])]

def httpRequest (config : Config) (request : Request) : HttpRequest := {
  method := "POST"
  url := config.baseUrl ++ "/v1/messages"
  headers := [("x-api-key", config.apiKey), ("anthropic-version", serviceVersion),
    ("content-type", "application/json")]
  body := requestBody config request }

def isToolCall (block : Json) : Bool :=
  (block.member? "type").bind Json.str? = some "tool_use" &&
    (block.member? "name").bind Json.str? = some toolName

def toolInput (entity : String) (reply : Json) : Except Error Json :=
  match (reply.member? "content").bind Json.arr? with
  | none => .error (.malformedResponse entity "response has no content")
  | some content =>
    match (((content.find? isToolCall).bind (Json.member? "input")).filter Json.isObject) with
    | some input => .ok input
    | none =>
      let reason := ((reply.member? "stop_reason").bind Json.str?).getD "unknown"
      .error (.malformedResponse entity s!"no {toolName} output (stop reason: {reason})")

def emptyStatuses : List Nat := [204, 304]

/-- What a reply answers. A status outside 200 to 299 is an error, and so is a body that is no JSON. -/
def readReply (entity : String) : HttpReply → Except Error Json
  | .dropped details => .error (.oracleTransport details)
  | .reply status body =>
    let body := if emptyStatuses.contains status then "" else body
    if status < 200 || 299 < status then .error (.oracleStatus status body)
    else match Json.parse? body with
      | none => .error (.oracleTransport "error decoding response body")
      | some reply => toolInput entity reply

def overHttp (config : Config) (send : HttpRequest → HttpReply) (request : Request) : Except Error Json :=
  if config.isSendable then readReply request.entity (send (httpRequest config request))
  else .error (.oracleTransport "the key does not fit into a header")

end WireLayout.Oracle
