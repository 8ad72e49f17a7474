import QueryPad.Completion.Item

-- What an editor and the server say to each other.
namespace QueryPad

open Text

inductive RpcError where
  | notInitialized | invalidRequest | unknownMethod | invalidParameters
  | failed (error : PadError)
  deriving DecidableEq

namespace RpcError

def code : RpcError → Int
  | notInitialized => -32002
  | invalidRequest => -32600
  | unknownMethod => -32601
  | invalidParameters => -32602
  | failed _ => -32603

def message : RpcError → String
  | notInitialized => "Server not initialized"
  | invalidRequest => "Invalid request"
  | unknownMethod => "Method not found"
  | invalidParameters => "Invalid params"
  | failed error => error.message

end RpcError

-- With an id it is a request and is answered, without it is a notification.
structure Message where
  id : Option Json
  method : String
  parameters : Option Json

-- Absent parameters may be written as null.
def Message.ofJson? (json : Json) : Option Message := do
  let method ← (← json.field? "method").string?
  let parameters := match json.field? "params" with
    | some .null => none
    | other => other
  return ⟨json.field? "id", method, parameters⟩

inductive RpcResult where
  | nothing
  | greeting
  | items (items : List CompletionItem)

-- What the server says unasked.
inductive Notice where
  | log (text : String)
  | diagnostics (uri : String) (diagnostics : List Diagnostic)

def Notice.toJson (notice : Notice) : Json :=
  let (method, parameters) : String × List (String × Json) :=
    match notice with
    | log text => ("window/logMessage", [("type", .nat 3), ("message", .string text)])
    | diagnostics uri found =>
      ("textDocument/publishDiagnostics",
        [("uri", .string uri), ("diagnostics", .array (found.map Diagnostic.toEditor))])
  .object [("jsonrpc", .string "2.0"), ("method", .string method),
    ("params", .object parameters)]

namespace RpcResult

-- Documents are sent whole, and a point asks for completion.
def capabilities : Json :=
  .object [("textDocumentSync", .nat 1),
    ("completionProvider", .object [("triggerCharacters", .ofStrings ["."])])]

def toJson : RpcResult → Json
  | nothing => .null
  | greeting =>
    .object [("capabilities", capabilities),
      ("serverInfo", .object [("name", .string "mongo-scrapbook"), ("version", .string "0.9.0")])]
  | items found => CompletionItem.listToJson found

end RpcResult

-- An answer to the request of an id.
structure Response where
  id : Json
  answer : Except RpcError RpcResult

namespace Response

def toJson (response : Response) : Json :=
  .object <| [("jsonrpc", .string "2.0"), ("id", response.id)] ++
    match response.answer with
    | .ok result => [("result", result.toJson)]
    | .error error =>
      [("error", .object [("code", .int error.code), ("message", .string error.message)])]

end Response

end QueryPad
