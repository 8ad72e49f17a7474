import QueryPad.Completion
import QueryPad.Connection
import QueryPad.Server.Documents
import QueryPad.Server.Message
import QueryPad.Server.Parameters
import QueryPad.Settings

-- A language server for pads. It takes one message after the other.
namespace QueryPad

open Text

inductive ServerPhase where
  | new | running | shutDown | exited
  deriving DecidableEq

structure Server where
  phase : ServerPhase
  documents : DocumentStore
  connection : ConnectionState
  names : NameCache
  schemas : SchemaStore

-- What becomes of a message.
structure Turn where
  server : Server
  answer : Except RpcError RpcResult := .ok .nothing
  notices : List Notice := []

namespace Server

def start (settings : Settings) : Server :=
  ⟨.new, .empty, .disconnected, .empty settings.cacheLifetime, .empty⟩

-- What is wrong with a text is told whenever the text is taken in.
def take (server : Server) (occasion : Occasion) (uri : String) (version : Int) (text : String) :
    Turn :=
  match server.documents.update uri version text with
  | (documents, true) =>
    { server := { server with documents }
      notices := [.diagnostics uri ((Pad.ofText text).diagnostics occasion)] }
  | (_, false) => { server }

def close (server : Server) (uri : String) : Turn :=
  { server := { server with documents := server.documents.remove uri }
    notices := [.diagnostics uri []] }

-- What was known of a database does not outlive the connection to it.
def forget (server : Server) : Server :=
  { server with names := server.names.invalidate, schemas := .empty }

def connect (server : Server) (address : Parameters.Address) : Turn :=
  match ConnectionState.connect unreachable address.uri address.database with
  | .ok connection =>
    { server := { server.forget with connection }
      notices := [.log ("Connected to " ++ address.database)] }
  | .error error => { server, answer := .error (.failed (.connection error)) }

def disconnect (server : Server) : Turn :=
  { server := { server.forget with connection := .disconnected } }

-- Names that no server can be asked for.
def source (server : Server) : CollectionSource :=
  server.connection.source fun _ => .error .notConnected

-- Nothing can be completed in a document that is not open.
def complete (server : Server) (now : Nat) (asked : Parameters.Asked) : Turn :=
  match server.documents.get? asked.uri with
  | none => { server }
  | some text =>
    let pad := Pad.ofText text
    let (names, cache) :=
      if (pad.contextAt asked.position).asksForNames then
        let answer := server.names.fetch server.source now
        (answer.names, answer.cache)
      else (.ok [], server.names)
    { server := { server with names := cache }
      answer :=
        ((pad.completions names server.schemas asked.position).mapError .failed).map .items }

-- Requests of editors that this server does not answer.
def otherRequests : List String :=
  ["textDocument/willSaveWaitUntil", "textDocument/declaration", "textDocument/definition",
    "textDocument/typeDefinition", "textDocument/implementation", "textDocument/references",
    "textDocument/prepareCallHierarchy", "callHierarchy/incomingCalls",
    "callHierarchy/outgoingCalls", "textDocument/prepareTypeHierarchy",
    "typeHierarchy/supertypes", "typeHierarchy/subtypes", "textDocument/documentHighlight",
    "textDocument/documentLink", "documentLink/resolve", "textDocument/hover",
    "textDocument/codeLens", "codeLens/resolve", "textDocument/foldingRange",
    "textDocument/selectionRange", "textDocument/documentSymbol",
    "textDocument/semanticTokens/full", "textDocument/semanticTokens/full/delta",
    "textDocument/semanticTokens/range", "textDocument/inlineValue", "textDocument/inlayHint",
    "inlayHint/resolve", "textDocument/moniker", "completionItem/resolve",
    "textDocument/diagnostic", "workspace/diagnostic", "textDocument/signatureHelp",
    "textDocument/codeAction", "codeAction/resolve", "textDocument/documentColor",
    "textDocument/colorPresentation", "textDocument/formatting", "textDocument/rangeFormatting",
    "textDocument/onTypeFormatting", "textDocument/rename", "textDocument/prepareRename",
    "textDocument/linkedEditingRange", "workspace/symbol", "workspaceSymbol/resolve",
    "workspace/willCreateFiles", "workspace/willRenameFiles", "workspace/willDeleteFiles",
    "workspace/executeCommand"]

-- Notifications of editors that need no reaction.
def otherNotifications : List String :=
  ["textDocument/willSave", "textDocument/didSave", "workspace/didChangeConfiguration",
    "workspace/didChangeWorkspaceFolders", "workspace/didChangeWatchedFiles",
    "workspace/didCreateFiles", "workspace/didRenameFiles", "workspace/didDeleteFiles"]

def notifications : List String :=
  ["initialized", "textDocument/didOpen", "textDocument/didChange", "textDocument/didClose"] ++
    otherNotifications

def requests : List String :=
  ["initialize", "shutdown", "textDocument/completion", "connect", "disconnect"] ++ otherRequests

-- Methods that take parameters refuse a message without them, and others one
-- with them.
def withParameters {α : Type} (server : Server) (message : Message) (read : Json → Option α)
    (next : α → Turn) : Turn :=
  match message.parameters.bind read with
  | some parameters => next parameters
  | none => { server, answer := .error .invalidParameters }

def withoutParameters (server : Server) (message : Message) (next : Turn) : Turn :=
  if message.parameters.isSome then { server, answer := .error .invalidParameters } else next

def welcome : String := "Mongo scrapbook language server initialized"

-- A running server. Where no id is, the answer is dropped later.
def run (server : Server) (occasion : Occasion) (now : Nat) (message : Message) : Turn :=
  match message.method with
  | "initialized" =>
    server.withParameters message Parameters.record? fun _ =>
      { server, notices := [.log welcome] }
  | "textDocument/didOpen" =>
    server.withParameters message Parameters.opened? fun document =>
      server.take occasion document.uri document.version document.text
  | "textDocument/didChange" =>
    server.withParameters message Parameters.changed? fun change =>
      match change.text with
      | some text => server.take occasion change.uri change.version text
      | none => { server }
  | "textDocument/didClose" => server.withParameters message Parameters.closed? server.close
  | "textDocument/completion" =>
    server.withParameters message Parameters.asked? (server.complete now)
  | "connect" => server.withParameters message Parameters.address? server.connect
  | "disconnect" => server.withoutParameters message server.disconnect
  | "shutdown" =>
    server.withoutParameters message
      { server := { server with connection := .disconnected } }
  | _ =>
    server.withParameters message Parameters.record? fun _ =>
      { server, answer := .error .unknownMethod }

-- What a phase lets through. The first message greets, the last but one says
-- that no more are to come.
def turn (server : Server) (occasion : Occasion) (now : Nat) (message : Message) : Turn :=
  match message.method with
  | "exit" => { server := { server with phase := .exited } }
  | "initialize" =>
    if server.phase = .new then
      if message.id.isNone then { server }
      else
        server.withParameters message Parameters.greeting? fun _ =>
          { server := { server with phase := .running }, answer := .ok .greeting }
    else { server, answer := .error .invalidRequest }
  | method =>
    if !(requests ++ notifications).contains method then
      { server, answer := .error .unknownMethod }
    else
      match server.phase with
      | .new => { server, answer := .error .notInitialized }
      | .running =>
        let next := if method = "shutdown" then { server with phase := .shutDown } else server
        if notifications.contains method = message.id.isSome then { server := next }
        else next.run occasion now message
      | _ => { server, answer := .error .invalidRequest }

-- Whether a message is answered at all.
def isAnswered (server : Server) (message : Message) : Bool :=
  message.id.isSome && message.method ≠ "exit" &&
    !(server.phase = .running && notifications.contains message.method)

-- The server after a message, the answer, and what is said besides. A server
-- that has exited says nothing more.
def receive (server : Server) (occasion : Occasion) (now : Nat) (message : Message) :
    Option (Server × Option Response × List Notice) :=
  if server.phase = .exited then none
  else
    let turn := server.turn occasion now message
    let response := if server.isAnswered message then
      message.id.map fun id => ⟨id, turn.answer⟩ else none
    some (turn.server, response, turn.notices)

end Server

end QueryPad
