import QueryPad.Program
import QueryPad.Server
import Std.Time.DateTime.Timestamp

open QueryPad

private def readText (path : String) : IO (Except FileFault String) := do
  try
    match String.fromUTF8? (← IO.FS.readBinFile path) with
    | some text => return .ok text
    | none => return .error .notText
  catch error =>
    match error with
    | .noFileOrDirectory .. => return .error .missing
    | .inappropriateType .. => return .error .directory
    | other => return .error (.other (toString other))

private def instantNow : IO Calendar.Instant := do
  let nanos := (← Std.Time.Timestamp.now).toNanosecondsSinceUnixEpoch.val
  return ⟨nanos / 1000000000, (nanos % 1000000000).toNat⟩

private def randomId : IO ObjectId := do
  let bytes ← IO.getRandomBytes 12
  return ⟨bytes.toList.foldl (fun n byte => n * 256 + byte.toNat) 0⟩

private def occasionNow : IO Occasion := do
  return ⟨← instantNow, ← randomId⟩

private def environment (names : List String) : IO (String → Option String) := do
  let values ← names.mapM fun name => do return (name, ← IO.getEnv name)
  return fun name => (values.lookup name).join

-- Everything that a run with these arguments may look at.
private def surroundings (arguments : List String) : IO Surroundings := do
  let variableOf ← environment
    ["HOME", "MONGO_SCRAPBOOK_URI", "MONGO_SCRAPBOOK_DATABASE", "MONGO_SCRAPBOOK_LOG_LEVEL"]
  let around : Surroundings :=
    { file := fun _ => .error .missing
      variableOf
      home := (variableOf "HOME").getD "."
      occasion := ← occasionNow }
  match Invocation.ofArguments arguments with
  | .error _ => return around
  | .ok invocation =>
    let texts ← (Program.files around invocation).mapM fun path => do
      return (path, ← readText path)
    return { around with file := fun path => (texts.lookup path).getD (.error .missing) }

-- The length of the message that the header lines announce.
private partial def messageLength (stdin : IO.FS.Stream) (length : Nat) : IO (Option Nat) := do
  let line ← stdin.getLine
  if line.isEmpty then return none
  let word := line.trimAscii.toString
  if word.isEmpty then return some length
  match word.splitOn ":" with
  | [name, value] =>
    if name.toLower = "content-length" then
      messageLength stdin (value.trimAscii.toString.toNat?.getD length)
    else messageLength stdin length
  | _ => messageLength stdin length

private partial def readBytes (stdin : IO.FS.Stream) (count : Nat) (soFar : ByteArray) :
    IO ByteArray := do
  if soFar.size ≥ count then return soFar
  let bytes ← stdin.read (count - soFar.size).toUSize
  if bytes.isEmpty then return soFar
  readBytes stdin count (soFar ++ bytes)

private def send (stdout : IO.FS.Stream) (json : Json) : IO Unit := do
  let text := json.render
  stdout.putStr ("Content-Length: " ++ toString text.utf8ByteSize ++ "\r\n\r\n" ++ text)
  stdout.flush

private partial def serve (stdin stdout : IO.FS.Stream) (server : Server) : IO Unit := do
  let some length ← messageLength stdin 0 | return
  let text := (String.fromUTF8? (← readBytes stdin length .empty)).getD ""
  match (Json.ofText text).toOption.bind Message.ofJson? with
  | none => serve stdin stdout server
  | some message =>
    let now ← IO.monoMsNow
    match server.receive (← occasionNow) now message with
    | none => return
    | some (server, response, notices) =>
      for notice in notices do
        send stdout notice.toJson
      if let some response := response then
        send stdout response.toJson
      if server.phase ≠ .exited then serve stdin stdout server

def main (arguments : List String) : IO UInt32 := do
  let around ← surroundings arguments
  match Invocation.ofArguments arguments with
  | .ok invocation =>
    if let .serve := invocation.task then
      if let .ok settings := around.settings invocation.settingsFile then
        serve (← IO.getStdin) (← IO.getStdout) (.start settings)
        return 0
  | .error _ => pure ()
  let outcome := Program.run around arguments
  IO.print outcome.output
  IO.eprint outcome.errors
  return outcome.code.toUInt32
