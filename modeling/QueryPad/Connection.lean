import QueryPad.Completion.Names
import QueryPad.Number.Word
import QueryPad.Settings

namespace QueryPad

-- The form of the addresses of servers: a scheme, perhaps a user, hosts, and
-- perhaps a database and options.
namespace Connection

-- The text before a character and the text behind it, if it is there.
def splitFirst (isMark : Char → Bool) (cs : List Char) : List Char × Option (List Char) :=
  match cs.dropWhile (!isMark ·) with
  | [] => (cs, none)
  | _ :: after => (cs.takeWhile (!isMark ·), some after)

-- The text behind the last of a character, or all of it.
def afterLast (c : Char) (cs : List Char) : List Char :=
  (cs.reverse.takeWhile (· ≠ c)).reverse

def parts (mark : Char) : List Char → List (List Char)
  | [] => [[]]
  | c :: rest =>
    match parts mark rest with
    | [] => [[c]]
    | part :: more => if c = mark then [] :: part :: more else (c :: part) :: more

def isPort (cs : List Char) : Bool :=
  let n := cs.foldl (fun n c => n * 10 + (c.toNat - '0'.toNat)) 0
  !cs.isEmpty && cs.all Char.isDigit && 0 < n && Number.fitsUnsigned 16 n

-- A name or an address in brackets, and a port that may be left out.
def isHost (cs : List Char) : Bool :=
  match cs with
  | '[' :: rest =>
    match splitFirst (· = ']') rest with
    | (_ :: _, some []) => true
    | (_ :: _, some (':' :: port)) => isPort port
    | _ => false
  | _ =>
    match splitFirst (· = ':') cs with
    | (name, none) => !name.isEmpty
    | (name, some port) => !name.isEmpty && isPort port

-- A name of at least three parts, without a port.
def isService (cs : List Char) : Bool :=
  !cs.contains ':' && 3 ≤ (parts '.' cs).length && (parts '.' cs).all (!·.isEmpty)

def isWellFormed (uri : String) : Bool :=
  match uriSchemes.find? fun scheme => scheme.toList.isPrefixOf uri.toList with
  | none => false
  | some scheme =>
    let rest := uri.toList.drop scheme.length
    let hosts := afterLast '@' (splitFirst (fun c => c = '/' || c = '?') rest).1
    if scheme = "mongodb://" then (parts ',' hosts).all isHost else isService hosts

end Connection

-- At most one database is connected.
inductive ConnectionState where
  | disconnected
  | connected (uri database : String)
  deriving DecidableEq

namespace ConnectionState

def isConnected : ConnectionState → Bool
  | disconnected => false
  | connected .. => true

def database? : ConnectionState → Option String
  | disconnected => none
  | connected _ database => some database

def name : ConnectionState → String
  | disconnected => "Disconnected"
  | connected .. => "Connected"

-- The new state, given what a server says when it is called. An address is
-- looked at before anybody is called.
def connect (answer : Except String Unit) (uri database : String) :
    Except ConnectionError ConnectionState :=
  if !hasKnownScheme uri then .error (.invalidUri uri)
  else if !Connection.isWellFormed uri then .error (.malformedUri "not the address of a server")
  else
    match answer with
    | .ok () => .ok (connected uri database)
    | .error reason => .error (.failed reason)

-- The database in use.
def database (state : ConnectionState) : Except ConnectionError String :=
  match state.database? with
  | some database => .ok database
  | none => .error .notConnected

-- Names come from the database in use. Here it is asked what they are.
def source (state : ConnectionState) (list : String → Except ConnectionError (List String)) :
    CollectionSource :=
  ⟨state.database?, (state.database >>= list).mapError .connection⟩

end ConnectionState

-- No server can be reached.
def unreachable : Except String Unit := .error "no server answers"

end QueryPad
