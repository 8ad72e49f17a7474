import QueryPad.CommandLine
import QueryPad.Number.Word

-- Arguments read from left to right. A value is looked at when what follows
-- it is known to be something else.
namespace QueryPad

namespace CommandLine

structure Said where
  values : List (Slot × String)
  -- The slot that was named last, and its value if there is one yet.
  open_ : Option (Slot × Option String)
  -- Whether the place of the form is taken.
  placed : Bool

namespace Said

def nothing : Said := ⟨[], none, false⟩

def value? (said : Said) (slot : Slot) : Option String := said.values.lookup slot

def has (said : Said) (slot : Slot) : Bool := (said.value? slot).isSome

def isEmpty (said : Said) : Bool := said.values.isEmpty

end Said

-- Decimal digits after an optional sign, within 32 bits.
def number? (text : String) : Option Nat :=
  let (negative, digits) := match text.toList with
    | '-' :: rest => (true, rest)
    | '+' :: rest => (false, rest)
    | cs => (false, cs)
  if digits.isEmpty || !digits.all Char.isDigit then none
  else
    let n := digits.foldl (fun n c => n * 10 + (c.toNat - '0'.toNat)) 0
    if Number.fitsUnsigned 32 n && (n = 0 || !negative) then some n else none

def checkValue (slot : Slot) (value : String) : Except UsageFault Unit :=
  match slot.kind with
  | .path => if value.isEmpty then .error .missingValue else .ok ()
  | .number => if (number? value).isSome then .ok () else .error .badValue
  | _ => .ok ()

-- Nothing is said twice.
def say (said : Said) (slot : Slot) (value : String) : Except UsageFault Said := do
  if said.has slot then throw .repeated
  checkValue slot value
  return { said with values := said.values ++ [(slot, value)] }

-- What was named last is taken in.
def settle (said : Said) : Except UsageFault Said :=
  match said.open_ with
  | none => .ok said
  | some (_, none) => .error .missingValue
  | some (slot, some value) => say { said with open_ := none } slot value

def raise (said : Said) (slot : Slot) : Except UsageFault Said := do
  let said ← settle said
  match slot with
  | .help => throw .helpWanted
  | .version => throw .versionWanted
  | _ => say said slot ""

-- An option that takes a value, with it or before it.
def open_ (said : Said) (slot : Slot) (value : Option String) : Except UsageFault Said := do
  let said ← settle said
  match value with
  | some value => say said slot value
  | none => return { said with open_ := some (slot, none) }

-- A name, and what stands behind an equals sign.
def cutAtEquals (cs : List Char) : List Char × Option (List Char) :=
  match cs.dropWhile (· ≠ '=') with
  | [] => (cs, none)
  | _ :: after => (cs.takeWhile (· ≠ '='), some after)

def readLong (form : Form) (said : Said) (cs : List Char) : Except UsageFault Said :=
  let (name, value) := cutAtEquals cs
  match form.options.find? (·.long? = some (String.ofList name)) with
  | none => .error .unknownArgument
  | some slot =>
    if slot.kind = .flag then
      if value.isSome then .error .unwantedValue else raise said slot
    else open_ said slot (value.map String.ofList)

-- Several flags may share a hyphen. The first option that takes a value takes
-- what is left.
def readShort (form : Form) (said : Said) : List Char → Except UsageFault Said
  | [] => .ok said
  | c :: rest =>
    match form.options.find? (·.short? = some c) with
    | none => .error .unknownArgument
    | some slot =>
      if slot.kind = .flag then do readShort form (← raise said slot) rest
      else
        open_ said slot <|
          match rest with
          | [] => none
          | '=' :: value => some (.ofList value)
          | value => some (.ofList value)

-- A word that is no option, given whether a double hyphen came before.
def readWord (form : Form) (said : Said) (trailing : Bool) (word : String) :
    Except UsageFault Said :=
  match form.place with
  | some slot =>
    if said.placed then .error .unknownArgument
    else do
      let said ← settle said
      return { said with open_ := some (slot, some word), placed := true }
  | none =>
    if form.tasks.isEmpty || (trailing && form.tasks.contains word) then .error .unknownArgument
    else .error .unknownTask

-- What is said, and the task with the arguments behind it.
def read (form : Form) (trailing : Bool) (said : Said) :
    List String → Except UsageFault (Said × Option (String × List String))
  | [] => .ok (said, none)
  | word :: words =>
    if trailing then do read form true (← readWord form said true word) words
    else
      match said.open_ with
      | some (slot, none) =>
        match word.toList with
        | ['-', '-'] => read form true said words
        | '-' :: '-' :: name => do read form false (← readLong form said name) words
        | '-' :: c :: flags => do read form false (← readShort form said (c :: flags)) words
        | _ => read form false { said with open_ := some (slot, some word) } words
      | _ =>
        if form.tasks.contains word then .ok (said, some (word, words))
        else
          match word.toList with
          | ['-', '-'] => read form true said words
          | '-' :: '-' :: name => do read form false (← readLong form said name) words
          | '-' :: c :: flags => do read form false (← readShort form said (c :: flags)) words
          | _ => do read form false (← readWord form said false word) words

-- Help is asked for the program or for one task.
def readHelp : List String → UsageFault
  | [] => .helpWanted
  | [name] => if Form.taskNames.contains name then .helpWanted else .unknownTask
  | _ => .unknownTask

-- A part that ends with its last argument.
def readTask (name : String) (words : List String) : Except UsageFault Said := do
  let form := Form.ofTask name
  let (said, _) ← read form false .nothing words
  let said ← settle said
  if form.required.all said.has then return said else throw .missingArgument

def Said.number (said : Said) (slot : Slot) : Nat := ((said.value? slot).bind number?).getD 0

def Said.text (said : Said) (slot : Slot) : String := (said.value? slot).getD ""

def taskOf (name : String) (said : Said) : Task :=
  match name with
  | "check" => .check (said.text .file)
  | "commands" => .commands (said.text .file) (said.has .pretty)
  | "complete" =>
    .complete (said.text .file) (said.number .line) (said.number .column) (said.value? .uri)
      (said.value? .database)
  | "completion" => .shellScript (said.text .shell)
  | "config" => .settings (said.has .shown)
  | _ => .serve

end CommandLine

open CommandLine in
-- What is said behind the task counts before what is said in front of it.
def Invocation.ofArguments (arguments : List String) : Except UsageFault Invocation := do
  let (said, rest) ← read .program false .nothing arguments
  match rest with
  | none =>
    let said ← settle said
    throw (if said.isEmpty then .nothingAsked else .missingTask)
  | some ("help", words) => throw (readHelp words)
  | some (name, words) =>
    let inner ← readTask name words
    let outer ← settle said
    return {
      settingsFile := (inner.value? .settingsFile).or (outer.value? .settingsFile)
      verbose := inner.has .verbose || outer.has .verbose
      veryVerbose := inner.has .veryVerbose || outer.has .veryVerbose
      task := taskOf name inner }

end QueryPad
