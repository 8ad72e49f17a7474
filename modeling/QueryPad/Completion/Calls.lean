import QueryPad.Completion.Names

-- Calls for names that share a cache. A call reads which database is chosen,
-- looks into the cache, asks the source where the cache has no answer, and
-- writes down what it is told. Between these steps other calls may act, the
-- cache may be invalidated, and the source may change.
namespace QueryPad

inductive CallStage where
  | idle
  -- The database is known, the cache has not been looked into.
  | named (database : String)
  | missed (database : String)
  -- The source has been asked and has not answered.
  | asking (database : String)
  | told (database : String) (names : List String)
  -- Answered from the cache, with the call that had written it.
  | served (names : List String) (keeper : Nat)
  -- Answered by the source, and written down.
  | kept (names : List String)
  | failed (error : PadError)
  | nameless

namespace CallStage

def answer? : CallStage → Option (Except PadError (List String))
  | served names _ | kept names => some (.ok names)
  | failed error => some (.error error)
  | nameless => some (.ok [])
  | _ => none

def isFinished (stage : CallStage) : Bool := stage.answer?.isSome

def isBeforeFetch : CallStage → Bool
  | idle | named _ | missed _ => true
  | _ => false

-- The source has been asked, and nothing has been written down.
def isFetching : CallStage → Bool
  | asking _ | told _ _ => true
  | _ => false

end CallStage

structure Calls where
  cache : NameCache
  source : CollectionSource
  stages : Nat → CallStage := fun _ => .idle
  -- The call that wrote the cache last.
  keeper : Nat := 0

inductive CallAct where
  | advance (call now : Nat)
  | invalidate
  | change (source : CollectionSource)

namespace Calls

def set (calls : Calls) (call : Nat) (stage : CallStage) : Calls :=
  { calls with stages := fun other => if other = call then stage else calls.stages other }

-- A call takes its next step. What it writes belongs to the database that it
-- read first.
def advance? (calls : Calls) (call now : Nat) : Option Calls :=
  match calls.stages call with
  | .idle =>
    some (calls.set call (match calls.source.database with
      | some database => .named database
      | none => .nameless))
  | .named database =>
    some (calls.set call (if calls.cache.isFresh database now then
      .served calls.cache.names calls.keeper else .missed database))
  | .missed database => some (calls.set call (.asking database))
  | .asking database =>
    some (calls.set call (match calls.source.names with
      | .ok names => .told database names
      | .error error => .failed error))
  | .told database names =>
    some { calls.set call (.kept names) with
      cache := calls.cache.store database names now, keeper := call }
  | .served .. | .kept .. | .failed .. | .nameless => none

def act? (calls : Calls) : CallAct → Option Calls
  | .advance call now => calls.advance? call now
  | .invalidate => some { calls with cache := calls.cache.invalidate }
  | .change source => some { calls with source }

def run? (calls : Calls) (acts : List CallAct) : Option Calls := acts.foldlM act? calls

end Calls

end QueryPad
