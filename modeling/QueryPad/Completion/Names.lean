import QueryPad.Error

namespace QueryPad

-- Where collection names come from: a database, if one is chosen, and what
-- it answers when asked for them.
structure CollectionSource where
  database : Option String
  names : Except PadError (List String)

-- Nothing is connected.
def CollectionSource.none : CollectionSource := ⟨.none, .error (.connection .notConnected)⟩

-- Names kept for a while, with the database that they belong to. Moments and
-- spans of time count milliseconds.
structure NameCache where
  names : List String
  database : String
  fetched : Option Nat
  lifetime : Nat

namespace NameCache

def empty (lifetime : Nat) : NameCache := ⟨[], "", none, lifetime⟩

def isFresh (cache : NameCache) (database : String) (now : Nat) : Bool :=
  cache.database = database && cache.fetched.any fun moment => now - moment < cache.lifetime

def invalidate (cache : NameCache) : NameCache := { cache with fetched := none }

def store (cache : NameCache) (database : String) (names : List String) (now : Nat) : NameCache :=
  { cache with database, names, fetched := some now }

-- Names, the cache after giving them, and whether the source was asked.
structure Answer where
  names : Except PadError (List String)
  cache : NameCache
  asked : Bool

-- Without a database there are no names. A failure is not kept.
def fetch (cache : NameCache) (source : CollectionSource) (now : Nat) : Answer :=
  match source.database with
  | none => ⟨.ok [], cache, false⟩
  | some database =>
    if cache.isFresh database now then ⟨.ok cache.names, cache, false⟩
    else
      match source.names with
      | .ok names => ⟨.ok names, cache.store database names now, true⟩
      | .error error => ⟨.error error, cache, true⟩

end NameCache

end QueryPad
