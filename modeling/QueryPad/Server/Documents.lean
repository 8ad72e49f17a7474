namespace QueryPad

structure StoredDocument where
  version : Int
  text : String
  deriving DecidableEq

-- The newest text of each open document.
structure DocumentStore where
  entries : List (String × StoredDocument)

namespace DocumentStore

def empty : DocumentStore := ⟨[]⟩

def stored? (store : DocumentStore) (uri : String) : Option StoredDocument :=
  store.entries.lookup uri

def get? (store : DocumentStore) (uri : String) : Option String :=
  (store.stored? uri).map StoredDocument.text

def remove (store : DocumentStore) (uri : String) : DocumentStore :=
  ⟨store.entries.filter (·.1 ≠ uri)⟩

-- Whether a version is no older than the stored one.
def accepts (store : DocumentStore) (uri : String) (version : Int) : Bool :=
  (store.stored? uri).all (·.version ≤ version)

-- The text, unless a newer one is stored, and whether it was taken.
def update (store : DocumentStore) (uri : String) (version : Int) (text : String) :
    DocumentStore × Bool :=
  if store.accepts uri version then
    (⟨(uri, ⟨version, text⟩) :: (store.remove uri).entries⟩, true)
  else (store, false)

end DocumentStore

end QueryPad
