import QueryPad.Server

-- Texts of one document that are taken in at one time. A handler stores its
-- text and then tells what is wrong with it, as the server does at once, and
-- between the two other handlers may act.
namespace QueryPad

structure Delivery where
  version : Int
  text : String
  occasion : Occasion

namespace Delivery

def document (delivery : Delivery) : StoredDocument := ⟨delivery.version, delivery.text⟩

def notice (uri : String) (delivery : Delivery) : Notice :=
  .diagnostics uri ((Pad.ofText delivery.text).diagnostics delivery.occasion)

end Delivery

-- Which handler acts: one that has not begun, or one that has stored its text.
inductive HandlerMove where
  | store (index : Nat)
  | tell (index : Nat)

structure Handlers where
  documents : DocumentStore
  waiting : List Delivery
  -- Stored, in the order of storing, and not yet told of.
  untold : List Delivery := []
  notices : List Notice := []

namespace Handlers

-- A text that is not taken is not told of either.
def store (handlers : Handlers) (uri : String) (delivery : Delivery) : Handlers :=
  match handlers.documents.update uri delivery.version delivery.text with
  | (documents, true) => { handlers with documents, untold := handlers.untold ++ [delivery] }
  | (_, false) => handlers

def move? (uri : String) (handlers : Handlers) : HandlerMove → Option Handlers
  | .store index => do
    let delivery ← handlers.waiting[index]?
    return { handlers with waiting := handlers.waiting.eraseIdx index }.store uri delivery
  | .tell index => do
    let delivery ← handlers.untold[index]?
    return { handlers with
      untold := handlers.untold.eraseIdx index
      notices := handlers.notices ++ [delivery.notice uri] }

def run? (uri : String) (handlers : Handlers) (moves : List HandlerMove) : Option Handlers :=
  moves.foldlM (move? uri) handlers

def isFinished (handlers : Handlers) : Bool :=
  handlers.waiting.isEmpty && handlers.untold.isEmpty

end Handlers

end QueryPad
