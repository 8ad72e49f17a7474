import QueryPad.Completion.Context
import QueryPad.Completion.Names
import QueryPad.Completion.Property
import QueryPad.Completion.Shell

namespace QueryPad

open Text

namespace CompletionContext

-- Whether completing needs the names of the collections.
def asksForNames : CompletionContext → Bool
  | members _ => true
  | _ => false

end CompletionContext

namespace Pad

-- The literal of a span as a document.
def embedded (pad : Pad) (uri : String) (span : Span) : EmbeddedDocument :=
  .ofChars uri ((slice? pad.index.text span.start (min span.stop pad.index.size)).getD [])
    span.start

def embeddedItems (pad : Pad) (schemas : SchemaStore) (uri : String) (span : Span)
    (p : Position) : List CompletionItem :=
  let document := pad.embedded uri span
  document.itemsIn pad.index (document.completions schemas (document.positionFrom pad.index p))

-- What can be written at a place, given the names of the collections.
def itemsIn (pad : Pad) (names : Except PadError (List String)) (schemas : SchemaStore)
    (p : Position) : CompletionContext → Except PadError (List CompletionItem)
  | .keyword range => .ok [Completion.keywordItem range]
  | .members range => do
    return Completion.collectionItems (← names) range ++ Completion.functionItems range
  | .methods range => .ok (Completion.methodItems range)
  | .query collection span =>
    .ok (pad.embeddedItems schemas (Schema.queryDocument collection) span p)
  | .pipeline collection span =>
    .ok (pad.embeddedItems schemas (Schema.pipelineDocument collection) span p)
  | .nothing => .ok []

def completions (pad : Pad) (names : Except PadError (List String)) (schemas : SchemaStore)
    (p : Position) : Except PadError (List CompletionItem) :=
  pad.itemsIn names schemas p (pad.contextAt p)

end Pad

end QueryPad
