import QueryPad.Schema.Navigation

-- The search for the alternatives of a schema, one schema after another. Those
-- still to be looked at wait, each with how deep in combinations it stands.
namespace QueryPad.Schema

structure Search where
  found : List Json
  -- The one that came last is the next.
  waiting : List (Json × Nat)

namespace Search

def start (schema : Json) : Search := ⟨[], [(schema, 0)]⟩

-- The next schema is resolved and found. Its members come before all others
-- that wait, unless it stands too deep.
def next? (root : Json) (search : Search) : Option Search :=
  match search.waiting with
  | [] => none
  | (schema, depth) :: waiting =>
    let schema := resolve root schema
    let more := if depth < depthLimit then (members schema).map (·, depth + 1) else []
    some ⟨search.found ++ [schema], more.reverse ++ waiting⟩

def run? (root : Json) : Nat → Search → Option Search
  | 0, search => some search
  | turns + 1, search => (search.next? root).bind (run? root turns)

end Search

end QueryPad.Schema
