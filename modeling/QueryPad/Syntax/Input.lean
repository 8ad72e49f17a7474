import QueryPad.Syntax.Tree
import QueryPad.Token

-- What a rule of the grammar reads from, and what it leaves behind.
namespace QueryPad.Syntax

-- The tokens still to be read. Between a report and the next matched token
-- the reader is recovering, and reports nothing more.
structure Input where
  ahead : List Token
  recovering : Bool

namespace Input

def size (inp : Input) : Nat := inp.ahead.length

-- The kind of the token `n` places ahead.
def nth (inp : Input) (n : Nat) : TokenKind := (inp.ahead[n]?.map Token.kind).getD .endOfText

def peek (inp : Input) : TokenKind := inp.nth 0

def isAt (inp : Input) (kind : TokenKind) : Bool := inp.peek = kind

def isAtAny (inp : Input) (kinds : List TokenKind) : Bool := kinds.contains inp.peek

def current (inp : Input) : Token := inp.ahead.headD (.atEnd 0)

-- The report that a fault at the current token gives rise to.
def complaint (inp : Input) (fault : SyntaxFault) : List SyntaxReport :=
  if inp.recovering then [] else [⟨inp.current.span, fault⟩]

end Input

-- What was read from an input: trees that hold exactly the tokens taken.
structure Parsed (inp : Input) where
  trees : List Tree
  reports : List SyntaxReport
  rest : Input
  lossless : Tree.tokensOf trees ++ rest.ahead = inp.ahead

-- One token read from an input.
structure Taken (inp : Input) where
  token : Token
  tree : Tree
  rest : Input
  tokens_tree : tree.tokens = [token]
  lossless : token :: rest.ahead = inp.ahead

theorem Parsed.size_le {inp : Input} (parsed : Parsed inp) : parsed.rest.size ≤ inp.size := by
  have h := congrArg List.length parsed.lossless
  rw [List.length_append] at h
  unfold Input.size
  omega

theorem Taken.size_lt {inp : Input} (taken : Taken inp) : taken.rest.size < inp.size := by
  have h := congrArg List.length taken.lossless
  rw [List.length_cons] at h
  unfold Input.size
  omega

namespace Parsed

def nothing (inp : Input) : Parsed inp := ⟨[], [], inp, rfl⟩

def report (inp : Input) (fault : SyntaxFault) : Parsed inp :=
  ⟨[], inp.complaint fault, { inp with recovering := true }, rfl⟩

-- One reading after another.
def append {inp : Input} (parsed : Parsed inp) (more : Parsed parsed.rest) : Parsed inp :=
  ⟨parsed.trees ++ more.trees, parsed.reports ++ more.reports, more.rest, by
    rw [Tree.tokensOf_append, List.append_assoc, more.lossless, parsed.lossless]⟩

def andThen {inp : Input} (parsed : Parsed inp)
    (next : (mid : Input) → mid.size ≤ inp.size → Parsed mid) : Parsed inp :=
  parsed.append (next parsed.rest parsed.size_le)

-- Everything read becomes the children of one node.
def underNode {inp : Input} (rule : Rule) (parsed : Parsed inp) : Parsed inp :=
  ⟨[.node rule inp.current.start parsed.trees], parsed.reports, parsed.rest, by
    simpa [Tree.tokensOf, Tree.tokens] using parsed.lossless⟩

@[simp] theorem underNode_rest {inp : Input} (rule : Rule) (parsed : Parsed inp) :
    (parsed.underNode rule).rest = parsed.rest := rfl

def withReports {inp : Input} (reports : List SyntaxReport) (parsed : Parsed inp) : Parsed inp :=
  { parsed with reports := reports ++ parsed.reports }

end Parsed

namespace Taken

-- A matched token ends recovery.
def next? (inp : Input) : Option (Taken inp) :=
  match h : inp.ahead with
  | [] => none
  | token :: rest => some ⟨token, .terminal token, ⟨rest, false⟩, rfl, h.symm⟩

def first? (inp : Input) (accepts : TokenKind → Bool) : Option (Taken inp) :=
  (next? inp).filter fun taken => accepts taken.token.kind

-- The same token kept as an error.
def spoiled {inp : Input} (taken : Taken inp) : Taken inp :=
  { taken with
    tree := .error taken.token
    rest := { taken.rest with recovering := true }
    tokens_tree := rfl }

-- The leaf alone under a node.
def underNode {inp : Input} (rule : Rule) (taken : Taken inp) : Taken inp :=
  { taken with
    tree := .node rule inp.current.start [taken.tree]
    tokens_tree := by simp [Tree.tokens, Tree.tokensOf, taken.tokens_tree] }

def andThen {inp : Input} (taken : Taken inp)
    (next : (mid : Input) → mid.size < inp.size → Parsed mid) : Parsed inp :=
  let more := next taken.rest taken.size_lt
  ⟨taken.tree :: more.trees, more.reports, more.rest, by
    simp [Tree.tokensOf, taken.tokens_tree, more.lossless, taken.lossless]⟩

theorem andThen_size_lt {inp : Input} (taken : Taken inp)
    (next : (mid : Input) → mid.size < inp.size → Parsed mid) :
    (taken.andThen next).rest.size < inp.size :=
  Nat.lt_of_le_of_lt (next taken.rest taken.size_lt).size_le taken.size_lt

def parsed {inp : Input} (taken : Taken inp) : Parsed inp :=
  taken.andThen fun mid _ => .nothing mid

end Taken

namespace Parsed

-- The current token if it is of the kind.
def optional (inp : Input) (kind : TokenKind) : Parsed inp :=
  match Taken.first? inp (· = kind) with
  | some taken => taken.parsed
  | none => .nothing inp

def expect (inp : Input) (kind : TokenKind) : Parsed inp :=
  match Taken.first? inp (· = kind) with
  | some taken => taken.parsed
  | none => .report inp (.missing kind inp.current)

-- The tokens before the first that stops, kept as errors.
def skipUntil (inp : Input) (stops : TokenKind → Bool) : Parsed inp :=
  let skipped := inp.ahead.takeWhile fun token => !(token.kind = .endOfText || stops token.kind)
  let rest := inp.ahead.dropWhile fun token => !(token.kind = .endOfText || stops token.kind)
  ⟨skipped.map .error, [], { inp with ahead := rest }, by
    have h : Tree.tokensOf (skipped.map .error) = skipped := by
      simp [Tree.tokensOf_eq_flatMap, List.flatMap_map, Tree.tokens]
    rw [h]
    exact List.takeWhile_append_dropWhile⟩

end Parsed

end QueryPad.Syntax
