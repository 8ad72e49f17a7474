import QueryPad.Syntax.Grammar

-- The grammar of pads as a table of productions, and what it means for
-- tokens to be derived from it. Nothing here knows how a pad is read.
namespace QueryPad.Syntax

-- One part of the right side of a production.
inductive Symbol where
  | token (kind : TokenKind)
  | rule (rule : Rule)
  | anyOf (symbols : List Symbol)
  | optional (form : List Symbol)
  | many (form : List Symbol)

namespace Symbol

def value : Symbol :=
  anyOf [rule .literal, rule .objectLiteral, rule .arrayLiteral, rule .functionCall]

def commaSeparated (item : Symbol) : List Symbol := [item, many [token .comma, item]]

end Symbol

open QueryPad.Syntax.Symbol in
def production : Rule → List Symbol
  | .mongoCommands => [rule .commands, token .endOfText]
  | .commands => [many [anyOf [rule .command, rule .emptyCommand]]]
  | .command =>
    [token .db, optional [token .dot, rule .collection], token .dot, rule .functionCall,
      many [token .dot, rule .functionCall], optional [token .semicolon]]
  | .emptyCommand => [token .semicolon]
  | .collection => [token .identifier, many [token .dot, token .identifier]]
  | .functionCall => [token .identifier, rule .arguments]
  | .arguments =>
    [token .openParen, optional (commaSeparated (rule .argument)), token .closeParen]
  | .argument => [Symbol.value]
  | .objectLiteral =>
    [token .openBrace, optional [rule .propertyNameAndValueList], optional [token .comma],
      token .closeBrace]
  | .propertyNameAndValueList => commaSeparated (rule .propertyAssignment)
  | .propertyAssignment => [rule .propertyName, token .colon, rule .propertyValue]
  | .propertyName =>
    [anyOf [token .string, token .identifier, token .db, token .null, token .boolean]]
  | .propertyValue => [Symbol.value]
  | .arrayLiteral =>
    [token .openBracket, optional [rule .elementList], optional [token .comma],
      token .closeBracket]
  | .elementList => commaSeparated (rule .propertyValue)
  | .literal =>
    [anyOf [token .null, token .boolean, token .string, token .number, token .regex]]

-- What a child of a node can be: a token of a kind, or a node of a rule.
inductive Part where
  | token (kind : TokenKind)
  | rule (rule : Rule)
  deriving DecidableEq

mutual

-- The tokens and the rules that a symbol names, wherever in it they stand.
def Symbol.parts : Symbol → List Part
  | .token kind => [.token kind]
  | .rule inner => [.rule inner]
  | .anyOf symbols => partsOf symbols
  | .optional form | .many form => partsOf form

def Symbol.partsOf : List Symbol → List Part
  | [] => []
  | symbol :: form => symbol.parts ++ partsOf form

end

-- Whether a node of the rule has room for a part.
def holdsPart (rule : Rule) (part : Part) : Bool :=
  (Symbol.partsOf (production rule)).contains part

section HoldsPart

variable {rule : Rule}

theorem eq_of_holdsPart_collection (h : holdsPart rule (.rule .collection)) : rule = .command := by
  cases rule <;> revert h <;> decide

theorem eq_of_holdsPart_arguments (h : holdsPart rule (.rule .arguments)) :
    rule = .functionCall := by
  cases rule <;> revert h <;> decide

theorem eq_of_holdsPart_argument (h : holdsPart rule (.rule .argument)) : rule = .arguments := by
  cases rule <;> revert h <;> decide

theorem eq_of_holdsPart_closeParen (h : holdsPart rule (.token .closeParen)) :
    rule = .arguments := by
  cases rule <;> revert h <;> decide

end HoldsPart

-- Where the next token starts.
def startOf (ahead : List Token) : Nat := (ahead.headD (.atEnd 0)).start

-- The tokens begin with a word of the form, which these trees derive, and
-- the rest follows it.
inductive Derives : List Symbol → List Token → List Tree → List Token → Prop where
  | done (rest : List Token) : Derives [] rest [] rest
  | token {kind : TokenKind} {token : Token} {more : List Symbol} {ahead rest : List Token}
      {trees : List Tree} (found : token.kind = kind) (tail : Derives more ahead trees rest) :
      Derives (.token kind :: more) (token :: ahead) (.terminal token :: trees) rest
  | rule {rule : Rule} {more : List Symbol} {ahead mid rest : List Token}
      {children trees : List Tree}
      (body : Derives (production rule) ahead children mid)
      (tail : Derives more mid trees rest) :
      Derives (.rule rule :: more) ahead (.node rule (startOf ahead) children :: trees) rest
  | anyOf {symbol : Symbol} {symbols more : List Symbol} {ahead rest : List Token}
      {trees : List Tree} (choice : symbol ∈ symbols)
      (chosen : Derives (symbol :: more) ahead trees rest) :
      Derives (.anyOf symbols :: more) ahead trees rest
  | absent {form more : List Symbol} {ahead rest : List Token} {trees : List Tree}
      (tail : Derives more ahead trees rest) : Derives (.optional form :: more) ahead trees rest
  | present {form more : List Symbol} {ahead rest : List Token} {trees : List Tree}
      (unfolded : Derives (form ++ more) ahead trees rest) :
      Derives (.optional form :: more) ahead trees rest
  | stop {form more : List Symbol} {ahead rest : List Token} {trees : List Tree}
      (tail : Derives more ahead trees rest) : Derives (.many form :: more) ahead trees rest
  | again {form more : List Symbol} {ahead rest : List Token} {trees : List Tree}
      (unfolded : Derives (form ++ .many form :: more) ahead trees rest) :
      Derives (.many form :: more) ahead trees rest

namespace Derives

variable {a b form more : List Symbol} {symbol : Symbol} {ahead mid rest : List Token}
  {trees first second : List Tree}

@[simp] theorem nil_iff : Derives [] ahead trees rest ↔ trees = [] ∧ ahead = rest := by
  constructor
  · intro h
    cases h
    exact ⟨rfl, rfl⟩
  · rintro ⟨rfl, rfl⟩
    exact .done _

theorem token_iff {kind : TokenKind} :
    Derives (.token kind :: more) ahead trees rest ↔
      ∃ token ahead' trees', token.kind = kind ∧ ahead = token :: ahead' ∧
        trees = .terminal token :: trees' ∧ Derives more ahead' trees' rest := by
  constructor
  · intro h
    cases h with
    | token found tail => exact ⟨_, _, _, found, rfl, rfl, tail⟩
  · rintro ⟨token, ahead', trees', found, rfl, rfl, tail⟩
    exact .token found tail

theorem rule_iff {rule : Rule} :
    Derives (.rule rule :: more) ahead trees rest ↔
      ∃ children mid trees', Derives (production rule) ahead children mid ∧
        trees = .node rule (startOf ahead) children :: trees' ∧ Derives more mid trees' rest := by
  constructor
  · intro h
    cases h with
    | rule body tail => exact ⟨_, _, _, body, rfl, tail⟩
  · rintro ⟨children, mid, trees', body, rfl, tail⟩
    exact .rule body tail

theorem anyOf_iff {symbols : List Symbol} :
    Derives (.anyOf symbols :: more) ahead trees rest ↔
      ∃ symbol ∈ symbols, Derives (symbol :: more) ahead trees rest := by
  constructor
  · intro h
    cases h with
    | anyOf choice chosen => exact ⟨_, choice, chosen⟩
  · rintro ⟨symbol, choice, chosen⟩
    exact .anyOf choice chosen

theorem optional_iff :
    Derives (.optional form :: more) ahead trees rest ↔
      Derives more ahead trees rest ∨ Derives (form ++ more) ahead trees rest := by
  constructor
  · intro h
    cases h with
    | absent tail => exact .inl tail
    | present unfolded => exact .inr unfolded
  · rintro (tail | unfolded)
    · exact .absent tail
    · exact .present unfolded

theorem many_iff :
    Derives (.many form :: more) ahead trees rest ↔
      Derives more ahead trees rest ∨ Derives (form ++ .many form :: more) ahead trees rest := by
  constructor
  · intro h
    cases h with
    | stop tail => exact .inl tail
    | again unfolded => exact .inr unfolded
  · rintro (tail | unfolded)
    · exact .stop tail
    · exact .again unfolded

theorem append (left : Derives a ahead first mid) (right : Derives b mid second rest) :
    Derives (a ++ b) ahead (first ++ second) rest := by
  induction left with
  | done => exact right
  | token found _ ih => exact .token found (ih right)
  | rule body _ _ ih => exact .rule body (ih right)
  | anyOf choice _ ih => exact .anyOf choice (ih right)
  | absent _ ih => exact .absent (ih right)
  | present _ ih => exact .present (by simpa using ih right)
  | stop _ ih => exact .stop (ih right)
  | again _ ih => exact .again (by simpa using ih right)

-- A derivation falls into one of each part of the form.
def Splits (a b : List Symbol) (ahead : List Token) (trees : List Tree) (rest : List Token) :
    Prop :=
  ∃ first mid second, Derives a ahead first mid ∧ Derives b mid second rest ∧
    trees = first ++ second

private theorem splits_cons (whole : Derives (symbol :: more) ahead trees rest)
    (hform : a ++ b = symbol :: more)
    (inside : ∀ a', a' ++ b = more → Splits (symbol :: a') b ahead trees rest) :
    Splits a b ahead trees rest := by
  cases a with
  | nil => exact ⟨[], ahead, trees, .done ahead, by rwa [← hform] at whole, rfl⟩
  | cons _ a' =>
    obtain ⟨rfl, hmore⟩ := List.cons.inj hform
    exact inside a' hmore

theorem split (h : Derives (a ++ b) ahead trees rest) : Splits a b ahead trees rest := by
  generalize hform : a ++ b = form at h
  induction h generalizing a with
  | done rest =>
    obtain ⟨rfl, rfl⟩ := List.append_eq_nil_iff.mp hform
    exact ⟨[], rest, [], .done rest, .done rest, rfl⟩
  | token found tail ih =>
    refine splits_cons (.token found tail) hform fun a' hmore => ?_
    obtain ⟨first, mid, second, left, right, rfl⟩ := ih hmore
    exact ⟨_, mid, second, .token found left, right, rfl⟩
  | rule body tail _ ih =>
    refine splits_cons (.rule body tail) hform fun a' hmore => ?_
    obtain ⟨first, mid, second, left, right, rfl⟩ := ih hmore
    exact ⟨_, mid, second, .rule body left, right, rfl⟩
  | @anyOf symbol _ _ _ _ _ choice chosen ih =>
    refine splits_cons (.anyOf choice chosen) hform fun a' hmore => ?_
    obtain ⟨first, mid, second, left, right, rfl⟩ := ih (a := symbol :: a') (by simp [hmore])
    exact ⟨_, mid, second, .anyOf choice left, right, rfl⟩
  | absent tail ih =>
    refine splits_cons (.absent tail) hform fun a' hmore => ?_
    obtain ⟨first, mid, second, left, right, rfl⟩ := ih hmore
    exact ⟨_, mid, second, .absent left, right, rfl⟩
  | @present form _ _ _ _ unfolded ih =>
    refine splits_cons (.present unfolded) hform fun a' hmore => ?_
    obtain ⟨first, mid, second, left, right, rfl⟩ := ih (a := form ++ a') (by simp [hmore])
    exact ⟨_, mid, second, .present left, right, rfl⟩
  | stop tail ih =>
    refine splits_cons (.stop tail) hform fun a' hmore => ?_
    obtain ⟨first, mid, second, left, right, rfl⟩ := ih hmore
    exact ⟨_, mid, second, .stop left, right, rfl⟩
  | @again form _ _ _ _ unfolded ih =>
    refine splits_cons (.again unfolded) hform fun a' hmore => ?_
    obtain ⟨first, mid, second, left, right, rfl⟩ :=
      ih (a := form ++ .many form :: a') (by simp [hmore])
    exact ⟨_, mid, second, .again left, right, rfl⟩

end Derives

end QueryPad.Syntax
