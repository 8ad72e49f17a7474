import QueryPad.Proofs.Syntax.Production
import QueryPad.Proofs.Syntax.Steps

-- What the grammar derives is read without a report, and gives the trees of
-- the derivation.
namespace QueryPad.Syntax

variable {inp : Input} {ahead mid rest : List Token} {token : Token} {recovering : Bool}
  {trees first second children : List Tree}

-- The reading reports nothing, and leaves the rest to a reader in order.
structure Yields (parsed : Parsed inp) (trees : List Tree) (rest : List Token) : Prop where
  trees : parsed.trees = trees
  quiet : parsed.reports = []
  rest : parsed.rest = ⟨rest, false⟩

namespace Yields

theorem nothing : Yields (.nothing ⟨rest, false⟩) [] rest := ⟨rfl, rfl, rfl⟩

theorem taken : Yields (Taken.front token rest recovering).parsed [.terminal token] rest :=
  ⟨rfl, rfl, rfl⟩

theorem append {parsed : Parsed inp} {next : Parsed parsed.rest} (head : Yields parsed first mid)
    (tail : Yields next second rest) : Yields (parsed.append next) (first ++ second) rest where
  trees := by rw [Parsed.append_trees, head.trees, tail.trees]
  quiet := by rw [Parsed.append_reports, head.quiet, tail.quiet, List.append_nil]
  rest := tail.rest

theorem andThen {parsed : Parsed inp} {next : (mid : Input) → mid.size ≤ inp.size → Parsed mid}
    (head : Yields parsed first mid) (tail : ∀ h, Yields (next ⟨mid, false⟩ h) second rest) :
    Yields (parsed.andThen next) (first ++ second) rest := by
  have hnext : ∀ (inp' : Input) (h : inp'.size ≤ inp.size), inp' = ⟨mid, false⟩ →
      Yields (next inp' h) second rest := by
    rintro _ h rfl
    exact tail h
  exact head.append (hnext parsed.rest parsed.size_le head.rest)

-- Reading on from where a reading stopped.
theorem followedBy {parsed : Parsed inp} (head : Yields parsed first mid)
    (next : (mid : Input) → Parsed mid) (tail : Yields (next ⟨mid, false⟩) second rest) :
    Yields (parsed.append (next parsed.rest)) (first ++ second) rest :=
  head.append (head.rest ▸ tail)

theorem takenThen {next : (mid : Input) → mid.size < Input.size ⟨token :: ahead, recovering⟩ →
      Parsed mid} (tail : ∀ h, Yields (next ⟨ahead, false⟩ h) trees rest) :
    Yields ((Taken.front token ahead recovering).andThen next) (.terminal token :: trees) rest := by
  obtain ⟨htrees, hquiet, hrest⟩ := tail (Taken.front token ahead recovering).size_lt
  exact ⟨congrArg (Tree.terminal token :: ·) htrees, hquiet, hrest⟩

-- A token that stands alone under its node.
theorem namedThen {rule : Rule} {next : (mid : Input) →
      mid.size < Input.size ⟨token :: ahead, recovering⟩ → Parsed mid}
    (tail : ∀ h, Yields (next ⟨ahead, false⟩ h) trees rest) :
    Yields (((Taken.front token ahead recovering).underNode rule).andThen next)
      (.node rule token.start [.terminal token] :: trees) rest := by
  obtain ⟨htrees, hquiet, hrest⟩ := tail (Taken.front token ahead recovering).size_lt
  exact ⟨congrArg (Tree.node rule token.start [.terminal token] :: ·) htrees, hquiet, hrest⟩

theorem underNode {parsed : Parsed ⟨ahead, recovering⟩} {rule : Rule}
    (body : Yields parsed children rest) :
    Yields (parsed.underNode rule) [.node rule (startOf ahead) children] rest :=
  ⟨congrArg (fun children => [Tree.node rule (startOf ahead) children]) body.trees, body.quiet,
    body.rest⟩

end Yields

theorem expect_yields {kind : TokenKind} (h : Derives [.token kind] ahead trees rest) :
    Yields (.expect ⟨ahead, false⟩ kind) trees rest := by
  obtain ⟨token, ahead, _, hkind, rfl, rfl, hdone⟩ := Derives.token_iff.mp h
  obtain ⟨rfl, rfl⟩ := Derives.nil_iff.mp hdone
  rw [Parsed.expect, Taken.first?_cons, if_pos (by simpa using hkind)]
  exact .taken

theorem peek_of_token {kind : TokenKind} {more : List Symbol}
    (h : Derives (.token kind :: more) ahead trees rest) : Input.peek ⟨ahead, false⟩ = kind := by
  obtain ⟨token, ahead, _, hkind, rfl, _⟩ := Derives.token_iff.mp h
  exact hkind

-- The end of a literal: a comma that nothing follows may stand before the bracket.
section Ending

variable {closing : TokenKind}

def ending (closing : TokenKind) : List Symbol := [.optional [.token .comma], .token closing]

theorem ending_yields {content : List TokenKind} (hclosing : closing ≠ .comma)
    (h : Derives (ending closing) ahead trees rest) :
    Yields ((Parsed.optional ⟨ahead, false⟩ .comma).andThen fun mid _ => close mid closing content)
      trees rest := by
  have hclose : ∀ {mid trees}, Derives [.token closing] mid trees rest →
      Yields (close ⟨mid, false⟩ closing content) trees rest := by
    intro mid trees h
    rw [close, if_pos (by simpa [Input.isAt] using peek_of_token h)]
    exact expect_yields h
  rcases Derives.optional_iff.mp h with tail | unfolded
  · obtain ⟨token, _, _, hkind, rfl, rfl, _⟩ := Derives.token_iff.mp tail
    rw [optional_eq rfl, if_neg (by simpa [hkind] using hclosing)]
    exact .andThen .nothing fun _ => hclose tail
  · obtain ⟨comma, _, _, hkind, rfl, rfl, tail⟩ := Derives.token_iff.mp unfolded
    rw [optional_eq rfl, if_pos hkind]
    exact Yields.taken.andThen fun _ => hclose tail

-- No item of a list follows where the literal ends.
structure ListEnds (follows : TokenKind → Bool) (rest : List Token) : Prop where
  comma : commaBefore? ⟨rest, false⟩ follows = none
  ends : endsList ⟨rest, false⟩

theorem listEnds_of_closing {follows : TokenKind → Bool} (hsync : closing ∈ sync)
    (hpeek : Input.peek ⟨rest, false⟩ = closing) : ListEnds follows rest := by
  refine ⟨?_, by simp [endsList, Input.isAtAny, hpeek, hsync]⟩
  have hcomma : closing ≠ .comma := by
    rintro rfl
    simp [sync] at hsync
  rw [commaBefore?]
  cases rest with
  | nil => rfl
  | cons token rest =>
    rw [Input.peek_cons] at hpeek
    simp [hpeek, hcomma]

theorem ending_ends {follows : TokenKind → Bool} (hsync : closing ∈ sync)
    (hfollows : follows closing = false) (h : Derives (ending closing) ahead trees rest) :
    ListEnds follows ahead := by
  rcases Derives.optional_iff.mp h with tail | unfolded
  · exact listEnds_of_closing hsync (peek_of_token tail)
  · obtain ⟨comma, _, _, hkind, rfl, rfl, tail⟩ := Derives.token_iff.mp unfolded
    refine ⟨?_, by simp [endsList, Input.isAt, hkind]⟩
    rw [commaBefore?, Taken.first?_cons, if_pos (by simpa using hkind), Option.filter_some,
      Input.nth_one_cons _ _ _ false, peek_of_token tail, hfollows]
    rfl

end Ending

-- A list of items, with commas between them.
theorem separator_yields {closing : TokenKind} {follows : TokenKind → Bool} {item : Symbol}
    {items : (mid : Input) → mid.size < Input.size ⟨ahead, false⟩ → Parsed mid}
    (hstarts : ∀ {more ahead trees}, Derives (item :: more) ahead trees rest →
      follows (Input.peek ⟨ahead, false⟩))
    (hitems : ∀ mid trees h, Derives item.commaSeparated mid trees rest →
      Yields (items ⟨mid, false⟩ h) trees rest)
    (hend : ListEnds follows rest)
    (h : Derives [.many [.token .comma, item]] ahead trees rest) :
    Yields ((separator ⟨ahead, false⟩ closing follows).andThen items) trees rest := by
  rcases Derives.many_iff.mp h with hstop | hagain
  · obtain ⟨rfl, rfl⟩ := Derives.nil_iff.mp hstop
    rw [separator_of_end hend.comma hend.ends]
    exact .nothing
  · obtain ⟨comma, mid, trees, hkind, rfl, rfl, tail⟩ := Derives.token_iff.mp hagain
    have hcomma : commaBefore? ⟨comma :: mid, false⟩ follows = some (.front comma mid false) :=
      commaBefore?_eq_some_iff.mpr ⟨rfl, hkind, hstarts tail⟩
    rw [separator_of_comma hcomma]
    exact .takenThen fun h => hitems mid trees h tail

theorem derives_anyToken {kinds : List TokenKind}
    (h : Derives [.anyOf (kinds.map .token)] ahead trees rest) :
    ∃ token, token.kind ∈ kinds ∧ ahead = token :: rest ∧ trees = [.terminal token] := by
  obtain ⟨symbol, hsymbol, chosen⟩ := Derives.anyOf_iff.mp h
  obtain ⟨kind, hmem, rfl⟩ := List.mem_map.mp hsymbol
  obtain ⟨token, _, _, rfl, rfl, rfl, hdone⟩ := Derives.token_iff.mp chosen
  obtain ⟨rfl, rfl⟩ := Derives.nil_iff.mp hdone
  exact ⟨token, hmem, rfl, rfl⟩

theorem derives_literal (h : Derives (production .literal) ahead trees rest) :
    ∃ token, token.kind ∈ [.null, .boolean, .string, .number, .regex] ∧ ahead = token :: rest ∧
      trees = [.terminal token] := derives_anyToken h

theorem derives_propertyName (h : Derives (production .propertyName) ahead trees rest) :
    ∃ token, token.kind ∈ nameStart ∧ ahead = token :: rest ∧ trees = [.terminal token] :=
  derives_anyToken h

-- Every value begins with a token that the reader looks for.
theorem peek_of_value {more : List Symbol} (h : Derives (.value :: more) ahead trees rest) :
    Input.peek ⟨ahead, false⟩ ∈ valueStart := by
  obtain ⟨symbol, hsymbol, chosen⟩ := Derives.anyOf_iff.mp h
  simp only [List.mem_cons, List.not_mem_nil, or_false] at hsymbol
  rcases hsymbol with rfl | rfl | rfl | rfl
  all_goals obtain ⟨children, mid, _, body, _, _⟩ := Derives.rule_iff.mp chosen
  · obtain ⟨token, hkind, rfl, rfl⟩ := derives_literal body
    have hsub : [.null, .boolean, .string, .number, .regex] ⊆ valueStart := by decide
    exact hsub hkind
  all_goals simp [peek_of_token body, valueStart]

theorem peek_of_assignment {more : List Symbol}
    (h : Derives (.rule .propertyAssignment :: more) ahead trees rest) :
    Input.peek ⟨ahead, false⟩ ∈ nameStart := by
  obtain ⟨_, _, _, body, _, _⟩ := Derives.rule_iff.mp h
  obtain ⟨_, _, _, name, _, _⟩ := Derives.rule_iff.mp body
  obtain ⟨token, hkind, rfl, _⟩ := derives_propertyName name
  exact hkind

theorem peek_of_propertyValue {more : List Symbol}
    (h : Derives (.rule .propertyValue :: more) ahead trees rest) :
    Input.peek ⟨ahead, false⟩ ∈ valueStart := by
  obtain ⟨_, _, _, body, _, _⟩ := Derives.rule_iff.mp h
  exact peek_of_value body

theorem peek_of_ending {closing : TokenKind} (h : Derives (ending closing) ahead trees rest) :
    Input.peek ⟨ahead, false⟩ = .comma ∨ Input.peek ⟨ahead, false⟩ = closing := by
  rcases Derives.optional_iff.mp h with tail | unfolded
  · exact .inr (peek_of_token tail)
  · exact .inl (peek_of_token unfolded)

-- What a value that begins with this token is.
theorem value_cons (token : Token) (ahead : List Token) :
    value ⟨token :: ahead, false⟩ =
      match token.kind with
      | .openBrace => objectLiteral (.front token ahead false)
      | .openBracket => arrayLiteral (.front token ahead false)
      | .identifier => functionCall (.front token ahead false)
      | kind =>
        if kind.isLiteral then literal (.front token ahead false)
        else noValue ⟨token :: ahead, false⟩ := by
  rw [value]
  rfl

theorem value_literal {token : Token}
    (hkind : token.kind ∈ [.null, .boolean, .string, .number, .regex]) :
    value ⟨token :: rest, false⟩ = literal (.front token rest false) := by
  simp only [List.mem_cons, List.not_mem_nil, or_false] at hkind
  rw [value_cons]
  rcases hkind with hkind | hkind | hkind | hkind | hkind <;> rw [hkind] <;> rfl

mutual

theorem value_yields {ahead rest : List Token} {trees : List Tree}
    (h : Derives [.value] ahead trees rest) : Yields (value ⟨ahead, false⟩) trees rest := by
  obtain ⟨symbol, hsymbol, chosen⟩ := Derives.anyOf_iff.mp h
  simp only [List.mem_cons, List.not_mem_nil, or_false] at hsymbol
  rcases hsymbol with rfl | rfl | rfl | rfl
  all_goals
    obtain ⟨children, _, _, body, rfl, hdone⟩ := Derives.rule_iff.mp chosen
    obtain ⟨rfl, rfl⟩ := Derives.nil_iff.mp hdone
  · obtain ⟨token, hkind, rfl, rfl⟩ := derives_literal body
    rw [value_literal hkind]
    exact Yields.taken.underNode
  · obtain ⟨token, ahead, _, hkind, rfl, _⟩ := Derives.token_iff.mp body
    rw [value_cons, hkind]
    exact objectLiteral_yields body
  · obtain ⟨token, ahead, _, hkind, rfl, _⟩ := Derives.token_iff.mp body
    rw [value_cons, hkind]
    exact arrayLiteral_yields body
  · obtain ⟨token, ahead, _, hkind, rfl, _⟩ := Derives.token_iff.mp body
    rw [value_cons, hkind]
    exact functionCall_yields body
termination_by 4 * Input.size ⟨ahead, false⟩ + 1

theorem objectLiteral_yields {token : Token} {ahead rest : List Token} {children : List Tree}
    (h : Derives (production .objectLiteral) (token :: ahead) children rest) :
    Yields (objectLiteral (.front token ahead false)) [.node .objectLiteral token.start children]
      rest := by
  obtain ⟨_, _, trees, hkind, heq, rfl, tail⟩ := Derives.token_iff.mp h
  obtain ⟨rfl, rfl⟩ := List.cons.inj heq
  rw [objectLiteral]
  refine .underNode (.takenThen fun hsize => ?_)
  rcases Derives.optional_iff.mp tail with hnone | hsome
  · have hstart : ¬ Input.isAtAny ⟨ahead, false⟩ nameStart := by
      rcases peek_of_ending hnone with hpeek | hpeek <;> simp [Input.isAtAny, hpeek, nameStart]
    rw [if_neg hstart]
    exact Yields.nothing.andThen fun _ => ending_yields (by decide) hnone
  · obtain ⟨items, mid, trees, body, rfl, hending⟩ := Derives.rule_iff.mp hsome
    have hstart : Input.isAtAny ⟨ahead, false⟩ nameStart := by
      simpa [Input.isAtAny] using peek_of_assignment body
    rw [if_pos hstart]
    have hlist := propertyList_yields (ending_ends (by decide) rfl hending) body
    exact hlist.underNode.andThen fun _ => ending_yields (by decide) hending
termination_by 4 * Input.size ⟨token :: ahead, false⟩

theorem propertyList_yields {ahead rest : List Token} {trees : List Tree}
    (hend : ListEnds nameStart.contains rest)
    (h : Derives (Symbol.commaSeparated (.rule .propertyAssignment)) ahead trees rest) :
    Yields (propertyList ⟨ahead, false⟩) trees rest := by
  obtain ⟨children, mid, trees, body, rfl, tail⟩ := Derives.rule_iff.mp h
  obtain ⟨_, _, _, name, _, _⟩ := Derives.rule_iff.mp body
  obtain ⟨token, hkind, rfl, _⟩ := derives_propertyName name
  rw [propertyList, Taken.first?_cons, if_pos (by simpa using hkind)]
  refine (propertyAssignment_yields body).andThen fun _ => ?_
  refine separator_yields (fun h => ?_) (fun _ _ _ h => propertyList_yields hend h) hend tail
  simpa using peek_of_assignment h
termination_by 4 * Input.size ⟨ahead, false⟩ + 1

theorem propertyAssignment_yields {token : Token} {ahead rest : List Token} {children : List Tree}
    (h : Derives (production .propertyAssignment) (token :: ahead) children rest) :
    Yields (propertyAssignment (.front token ahead false))
      [.node .propertyAssignment token.start children] rest := by
  obtain ⟨_, _, trees, name, rfl, tail⟩ := Derives.rule_iff.mp h
  obtain ⟨_, _, heq, rfl⟩ := derives_propertyName name
  obtain ⟨rfl, rfl⟩ := List.cons.inj heq
  obtain ⟨colon, mid, _, hkind, rfl, rfl, hvalue⟩ := Derives.token_iff.mp tail
  obtain ⟨inside, _, _, body, rfl, hdone⟩ := Derives.rule_iff.mp hvalue
  obtain ⟨rfl, rfl⟩ := Derives.nil_iff.mp hdone
  rw [propertyAssignment]
  refine .underNode (.namedThen fun _ => ?_)
  exact (expect_yields (.token hkind (.done mid))).andThen fun _ => propertyValue_yields body
termination_by 4 * Input.size ⟨token :: ahead, false⟩

theorem propertyValue_yields {ahead rest : List Token} {children : List Tree}
    (h : Derives (production .propertyValue) ahead children rest) :
    Yields (propertyValue ⟨ahead, false⟩) [.node .propertyValue (startOf ahead) children] rest := by
  rw [propertyValue]
  exact (value_yields h).underNode
termination_by 4 * Input.size ⟨ahead, false⟩ + 2

theorem arrayLiteral_yields {token : Token} {ahead rest : List Token} {children : List Tree}
    (h : Derives (production .arrayLiteral) (token :: ahead) children rest) :
    Yields (arrayLiteral (.front token ahead false)) [.node .arrayLiteral token.start children]
      rest := by
  obtain ⟨_, _, trees, hkind, heq, rfl, tail⟩ := Derives.token_iff.mp h
  obtain ⟨rfl, rfl⟩ := List.cons.inj heq
  rw [arrayLiteral]
  refine .underNode (.takenThen fun hsize => ?_)
  rcases Derives.optional_iff.mp tail with hnone | hsome
  · have hstart : ¬ Input.isAtAny ⟨ahead, false⟩ valueStart := by
      rcases peek_of_ending hnone with hpeek | hpeek <;> simp [Input.isAtAny, hpeek, valueStart]
    rw [if_neg hstart]
    exact Yields.nothing.andThen fun _ => ending_yields (by decide) hnone
  · obtain ⟨items, mid, trees, body, rfl, hending⟩ := Derives.rule_iff.mp hsome
    have hstart : Input.isAtAny ⟨ahead, false⟩ valueStart := by
      simpa [Input.isAtAny] using peek_of_propertyValue body
    rw [if_pos hstart]
    have hlist := elementList_yields (ending_ends (by decide) rfl hending) body
    exact hlist.underNode.andThen fun _ => ending_yields (by decide) hending
termination_by 4 * Input.size ⟨token :: ahead, false⟩

theorem elementList_yields {ahead rest : List Token} {trees : List Tree}
    (hend : ListEnds valueStart.contains rest)
    (h : Derives (Symbol.commaSeparated (.rule .propertyValue)) ahead trees rest) :
    Yields (elementList ⟨ahead, false⟩) trees rest := by
  obtain ⟨children, mid, trees, body, rfl, tail⟩ := Derives.rule_iff.mp h
  rw [elementList]
  refine (propertyValue_yields body).andThen fun _ => ?_
  refine separator_yields (fun h => ?_) (fun _ _ _ h => elementList_yields hend h) hend tail
  simpa using peek_of_propertyValue h
termination_by 4 * Input.size ⟨ahead, false⟩ + 3

theorem functionCall_yields {token : Token} {ahead rest : List Token} {children : List Tree}
    (h : Derives (production .functionCall) (token :: ahead) children rest) :
    Yields (functionCall (.front token ahead false)) [.node .functionCall token.start children]
      rest := by
  obtain ⟨_, _, trees, hkind, heq, rfl, tail⟩ := Derives.token_iff.mp h
  obtain ⟨rfl, rfl⟩ := List.cons.inj heq
  obtain ⟨inside, _, _, body, rfl, hdone⟩ := Derives.rule_iff.mp tail
  obtain ⟨rfl, rfl⟩ := Derives.nil_iff.mp hdone
  rw [functionCall]
  exact .underNode (.takenThen fun _ => arguments_yields body)
termination_by 4 * Input.size ⟨token :: ahead, false⟩

theorem arguments_yields {ahead rest : List Token} {children : List Tree}
    (h : Derives (production .arguments) ahead children rest) :
    Yields (arguments ⟨ahead, false⟩) [.node .arguments (startOf ahead) children] rest := by
  obtain ⟨opening, ahead, trees, hkind, rfl, rfl, tail⟩ := Derives.token_iff.mp h
  rw [arguments, Taken.first?_cons, if_pos (by simpa using hkind)]
  refine .underNode (.takenThen fun _ => ?_)
  rcases Derives.optional_iff.mp tail with hnone | hsome
  · rw [if_pos (by simpa [Input.isAt] using peek_of_token hnone)]
    exact Yields.nothing.andThen fun _ => expect_yields hnone
  · obtain ⟨items, mid, _, body, hclosing, rfl⟩ := Derives.split hsome
    obtain ⟨_, _, _, value, _, _⟩ := Derives.rule_iff.mp body
    have hstart : ¬ Input.isAt ⟨ahead, false⟩ .closeParen := by
      intro hat
      have hpeek := peek_of_value value
      rw [of_decide_eq_true hat] at hpeek
      exact absurd hpeek (by decide)
    rw [if_neg hstart]
    have hend : ListEnds (fun _ => true) mid :=
      listEnds_of_closing (by decide) (peek_of_token hclosing)
    have hlist := argumentList_yields hend body
    exact hlist.andThen fun _ => expect_yields hclosing
termination_by 4 * Input.size ⟨ahead, false⟩ + 1

theorem argumentList_yields {ahead rest : List Token} {trees : List Tree}
    (hend : ListEnds (fun _ => true) rest)
    (h : Derives (Symbol.commaSeparated (.rule .argument)) ahead trees rest) :
    Yields (argumentList ⟨ahead, false⟩) trees rest := by
  obtain ⟨children, mid, trees, body, rfl, tail⟩ := Derives.rule_iff.mp h
  rw [argumentList]
  refine (value_yields body).underNode.andThen fun _ => ?_
  exact separator_yields (fun _ => rfl) (fun _ _ _ h => argumentList_yields hend h) hend tail
termination_by 4 * Input.size ⟨ahead, false⟩ + 3

end

end QueryPad.Syntax
