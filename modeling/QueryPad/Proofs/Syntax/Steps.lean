import QueryPad.Syntax.Commands

-- What the single steps of reading give: the token taken, the trees and
-- reports of readings put together, the skipping between two items.
namespace QueryPad.Syntax

variable {inp : Input}

namespace Input

@[simp] theorem peek_cons (token : Token) (rest : List Token) (recovering : Bool) :
    peek ⟨token :: rest, recovering⟩ = token.kind := rfl

@[simp] theorem nth_one_cons (token : Token) (rest : List Token) (recovering recovering' : Bool) :
    nth ⟨token :: rest, recovering⟩ 1 = peek ⟨rest, recovering'⟩ := by
  simp [peek, nth]

theorem complaint_eq_nil_iff {fault : SyntaxFault} :
    inp.complaint fault = [] ↔ inp.recovering = true := by
  cases h : inp.recovering <;> simp [complaint, h]

end Input

namespace Parsed

variable {parsed : Parsed inp} {next : Parsed parsed.rest} {rule : Rule}

@[simp] theorem append_trees : (parsed.append next).trees = parsed.trees ++ next.trees := rfl

@[simp] theorem append_reports :
    (parsed.append next).reports = parsed.reports ++ next.reports := rfl

@[simp] theorem append_rest : (parsed.append next).rest = next.rest := rfl

@[simp] theorem underNode_trees :
    (parsed.underNode rule).trees = [.node rule inp.current.start parsed.trees] := rfl

@[simp] theorem underNode_reports : (parsed.underNode rule).reports = parsed.reports := rfl

end Parsed

namespace Taken

variable {taken : Taken inp} {accepts : TokenKind → Bool}

theorem tokens_terminal (token : Token) : (Tree.terminal token).tokens = [token] := rfl

theorem ahead_cons (token : Token) (rest : List Token) (recovering : Bool) :
    token :: rest = Input.ahead ⟨token :: rest, recovering⟩ := rfl

-- The first token matched. Each input with a token left has this one reading
-- of it.
def front (token : Token) (rest : List Token) (recovering : Bool) :
    Taken ⟨token :: rest, recovering⟩ :=
  ⟨token, .terminal token, ⟨rest, false⟩, tokens_terminal token, ahead_cons token rest recovering⟩

@[simp] theorem next?_nil (recovering : Bool) : next? ⟨[], recovering⟩ = none := rfl

@[simp] theorem next?_cons (token : Token) (rest : List Token) (recovering : Bool) :
    next? ⟨token :: rest, recovering⟩ = some (front token rest recovering) := rfl

@[simp] theorem first?_nil (recovering : Bool) : first? ⟨[], recovering⟩ accepts = none := rfl

@[simp] theorem first?_cons (token : Token) (rest : List Token) (recovering : Bool) :
    first? ⟨token :: rest, recovering⟩ accepts =
      if accepts token.kind then some (front token rest recovering) else none := by
  simp [first?, Option.filter, front]

theorem first?_eq_some_iff :
    first? inp accepts = some taken ↔ next? inp = some taken ∧ accepts taken.token.kind := by
  simp [first?]

-- At the end of the text the kind of the next token is the end of the text too.
theorem exists_first? (h : accepts inp.peek) (hend : accepts .endOfText = false) :
    ∃ taken, first? inp accepts = some taken := by
  obtain ⟨ahead, recovering⟩ := inp
  cases ahead with
  | nil =>
    rw [show Input.peek ⟨[], recovering⟩ = .endOfText from rfl, hend] at h
    contradiction
  | cons token rest => exact ⟨front token rest recovering, by simpa using h⟩

theorem first?_eq_none (h : accepts inp.peek = false) : first? inp accepts = none := by
  obtain ⟨ahead, recovering⟩ := inp
  cases ahead with
  | nil => rfl
  | cons token rest =>
    rw [Input.peek_cons] at h
    simp [h]

-- Where a token is taken there is a first one, and that one is taken.
theorem next?_cases {motive : (inp : Input) → Taken inp → Prop} (h : next? inp = some taken)
    (front : ∀ token rest recovering,
      motive ⟨token :: rest, recovering⟩ (front token rest recovering)) : motive inp taken := by
  obtain ⟨ahead, recovering⟩ := inp
  cases ahead with
  | nil => simp at h
  | cons token rest =>
    obtain rfl := Option.some.inj h
    exact front token rest recovering

theorem peek_eq (h : next? inp = some taken) : inp.peek = taken.token.kind := by
  refine next?_cases (motive := fun inp taken => inp.peek = taken.token.kind) h ?_
  exact fun _ _ _ => rfl

theorem peek_of_none (h : next? inp = none) : inp.peek = .endOfText := by
  obtain ⟨ahead, recovering⟩ := inp
  cases ahead with
  | nil => rfl
  | cons token rest => simp at h

theorem tree_eq (h : next? inp = some taken) : taken.tree = .terminal taken.token := by
  refine next?_cases (motive := fun _ taken => taken.tree = .terminal taken.token) h ?_
  exact fun _ _ _ => rfl

theorem current_eq (h : next? inp = some taken) : inp.current = taken.token := by
  refine next?_cases (motive := fun inp taken => inp.current = taken.token) h ?_
  exact fun _ _ _ => rfl

theorem recovering_eq (h : next? inp = some taken) : taken.rest.recovering = false := by
  refine next?_cases (motive := fun _ taken => taken.rest.recovering = false) h ?_
  exact fun _ _ _ => rfl

theorem nth_one_eq (h : next? inp = some taken) : inp.nth 1 = taken.rest.peek := by
  refine next?_cases (motive := fun inp taken => inp.nth 1 = taken.rest.peek) h ?_
  exact fun token rest recovering => Input.nth_one_cons token rest recovering false

-- Reading on after a token is putting the token before what is read on.
theorem andThen_eq_append (taken : Taken inp)
    (next : (mid : Input) → mid.size < inp.size → Parsed mid) :
    taken.andThen next = taken.parsed.append (next taken.rest taken.size_lt) := by
  simp [andThen, parsed, Parsed.append, Parsed.nothing]

theorem parsed_underNode (rule : Rule) (taken : Taken inp) :
    (taken.underNode rule).parsed = taken.parsed.underNode rule := rfl

end Taken

theorem optional_eq {taken : Taken inp} (h : Taken.next? inp = some taken) (kind : TokenKind) :
    Parsed.optional inp kind = if taken.token.kind = kind then taken.parsed else .nothing inp := by
  rw [Parsed.optional, Taken.first?, h, Option.filter_some]
  by_cases hkind : taken.token.kind = kind <;> simp [hkind]

theorem commaBefore?_eq_some_iff {comma : Taken inp} {follows : TokenKind → Bool} :
    commaBefore? inp follows = some comma ↔
      Taken.next? inp = some comma ∧ comma.token.kind = .comma ∧ follows comma.rest.peek := by
  simp only [commaBefore?, Option.filter_eq_some_iff, Taken.first?_eq_some_iff, decide_eq_true_eq,
    and_assoc]
  constructor
  · rintro ⟨h, hkind, hfollows⟩
    exact ⟨h, hkind, Taken.nth_one_eq h ▸ hfollows⟩
  · rintro ⟨h, hkind, hfollows⟩
    exact ⟨h, hkind, (Taken.nth_one_eq h).symm ▸ hfollows⟩

-- What stands between two items is a comma with an item behind it, or an end
-- of the list, or junk.
section Separator

variable {closing : TokenKind} {follows : TokenKind → Bool}
  {items : (mid : Input) → mid.size < inp.size → Parsed mid}

def endsList (inp : Input) : Bool := inp.isAt .comma || inp.isAt .endOfText || inp.isAtAny sync

def junkBefore (inp : Input) (closing : TokenKind) : Parsed inp :=
  (Parsed.report inp (.mismatched inp.current [.comma, closing])).andThen
    fun mid _ => skipTo mid [.comma]

theorem separator_of_comma {comma : Taken inp} (h : commaBefore? inp follows = some comma) :
    (separator inp closing follows).andThen items = comma.andThen items := by
  have hsep : separator inp closing follows = ⟨.nothing inp, some comma⟩ := by
    rw [separator, h]
    exact if_pos rfl
  rw [hsep]
  rfl

theorem separator_of_end (hcomma : commaBefore? inp follows = none) (hend : endsList inp) :
    (separator inp closing follows).andThen items = .nothing inp := by
  have hsep : separator inp closing follows = ⟨.nothing inp, none⟩ := by
    rw [separator, hcomma]
    exact if_pos hend
  rw [hsep]
  rfl

theorem separator_of_junk (hcomma : commaBefore? inp follows = none) (hend : ¬ endsList inp) :
    separator inp closing follows =
      ⟨junkBefore inp closing, commaBefore? (junkBefore inp closing).rest follows⟩ := by
  rw [separator, hcomma]
  exact if_neg hend

end Separator

theorem commandList_of_next {token : Taken inp} (h : Taken.next? inp = some token)
    (hend : token.token.kind ≠ .endOfText) :
    commandList inp = (commandItem token).append (commandList (commandItem token).rest) := by
  rw [commandList, h]
  exact if_neg hend

theorem commandList_of_end (h : inp.peek = .endOfText) : commandList inp = .nothing inp := by
  rw [commandList]
  split
  · rfl
  · next token hnext =>
    rw [Taken.peek_eq hnext] at h
    exact if_pos h

end QueryPad.Syntax
