import QueryPad.Proofs.Syntax.Production
import QueryPad.Proofs.Syntax.Steps

-- One induction over all values, calls and members: what holds of every single
-- step of a reading, and of readings put together, holds of all that is read.
namespace QueryPad

-- The rules that read whole commands. Only they match a semicolon.
def Rule.isOuter : Rule → Bool
  | mongoCommands | commands | command | emptyCommand => true
  | _ => false

theorem Rule.ne_of_isOuter {outer rule : Rule} (houter : outer.isOuter) (hrule : ¬ rule.isOuter) :
    outer ≠ rule := by
  rintro rfl
  exact hrule houter

-- The bracket with which a literal opens.
def Rule.opening? : Rule → Option TokenKind
  | objectLiteral => some .openBrace
  | arrayLiteral => some .openBracket
  | _ => none

namespace Syntax

variable {inp : Input}

-- Tokens that a rule matches without further ado. What opens an object, and a
-- comma between properties, is matched with a name in view.
def isPlain (rule : Rule) (kind : TokenKind) : Bool :=
  holdsPart rule (.token kind) &&
    match kind with
    | .semicolon | .endOfText | .db | .openBrace => false
    | .comma => rule ≠ .propertyNameAndValueList
    | _ => true

-- Values that stand alone under a node.
def isValueRule (rule : Rule) : Bool := rule = .argument || rule = .propertyValue

theorem holdsPart_value {rule inner : Rule} (h : isValueRule rule)
    (hinner : inner ∈ [.literal, .objectLiteral, .arrayLiteral, .functionCall]) :
    holdsPart rule (.rule inner) := by
  rcases Bool.or_eq_true_iff.mp h with hrule | hrule <;>
    obtain rfl := of_decide_eq_true hrule <;> revert inner <;> decide

-- What a rule may read as a node of another one at the current token.
structure Places (rule inner : Rule) (inp : Input) : Prop where
  inside : ¬ inner.isOuter
  notAlone : ¬ isValueRule inner
  named : holdsPart rule (.rule inner)
  opening : ∀ kind, inner.opening? = some kind → inp.peek = kind

theorem Places.of_other {rule inner : Rule} (hnamed : holdsPart rule (.rule inner))
    (h : ¬ inner.isOuter ∧ ¬ isValueRule inner ∧ inner.opening? = none) :
    Places rule inner inp where
  inside := h.1
  notAlone := h.2.1
  named := hnamed
  opening kind hkind := by simp [h.2.2] at hkind

theorem Places.of_opening {rule inner : Rule} {kind : TokenKind} {taken : Taken inp}
    (hnamed : holdsPart rule (.rule inner)) (hopening : inner.opening? = some kind)
    (hnext : Taken.next? inp = some taken) (hkind : taken.token.kind = kind) :
    Places rule inner inp where
  inside := by cases inner <;> simp [Rule.opening?] at hopening <;> decide
  notAlone := by cases inner <;> simp [Rule.opening?] at hopening <;> decide
  named := hnamed
  opening other hother := by
    obtain rfl : kind = other := Option.some.inj (hopening.symm.trans hother)
    rw [Taken.peek_eq hnext, hkind]

-- What is said of a reading depends on the rule it is made for. It also tells
-- whether a property name is due in front of it, and whether one is due behind.
structure Scheme (holds : Bool → Bool → Rule → ∀ {inp : Input}, Parsed inp → Prop) : Prop where
  nothing (rule : Rule) (inp : Input) : holds false false rule (Parsed.nothing inp)
  noName (rule : Rule) {inp : Input} : ¬ inp.isAtAny nameStart →
    holds true false rule (Parsed.nothing inp)
  report (rule : Rule) (inp : Input) (fault : SyntaxFault) :
    holds false false rule (Parsed.report inp fault)
  append {rule : Rule} {before between after : Bool} {inp : Input} {parsed : Parsed inp}
    {next : Parsed parsed.rest} : holds before between rule parsed →
      holds between after rule next → holds before after rule (parsed.append next)
  underNode {before after : Bool} {inp : Input} {parsed : Parsed inp} (rule inner : Rule) :
    Places rule inner inp → holds before after inner parsed →
      holds before after rule (parsed.underNode inner)
  valueNode (rule inner : Rule) (inp : Input) : holdsPart rule (.rule inner) →
    isValueRule inner → holds false false inner (value inp) →
      holds false false rule ((value inp).underNode inner)
  token {rule : Rule} {inp : Input} {taken : Taken inp} : Taken.next? inp = some taken →
    isPlain rule taken.token.kind → holds false false rule taken.parsed
  brace {inp : Input} {taken : Taken inp} : Taken.next? inp = some taken →
    taken.token.kind = .openBrace → holds false true .objectLiteral taken.parsed
  comma {inp : Input} {taken : Taken inp} : Taken.next? inp = some taken →
    taken.token.kind = .comma → holds false true .propertyNameAndValueList taken.parsed
  name {inp : Input} {taken : Taken inp} : Taken.next? inp = some taken →
    nameStart.contains taken.token.kind →
      holds true false .propertyAssignment (taken.underNode .propertyName).parsed
  skip (rule : Rule) (inp : Input) (kinds : List TokenKind) :
    holds false false rule (skipTo inp kinds)

namespace Scheme

variable {holds : Bool → Bool → Rule → ∀ {inp : Input}, Parsed inp → Prop} (scheme : Scheme holds)

include scheme

section Steps

variable {rule : Rule} {before between after : Bool}

theorem andThen {parsed : Parsed inp} {next : (mid : Input) → mid.size ≤ inp.size → Parsed mid}
    (head : holds before between rule parsed)
    (tail : ∀ mid h, holds between after rule (next mid h)) :
    holds before after rule (parsed.andThen next) :=
  scheme.append head (tail _ _)

theorem takenThen {taken : Taken inp} {next : (mid : Input) → mid.size < inp.size → Parsed mid}
    (head : holds before between rule taken.parsed)
    (tail : ∀ mid h, holds between after rule (next mid h)) :
    holds before after rule (taken.andThen next) := by
  rw [Taken.andThen_eq_append]
  exact scheme.append head (tail _ _)

-- A token that was looked for by its kind.
theorem first {kind : TokenKind} {taken : Taken inp}
    (h : Taken.first? inp (· = kind) = some taken) (hplain : isPlain rule kind) :
    holds false false rule taken.parsed := by
  obtain ⟨hnext, hkind⟩ := Taken.first?_eq_some_iff.mp h
  obtain rfl := of_decide_eq_true hkind
  exact scheme.token hnext hplain

theorem expect {kind : TokenKind} (hplain : isPlain rule kind) :
    holds false false rule (Parsed.expect inp kind) := by
  rw [Parsed.expect]
  split
  · next taken h => exact scheme.first h hplain
  · exact scheme.report _ _ _

theorem optional {kind : TokenKind} (hplain : isPlain rule kind) :
    holds false false rule (Parsed.optional inp kind) := by
  rw [Parsed.optional]
  split
  · next taken h => exact scheme.first h hplain
  · exact scheme.nothing _ _

theorem close {closing : TokenKind} {content : List TokenKind} (hplain : isPlain rule closing) :
    holds false false rule (close inp closing content) := by
  rw [Syntax.close]
  split
  · exact scheme.expect hplain
  · split
    · exact scheme.report _ _ _
    · refine scheme.andThen (scheme.report _ _ _) fun mid _ => ?_
      exact scheme.andThen (scheme.skip _ _ _) fun mid _ => scheme.expect hplain

theorem noValue : holds false false rule (noValue inp) := by
  refine scheme.andThen (scheme.report _ _ _) fun mid _ => ?_
  split
  · exact scheme.nothing _ _
  · exact scheme.skip _ _ _

theorem junkBefore {closing : TokenKind} : holds false false rule (junkBefore inp closing) :=
  scheme.andThen (scheme.report _ _ _) fun _ _ => scheme.skip _ _ _

theorem separator {closing : TokenKind} {follows : TokenKind → Bool}
    {items : (mid : Input) → mid.size < inp.size → Parsed mid}
    (hcomma : ∀ {inp : Input} {comma : Taken inp}, Taken.next? inp = some comma →
      comma.token.kind = .comma → holds false between rule comma.parsed)
    (hitems : ∀ mid h, holds between false rule (items mid h)) :
    holds false false rule ((separator inp closing follows).andThen items) := by
  have hfound : ∀ {inp : Input} {comma : Taken inp}, commaBefore? inp follows = some comma →
      holds false between rule comma.parsed := by
    intro inp comma h
    obtain ⟨hnext, hkind, _⟩ := commaBefore?_eq_some_iff.mp h
    exact hcomma hnext hkind
  cases h : commaBefore? inp follows with
  | some comma =>
    rw [separator_of_comma h]
    exact scheme.takenThen (hfound h) hitems
  | none =>
    by_cases hend : endsList inp
    · rw [separator_of_end h hend]
      exact scheme.nothing _ _
    · rw [separator_of_junk h hend, Separator.andThen]
      split
      · exact scheme.junkBefore
      · next comma hsep =>
        exact scheme.append scheme.junkBefore
          (scheme.takenThen (hfound hsep) fun mid _ => hitems mid _)

-- Between values a comma is a token like others.
theorem valueSeparator {closing : TokenKind} {follows : TokenKind → Bool}
    {items : (mid : Input) → mid.size < inp.size → Parsed mid} (hplain : isPlain rule .comma)
    (hitems : ∀ mid h, holds false false rule (items mid h)) :
    holds false false rule ((Syntax.separator inp closing follows).andThen items) :=
  scheme.separator (fun hnext hkind => scheme.token hnext (hkind ▸ hplain)) hitems

end Steps

mutual

theorem value_holds {rule : Rule} (hrule : isValueRule rule) (inp : Input) :
    holds false false rule (value inp) := by
  rw [value]
  split
  · exact scheme.noValue
  · next token h =>
    split
    · next hkind => exact objectLiteral_holds (holdsPart_value hrule (by simp)) h hkind
    · next hkind => exact arrayLiteral_holds (holdsPart_value hrule (by simp)) h hkind
    · next hkind =>
      exact functionCall_holds (holdsPart_value hrule (by simp)) (scheme.token h (hkind ▸ rfl))
    · split
      · next hkind =>
        refine scheme.underNode _ .literal
          (.of_other (holdsPart_value hrule (by simp)) (by decide)) (scheme.token h ?_)
        cases hk : token.token.kind <;> simp [hk, TokenKind.isLiteral] at hkind <;> rfl
      · exact scheme.noValue
termination_by 4 * inp.size + 1

theorem objectLiteral_holds {inp : Input} {opening : Taken inp} {rule : Rule}
    (hrule : holdsPart rule (.rule .objectLiteral)) (hnext : Taken.next? inp = some opening)
    (hkind : opening.token.kind = .openBrace) :
    holds false false rule (objectLiteral opening) := by
  rw [objectLiteral]
  refine scheme.underNode _ _ (.of_opening hrule rfl hnext hkind)
    (scheme.takenThen (scheme.brace hnext hkind) fun mid _ => ?_)
  have hnames : holds true false .objectLiteral
      (if mid.isAtAny nameStart then
        Parsed.underNode .propertyNameAndValueList (propertyList mid) else .nothing mid) := by
    split
    · exact scheme.underNode _ _ (.of_other rfl (by decide)) (propertyList_holds mid)
    · next hnone => exact scheme.noName _ hnone
  exact scheme.andThen hnames fun mid _ =>
    scheme.andThen (scheme.optional rfl) fun mid _ => scheme.close rfl
termination_by 4 * inp.size

theorem propertyList_holds (inp : Input) :
    holds true false .propertyNameAndValueList (propertyList inp) := by
  rw [propertyList]
  split
  · next h =>
    refine scheme.noName _ fun hstart => ?_
    obtain ⟨name, hname⟩ := Taken.exists_first? hstart rfl
    simp [h] at hname
  · next name h =>
    obtain ⟨hnext, hkind⟩ := Taken.first?_eq_some_iff.mp h
    refine scheme.andThen (propertyAssignment_holds (scheme.name hnext hkind)) fun mid _ => ?_
    exact scheme.separator scheme.comma fun mid _ => propertyList_holds mid
termination_by 4 * inp.size + 1

theorem propertyAssignment_holds {inp : Input} {name : Taken inp}
    (h : holds true false .propertyAssignment (name.underNode .propertyName).parsed) :
    holds true false .propertyNameAndValueList (propertyAssignment name) := by
  rw [propertyAssignment]
  refine scheme.underNode _ _ (.of_other rfl (by decide)) (scheme.takenThen h fun mid _ => ?_)
  exact scheme.andThen (scheme.expect rfl) fun mid _ => propertyValue_holds rfl mid
termination_by 4 * inp.size

theorem propertyValue_holds {rule : Rule} (hrule : holdsPart rule (.rule .propertyValue))
    (inp : Input) : holds false false rule (propertyValue inp) := by
  rw [propertyValue]
  exact scheme.valueNode _ _ _ hrule rfl (value_holds rfl inp)
termination_by 4 * inp.size + 2

theorem arrayLiteral_holds {inp : Input} {opening : Taken inp} {rule : Rule}
    (hrule : holdsPart rule (.rule .arrayLiteral)) (hnext : Taken.next? inp = some opening)
    (hkind : opening.token.kind = .openBracket) :
    holds false false rule (arrayLiteral opening) := by
  have hbracket : holds false false .arrayLiteral opening.parsed :=
    scheme.token hnext (hkind ▸ rfl)
  rw [arrayLiteral]
  refine scheme.underNode _ _ (.of_opening hrule rfl hnext hkind)
    (scheme.takenThen hbracket fun mid _ => ?_)
  refine scheme.andThen ?_ fun mid _ =>
    scheme.andThen (scheme.optional rfl) fun mid _ => scheme.close rfl
  split
  · exact scheme.underNode _ _ (.of_other rfl (by decide)) (elementList_holds mid)
  · exact scheme.nothing _ _
termination_by 4 * inp.size

theorem elementList_holds (inp : Input) : holds false false .elementList (elementList inp) := by
  rw [elementList]
  refine scheme.andThen (propertyValue_holds rfl inp) fun mid _ => ?_
  exact scheme.valueSeparator rfl fun mid _ => elementList_holds mid
termination_by 4 * inp.size + 3

theorem functionCall_holds {inp : Input} {name : Taken inp} {rule : Rule}
    (hrule : holdsPart rule (.rule .functionCall))
    (h : holds false false .functionCall name.parsed) :
    holds false false rule (functionCall name) := by
  rw [functionCall]
  exact scheme.underNode _ _ (.of_other hrule (by decide))
    (scheme.takenThen h fun mid _ => arguments_holds mid)
termination_by 4 * inp.size

theorem arguments_holds (inp : Input) : holds false false .functionCall (arguments inp) := by
  rw [arguments]
  apply scheme.underNode _ _ (.of_other rfl (by decide))
  split
  · exact scheme.report _ _ _
  · next opening h =>
    refine scheme.takenThen (scheme.first h rfl) fun mid _ => ?_
    refine scheme.andThen ?_ fun mid _ => scheme.expect rfl
    split
    · exact scheme.nothing _ _
    · exact argumentList_holds mid
termination_by 4 * inp.size + 1

theorem argumentList_holds (inp : Input) : holds false false .arguments (argumentList inp) := by
  rw [argumentList]
  refine scheme.andThen (scheme.valueNode _ _ _ rfl rfl (value_holds rfl inp)) fun mid _ => ?_
  exact scheme.valueSeparator rfl fun mid _ => argumentList_holds mid
termination_by 4 * inp.size + 3

end

-- The parts of a dotted name are matched one by one.
theorem dotted_holds (hready : inp.recovering = false) :
    holds false false .collection (dotted inp) := by
  obtain ⟨tokens, recovering⟩ := inp
  obtain rfl : recovering = false := hready
  induction tokens using dottedParts.induct with
  | case1 dot part after rest hkinds _ _ _ ih =>
    have hsplit : dotted ⟨dot :: part :: after :: rest, false⟩ =
        (Taken.front dot (part :: after :: rest) false).parsed.append
          ((Taken.front part (after :: rest) false).parsed.append
            (dotted ⟨after :: rest, false⟩)) := by
      simp [dotted, dottedParts, hkinds, Parsed.append, Taken.parsed, Taken.andThen,
        Parsed.nothing, Taken.front]
    simp only [Bool.and_eq_true, decide_eq_true_eq] at hkinds
    rw [hsplit]
    refine scheme.append (scheme.token rfl ?_) (scheme.append (scheme.token rfl ?_) ih)
    · exact hkinds.1.1 ▸ rfl
    · exact hkinds.1.2 ▸ rfl
  | case2 dot part after rest hkinds =>
    have hnone : dotted ⟨dot :: part :: after :: rest, false⟩ = .nothing _ := by
      simp [dotted, dottedParts, hkinds, Parsed.nothing]
    exact hnone ▸ scheme.nothing _ _
  | case3 tokens hshort =>
    have hnone : dotted ⟨tokens, false⟩ = .nothing _ := by
      simp [dotted, dottedParts, Parsed.nothing]
    exact hnone ▸ scheme.nothing _ _

theorem collection_holds {name : Taken inp}
    (h : Taken.first? inp (· = .identifier) = some name) :
    holds false false .command (collection name) := by
  have hready := Taken.recovering_eq (Taken.first?_eq_some_iff.mp h).1
  rw [collection, Taken.andThen_eq_append]
  exact scheme.underNode _ _ (.of_other rfl (by decide))
    (scheme.append (scheme.first h rfl) (scheme.dotted_holds hready))

mutual

theorem members_holds (inp : Input) (first : Bool) :
    holds false false .command (members inp first) := by
  rw [members]
  split
  · next dot h => exact scheme.takenThen (scheme.first h rfl) fun mid _ => member_holds mid first
  · split
    · exact scheme.andThen (scheme.report _ _ _) fun mid _ => member_holds mid first
    · exact scheme.nothing _ _
termination_by 2 * inp.size + 1

theorem member_holds (inp : Input) (first : Bool) :
    holds false false .command (member inp first) := by
  rw [member]
  split
  · exact scheme.report _ _ _
  · next name h =>
    split
    · have := collection_size_lt name
      exact scheme.append (scheme.collection_holds h) (members_holds _ false)
    · have := functionCall_size_lt name
      exact scheme.append (scheme.functionCall_holds rfl (scheme.first h rfl))
        (members_holds _ false)
termination_by 2 * inp.size

end

theorem commandBody_holds (inp : Input) : holds false false .command (commandBody inp) := by
  refine scheme.append (scheme.members_holds inp true) ?_
  rw [callCheck]
  split
  · exact scheme.nothing _ _
  · exact scheme.report _ _ _

end Scheme

-- What holds of every single step of a reading, and of readings put together,
-- whatever they are made for.
structure Invariant (holds : ∀ {inp : Input}, Parsed inp → Prop) : Prop where
  nothing (inp : Input) : holds (Parsed.nothing inp)
  report (inp : Input) (fault : SyntaxFault) : holds (Parsed.report inp fault)
  append {inp : Input} {parsed : Parsed inp} {next : Parsed parsed.rest} :
    holds parsed → holds next → holds (parsed.append next)
  underNode {inp : Input} {parsed : Parsed inp} (rule : Rule) :
    ¬ rule.isOuter → holds parsed → holds (parsed.underNode rule)
  token {inp : Input} {taken : Taken inp} : Taken.next? inp = some taken →
    taken.token.kind ≠ .semicolon → taken.token.kind ≠ .endOfText → holds taken.parsed
  skip (inp : Input) (kinds : List TokenKind) : holds (skipTo inp kinds)

namespace Invariant

variable {holds : ∀ {inp : Input}, Parsed inp → Prop} (inv : Invariant holds)

include inv

theorem scheme : Scheme fun _ _ _ _ parsed => holds parsed where
  nothing _ _ := inv.nothing _
  noName _ _ _ := inv.nothing _
  report _ _ _ := inv.report _ _
  append head tail := inv.append head tail
  underNode _ inner hplaces body := inv.underNode inner hplaces.inside body
  valueNode _ inner _ _ hinner body := by
    refine inv.underNode inner ?_ body
    rintro houter
    cases inner <;> simp [Rule.isOuter, isValueRule] at houter hinner
  token := by
    intro rule inp taken h hplain
    apply inv.token h
    · intro hkind
      simp [hkind, isPlain] at hplain
    · intro hkind
      simp [hkind, isPlain] at hplain
  brace h hkind := inv.token h (by simp [hkind]) (by simp [hkind])
  comma h hkind := inv.token h (by simp [hkind]) (by simp [hkind])
  name := by
    intro inp taken h hkind
    rw [Taken.parsed_underNode]
    refine inv.underNode .propertyName (by decide) (inv.token h ?_ ?_)
    · intro hsemicolon
      simp [hsemicolon, nameStart] at hkind
    · intro hend
      simp [hend, nameStart] at hkind
  skip _ _ _ := inv.skip _ _

theorem commandBody_holds (inp : Input) : holds (commandBody inp) :=
  inv.scheme.commandBody_holds inp

end Invariant

end Syntax

end QueryPad
