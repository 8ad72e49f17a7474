import QueryPad.Command.Extraction
import QueryPad.Proofs.Completion.Brackets
import QueryPad.Proofs.Syntax.Derived
import QueryPad.Proofs.Syntax.Numbers

-- What stands in a node that the grammar derives before each of the nodes in it.
namespace QueryPad.Completion

open Syntax Symbol

section Production

variable {rule : Rule} {opening closing : TokenKind} {list : Rule}

-- The production of a literal with a list in brackets.
def bracketed (opening : TokenKind) (list : Rule) (closing : TokenKind) : List Symbol :=
  .token opening :: .optional [.rule list] :: ending closing

def AllPlain (form : List Symbol) : Prop :=
  ∀ kind, Part.token kind ∈ partsOf form → kind.isPlain

-- Brackets stand around lists only.
theorem production_cases (rule : Rule) : AllPlain (production rule) ∨
    ∃ opening list closing, opening.opensFrame ∧ closing.closesFrame ∧
      production rule = bracketed opening list closing := by
  have hplain : ∀ {form}, ((partsOf form).all fun
      | .token kind => kind.isPlain
      | .rule _ => true) → AllPlain form := by
    intro form h kind hkind
    exact List.all_eq_true.mp h _ hkind
  cases rule with
  | objectLiteral => exact .inr ⟨.openBrace, _, .closeBrace, rfl, rfl, rfl⟩
  | arrayLiteral => exact .inr ⟨.openBracket, _, .closeBracket, rfl, rfl, rfl⟩
  | _ => exact .inl (hplain (by decide))

theorem allPlain_production (hobject : rule ≠ .objectLiteral) (harray : rule ≠ .arrayLiteral) :
    AllPlain (production rule) := by
  rcases production_cases rule with h | ⟨opening, list, closing, hopening, -, heq⟩
  · exact h
  · cases rule <;> cases heq <;> contradiction

end Production

section Closed

variable {trees : List Tree} {tree : Tree} {form : List Symbol} {ahead rest : List Token}

theorem closed_tokensOf (h : ∀ tree ∈ trees, ∃ own, Closed tree.tokens own) :
    ∃ own, Closed (Tree.tokensOf trees) own := by
  induction trees with
  | nil => exact ⟨[], .nil⟩
  | cons tree trees ih =>
    obtain ⟨hhere, hmore⟩ := List.forall_mem_cons.mp h
    obtain ⟨own, hself⟩ := hhere
    obtain ⟨later, hlater⟩ := ih hmore
    exact ⟨own ++ later, hself.append hlater⟩

-- All brackets of a derived tree are closed in it.
theorem closed_of_isPart {part : Part} (h : IsPart part tree)
    (hplain : ∀ kind, part = .token kind → kind.isPlain) : ∃ own, Closed tree.tokens own := by
  induction hcount : tree.count using Nat.strongRecOn generalizing part tree with
  | ind count ih =>
    cases h with
    | token token => exact ⟨[token], .singleton (hplain _ rfl)⟩
    | @rule rule start children ahead rest body =>
      have hinside : ∀ {form ahead trees rest}, Derives form ahead trees rest → AllPlain form →
          trees ⊆ children → ∃ own, Closed (Tree.tokensOf trees) own := by
        intro form ahead trees rest hderived hform hsub
        apply closed_tokensOf
        intro tree htree
        obtain ⟨inner, hinner, hself⟩ := hderived.part_of_mem htree
        have hlt := @Tree.count_lt_of_mem_children (.node rule start children) tree (hsub htree)
        exact ih _ (by omega) hself (fun kind hkind => hform kind (hkind ▸ hinner)) rfl
      rcases production_cases rule with hform | ⟨opening, list, closing, hopening, hclosing, heq⟩
      · exact hinside body hform (List.Subset.refl _)
      · rw [heq] at body
        obtain ⟨first, _, tail, rfl, rfl, rfl, hderived⟩ := Derives.token_iff.mp body
        obtain ⟨middle, _, _, hmiddle, hlast, rfl⟩ :=
          Derives.split (a := [.optional [.rule list], .optional [.token .comma]]) hderived
        obtain ⟨last, _, _, rfl, rfl, rfl, hdone⟩ := Derives.token_iff.mp hlast
        obtain ⟨rfl, -⟩ := Derives.nil_iff.mp hdone
        obtain ⟨own, hown⟩ := hinside hmiddle (by simp [AllPlain, partsOf, parts, TokenKind.isPlain,
          TokenKind.opensFrame, TokenKind.closesFrame]) (by simp)
        exact ⟨[], by simpa [Tree.tokens, Tree.tokensOf] using .bracketed hopening hown hclosing⟩

theorem closed_elders {part : Part} {rule : Rule} {start : Nat} {children : List Tree}
    (h : IsPart part (.node rule start children)) (hobject : rule ≠ .objectLiteral)
    (harray : rule ≠ .arrayLiteral) (index : Nat) :
    ∃ own, Closed (Tree.tokensOf (children.take index)) own := by
  obtain ⟨ahead, rest, hderived⟩ := h.derives
  apply closed_tokensOf
  intro tree htree
  obtain ⟨inner, hinner, hself⟩ := hderived.part_of_mem (List.mem_of_mem_take htree)
  exact closed_of_isPart hself fun kind hkind =>
    allPlain_production hobject harray kind (hkind ▸ hinner)

end Closed

-- Nothing, or something that a comma ends.
inductive BeforeItem : List Token → Prop where
  | first : BeforeItem []
  | later {elders own : List Token} {comma : Token} (hclosed : Closed elders own)
      (hcomma : comma.kind = .comma) : BeforeItem (elders ++ [comma])

-- What stands in a node before another one that is a child of it.
inductive Precedes : Tree → List Token → Tree → Prop where
  | outside {rule inner : Rule} {start first : Nat} {children inside : List Tree}
      {elders own : List Token} (houter : rule.isOuter) (hpart : holdsPart rule (.rule inner))
      (hclosed : Closed elders own) :
      Precedes (.node rule start children) elders (.node inner first inside)
  | arguments {name : Token} {start first : Nat} {inside : List Tree}
      (hname : name.kind = .identifier) :
      Precedes (.node .functionCall start [.terminal name, .node .arguments first inside]) [name]
        (.node .arguments first inside)
  | argument {start first : Nat} {children inside : List Tree} {elders own : List Token}
      (hclosed : Closed elders own)
      (hone : (children.filter (·.is .argument)).length ≤ 1 →
        ∃ paren : Token, paren.kind = .openParen ∧ elders = [paren]) :
      Precedes (.node .arguments start children) elders (.node .argument first inside)
  | value {rule inner : Rule} {start first : Nat} {children inside : List Tree}
      (hrule : rule = .argument ∨ rule = .propertyValue) (hpart : holdsPart rule (.rule inner)) :
      Precedes (.node rule start children) [] (.node inner first inside)
  | properties {brace : Token} {start first : Nat} {children inside : List Tree}
      (hbrace : brace.kind = .openBrace) :
      Precedes (.node .objectLiteral start children) [brace]
        (.node .propertyNameAndValueList first inside)
  | elements {bracket : Token} {start first : Nat} {children inside : List Tree}
      (hbracket : bracket.kind = .openBracket) :
      Precedes (.node .arrayLiteral start children) [bracket] (.node .elementList first inside)
  | item {list item : Rule} {start first : Nat} {children inside : List Tree}
      {elders : List Token} (hlist : production list = commaSeparated (.rule item))
      (helders : BeforeItem elders) :
      Precedes (.node list start children) elders (.node item first inside)
  | name {start first : Nat} {children inside : List Tree} :
      Precedes (.node .propertyAssignment start children) [] (.node .propertyName first inside)
  | named {name colon : Token} {start first second : Nat} {inside : List Tree}
      (hname : Frame.isName name.kind) (hcolon : colon.kind = .colon) :
      Precedes
        (.node .propertyAssignment start [.node .propertyName first [.terminal name],
          .terminal colon, .node .propertyValue second inside]) [name, colon]
        (.node .propertyValue second inside)

section Elders

variable {form : List Symbol} {ahead rest : List Token} {children inside : List Tree}
  {index start : Nat} {rule inner : Rule}

-- A list in brackets has the opening bracket before it.
theorem elders_of_bracketed {opening closing : TokenKind} {list : Rule}
    (h : Derives (bracketed opening list closing) ahead children rest)
    (hchild : children[index]? = some (.node inner start inside)) : inner = list ∧
      ∃ bracket : Token, bracket.kind = opening ∧
        Tree.tokensOf (children.take index) = [bracket] := by
  obtain ⟨bracket, _, tail, hbracket, rfl, rfl, htail⟩ := Derives.token_iff.mp h
  have hending : ∀ {ahead trees rest}, Derives (ending closing) ahead trees rest →
      ∀ tree ∈ trees, tree.isLeaf := by
    intro ahead trees rest hderived
    exact hderived.leaves_of_tokens (by simp [ending, partsOf, parts])
  have hnot : ∀ {trees : List Tree} {i : Nat}, (∀ tree ∈ trees, tree.isLeaf) →
      trees[i]? ≠ some (.node inner start inside) := by
    intro trees i hleaves hnode
    exact absurd (hleaves _ (List.mem_of_getElem? hnode)) (by simp [Tree.isLeaf])
  cases index with
  | zero => simp at hchild
  | succ index =>
    rw [List.getElem?_cons_succ] at hchild
    rcases Derives.optional_iff.mp htail with hnone | hsome
    · exact absurd hchild (hnot (hending hnone))
    · obtain ⟨_, _, tail, _, rfl, hlast⟩ := Derives.rule_iff.mp hsome
      cases index with
      | zero =>
        obtain ⟨rfl, -⟩ := Tree.node.inj (Option.some.inj hchild)
        exact ⟨rfl, bracket, hbracket, rfl⟩
      | succ index =>
        rw [List.getElem?_cons_succ] at hchild
        exact absurd hchild (hnot (hending hlast))

-- In a list an item stands first or behind a comma.
theorem elders_of_items {item : Rule}
    (h : Derives (commaSeparated (.rule item)) ahead children rest)
    (hchild : children[index]? = some (.node inner start inside)) : inner = item ∧
      (index = 0 ∨ ∃ before comma, comma.kind = .comma ∧ index = before + 1 ∧
        children[before]? = some (.terminal comma)) := by
  induction hlength : children.length using Nat.strongRecOn generalizing ahead children index with
  | ind length ih =>
    obtain ⟨_, _, tail, _, rfl, hmany⟩ := Derives.rule_iff.mp h
    match index with
    | 0 =>
      obtain ⟨rfl, -⟩ := Tree.node.inj (Option.some.inj hchild)
      exact ⟨rfl, .inl rfl⟩
    | index + 1 =>
      rw [List.getElem?_cons_succ] at hchild
      rcases Derives.many_iff.mp hmany with hstop | hagain
      · obtain ⟨rfl, -⟩ := Derives.nil_iff.mp hstop
        contradiction
      · obtain ⟨comma, _, tail, hcomma, rfl, rfl, hitems⟩ := Derives.token_iff.mp hagain
        match index with
        | 0 => cases Option.some.inj hchild
        | index + 1 =>
          rw [List.getElem?_cons_succ] at hchild
          simp only [List.length_cons] at hlength
          obtain ⟨rfl, rfl | ⟨before, other, hother, rfl, hbefore⟩⟩ :=
            ih tail.length (by omega) hitems hchild rfl
          · exact ⟨rfl, .inr ⟨1, comma, hcomma, rfl, rfl⟩⟩
          · exact ⟨rfl, .inr ⟨before + 2, other, hother, rfl, hbefore⟩⟩

theorem elders_of_arguments (h : Derives (production .arguments) ahead children rest)
    (hchild : children[index]? = some (.node inner start inside)) : inner = .argument ∧
      ((children.filter (·.is .argument)).length ≤ 1 →
        ∃ paren : Token, paren.kind = .openParen ∧
          Tree.tokensOf (children.take index) = [paren]) := by
  obtain ⟨paren, ahead, tail, hparen, rfl, rfl, htail⟩ := Derives.token_iff.mp h
  cases index with
  | zero => simp at hchild
  | succ index =>
    rw [List.getElem?_cons_succ] at hchild
    rcases Derives.optional_iff.mp htail with hnone | hsome
    · have hleaves := hnone.leaves_of_tokens (by simp [partsOf, parts])
      exact absurd (hleaves _ (List.mem_of_getElem? hchild)) (by simp [Tree.isLeaf])
    · obtain ⟨items, _, last, hitems, hlast, rfl⟩ := Derives.split hsome
      have hleaves := hlast.leaves_of_tokens (by simp [partsOf, parts])
      rw [List.getElem?_append] at hchild
      split at hchild
      · obtain ⟨rfl, hbefore⟩ := elders_of_items hitems hchild
        refine ⟨rfl, fun hone => ⟨paren, hparen, ?_⟩⟩
        rcases hbefore with rfl | ⟨before, -, -, rfl, -⟩
        · rfl
        · -- the first argument is another one
          obtain ⟨held, _, more, _, rfl, -⟩ := Derives.rule_iff.mp hitems
          rw [List.getElem?_cons_succ] at hchild
          have hmore : Tree.node .argument start inside ∈ more ++ last :=
            List.mem_append_left _ (List.mem_of_getElem? hchild)
          have htwo := (((List.singleton_sublist.mpr hmore).cons_cons
            (.node .argument (startOf ahead) held)).cons (.terminal paren)).filter
              (·.is .argument)
          exact absurd (htwo.length_le.trans hone) (by simp [Tree.is, Tree.rule?])
      · exact absurd (hleaves _ (List.mem_of_getElem? hchild)) (by simp [Tree.isLeaf])

theorem elders_of_value (h : Derives [Symbol.value] ahead children rest)
    (hchild : children[index]? = some (.node inner start inside)) : index = 0 := by
  obtain ⟨symbol, hsymbol, chosen⟩ := Derives.anyOf_iff.mp h
  simp only [List.mem_cons, List.not_mem_nil, or_false] at hsymbol
  rcases hsymbol with rfl | rfl | rfl | rfl
  all_goals
    obtain ⟨_, _, _, _, rfl, hdone⟩ := Derives.rule_iff.mp chosen
    obtain ⟨rfl, -⟩ := Derives.nil_iff.mp hdone
    cases index with
    | zero => rfl
    | succ index => contradiction

-- The children of a derived node that are nodes, each with what stands before it.
theorem precedes_of_isPart {part : Part} {first : Nat}
    (h : IsPart part (.node rule start children))
    (hchild : children[index]? = some (.node inner first inside)) :
    Precedes (.node rule start children) (Tree.tokensOf (children.take index))
      (.node inner first inside) := by
  obtain ⟨ahead, rest, hderived⟩ := h.derives
  obtain ⟨named, hnamed, hself⟩ := hderived.part_of_mem (List.mem_of_getElem? hchild)
  have hpart : holdsPart rule (.rule inner) := by
    cases hself
    exact List.contains_iff_mem.mpr hnamed
  have hitem : ∀ {item}, production rule = commaSeparated (.rule item) →
      Precedes (.node rule start children) (Tree.tokensOf (children.take index))
        (.node inner first inside) := by
    intro item hlist
    rw [hlist] at hderived
    obtain ⟨rfl, rfl | ⟨before, comma, hcomma, rfl, hbefore⟩⟩ := elders_of_items hderived hchild
    · exact .item hlist .first
    · obtain ⟨own, hclosed⟩ := closed_elders h (by rintro rfl; cases hlist)
        (by rintro rfl; cases hlist) before
      rw [List.take_add_one, hbefore, Tree.tokensOf_append]
      exact .item hlist (.later hclosed hcomma)
  cases rule with
  | mongoCommands | commands | command =>
    obtain ⟨own, hclosed⟩ := closed_elders h (by simp) (by simp) index
    exact .outside rfl hpart hclosed
  | emptyCommand | collection | propertyName | literal =>
    exact absurd hpart (by cases inner <;> decide)
  | functionCall =>
    obtain ⟨name, _, _, hname, rfl, rfl, hcall⟩ := Derives.token_iff.mp hderived
    obtain ⟨_, _, _, -, rfl, hdone⟩ := Derives.rule_iff.mp hcall
    obtain ⟨rfl, -⟩ := Derives.nil_iff.mp hdone
    match index with
    | 0 => cases Option.some.inj hchild
    | 1 =>
      cases Option.some.inj hchild
      exact .arguments hname
    | index + 2 => contradiction
  | arguments =>
    obtain ⟨rfl, hone⟩ := elders_of_arguments hderived hchild
    obtain ⟨own, hclosed⟩ := closed_elders h (by simp) (by simp) index
    exact .argument hclosed hone
  | argument =>
    obtain rfl := elders_of_value hderived hchild
    exact .value (.inl rfl) hpart
  | propertyValue =>
    obtain rfl := elders_of_value hderived hchild
    exact .value (.inr rfl) hpart
  | objectLiteral =>
    obtain ⟨rfl, brace, hbrace, helders⟩ := elders_of_bracketed hderived hchild
    rw [helders]
    exact .properties hbrace
  | arrayLiteral =>
    obtain ⟨rfl, bracket, hbracket, helders⟩ := elders_of_bracketed hderived hchild
    rw [helders]
    exact .elements hbracket
  | propertyNameAndValueList | elementList => exact hitem rfl
  | propertyAssignment =>
    obtain ⟨_, _, _, hname, rfl, hbehind⟩ := Derives.rule_iff.mp hderived
    obtain ⟨name, hkind, rfl, rfl⟩ := derives_propertyName hname
    obtain ⟨colon, _, _, hcolon, rfl, rfl, hvalue⟩ := Derives.token_iff.mp hbehind
    obtain ⟨_, _, _, -, rfl, hdone⟩ := Derives.rule_iff.mp hvalue
    obtain ⟨rfl, -⟩ := Derives.nil_iff.mp hdone
    match index with
    | 0 =>
      cases Option.some.inj hchild
      exact .name
    | 1 => cases Option.some.inj hchild
    | 2 =>
      cases Option.some.inj hchild
      refine .named ?_ hcolon
      cases hself : name.kind <;> simp [hself, nameStart] at hkind <;> rfl
    | index + 3 => contradiction

end Elders

end QueryPad.Completion
