import QueryPad.Proofs.Syntax.Acceptance
import QueryPad.Proofs.Token.Neighbours

-- In a text that the grammar derives, every token stays apart from the next one
-- even if nothing is between them.
namespace QueryPad.Syntax

-- The kinds of the tokens that can be the first of what a rule derives.
def firstOf : Rule → List TokenKind
  | .mongoCommands => [.db, .semicolon, .endOfText]
  | .commands => [.db, .semicolon]
  | .command => [.db]
  | .emptyCommand => [.semicolon]
  | .collection | .functionCall => [.identifier]
  | .arguments => [.openParen]
  | .objectLiteral => [.openBrace]
  | .arrayLiteral => [.openBracket]
  | .propertyNameAndValueList | .propertyAssignment | .propertyName => nameStart
  | .argument | .propertyValue | .elementList => valueStart
  | .literal => [.null, .boolean, .string, .number, .regex]

def lastOf : Rule → List TokenKind
  | .mongoCommands => [.endOfText]
  | .commands | .command => [.closeParen, .semicolon]
  | .emptyCommand => [.semicolon]
  | .collection => [.identifier]
  | .functionCall | .arguments => [.closeParen]
  | .objectLiteral => [.closeBrace]
  | .arrayLiteral => [.closeBracket]
  | .propertyName => nameStart
  | .propertyNameAndValueList | .propertyAssignment | .argument | .propertyValue | .elementList =>
    [.closeBrace, .closeBracket, .closeParen, .string, .number, .boolean, .null, .regex]
  | .literal => [.null, .boolean, .string, .number, .regex]

def mayBeEmpty (rule : Rule) : Bool := rule = .commands

namespace Symbol

def lasts : Symbol → List TokenKind
  | .token kind => [kind]
  | .rule inner => lastOf inner
  | _ => []

def lastsOf (form : List Symbol) : List TokenKind :=
  match form.getLast? with
  | some (.anyOf symbols) => symbols.flatMap lasts
  | some symbol => symbol.lasts
  | none => []

mutual

-- Whether all that a symbol derives can stand behind a token of a kind, each
-- token apart from the next, and ends with a token that is welcome.
def keeps (welcome : TokenKind → Bool) (before : TokenKind) : Symbol → Bool
  | .token kind => before.apart kind && welcome kind
  | .rule inner =>
    (firstOf inner).all before.apart && (lastOf inner).all welcome &&
      (!mayBeEmpty inner || welcome before)
  | .anyOf symbols => eachKeeps welcome before symbols
  | .optional form => welcome before && formKeeps welcome before form
  | .many form =>
    (before :: lastsOf form).all fun kind =>
      welcome kind && formKeeps (lastsOf form).contains kind form

def eachKeeps (welcome : TokenKind → Bool) (before : TokenKind) : List Symbol → Bool
  | [] => true
  | symbol :: symbols => keeps welcome before symbol && eachKeeps welcome before symbols

def formKeeps (welcome : TokenKind → Bool) (before : TokenKind) : List Symbol → Bool
  | [] => welcome before
  | symbol :: form => keeps (fun kind => formKeeps welcome kind form) before symbol

end

end Symbol

theorem production_keeps : ∀ rule before, (firstOf rule).all before.apart →
    Symbol.formKeeps (fun kind => (lastOf rule).contains kind || mayBeEmpty rule && kind = before)
      before (production rule) := by
  intro rule before
  cases rule <;> cases before <;> decide +kernel

-- Kinds of tokens one behind the other, each apart from the next, and the last of them.
def Leads : TokenKind → List TokenKind → TokenKind → Prop
  | before, [], last => before = last
  | before, kind :: kinds, last => before.apart kind ∧ Leads kind kinds last

namespace Leads

variable {before mid last : TokenKind} {kinds more : List TokenKind}

theorem append (h : Leads before kinds mid) (hmore : Leads mid more last) :
    Leads before (kinds ++ more) last := by
  induction kinds generalizing before with
  | nil =>
    obtain rfl : before = mid := h
    exact hmore
  | cons kind kinds ih => exact ⟨h.1, ih h.2⟩

theorem isChain (h : Leads before kinds last) :
    (before :: kinds).IsChain fun a b => a.apart b := by
  induction kinds generalizing before with
  | nil => exact .singleton _
  | cons kind kinds ih => exact .cons_cons h.1 (ih h.2)

end Leads

namespace Symbol

variable {welcome other : TokenKind → Bool} {before : TokenKind} {a b form symbols : List Symbol}
  {symbol : Symbol}

theorem formKeeps_append : formKeeps welcome before (a ++ b) =
    formKeeps (fun kind => formKeeps welcome kind b) before a := by
  induction a generalizing before with
  | nil => rfl
  | cons symbol a ih =>
    simp only [List.cons_append, formKeeps, ih]

theorem keeps_of_each (h : eachKeeps welcome before symbols) (hsymbol : symbol ∈ symbols) :
    keeps welcome before symbol := by
  induction symbols with
  | nil => contradiction
  | cons first symbols ih =>
    obtain ⟨hfirst, hothers⟩ := Bool.and_eq_true_iff.mp h
    rcases List.mem_cons.mp hsymbol with rfl | hmem
    · exact hfirst
    · exact ih hothers hmem

mutual

theorem keeps_mono {welcome other : TokenKind → Bool} (hle : ∀ kind, welcome kind → other kind)
    {before : TokenKind} {symbol : Symbol} (h : keeps welcome before symbol) :
    keeps other before symbol := by
  cases symbol with
  | token kind =>
    obtain ⟨happart, hkind⟩ := Bool.and_eq_true_iff.mp h
    exact Bool.and_eq_true_iff.mpr ⟨happart, hle kind hkind⟩
  | rule inner =>
    simp only [keeps, Bool.and_eq_true, Bool.or_eq_true, List.all_eq_true] at h ⊢
    obtain ⟨⟨hfirst, hlast⟩, hempty⟩ := h
    exact ⟨⟨hfirst, fun kind hkind => hle kind (hlast kind hkind)⟩, hempty.imp_right (hle before)⟩
  | anyOf symbols => exact eachKeeps_mono hle h
  | optional form =>
    obtain ⟨habsent, hpresent⟩ := Bool.and_eq_true_iff.mp h
    exact Bool.and_eq_true_iff.mpr ⟨hle before habsent, formKeeps_mono hle hpresent⟩
  | many form =>
    simp only [keeps, List.all_eq_true, Bool.and_eq_true] at h ⊢
    exact fun kind hkind => ⟨hle kind (h kind hkind).1, (h kind hkind).2⟩

theorem eachKeeps_mono {welcome other : TokenKind → Bool} (hle : ∀ kind, welcome kind → other kind)
    {before : TokenKind} {symbols : List Symbol} (h : eachKeeps welcome before symbols) :
    eachKeeps other before symbols := by
  cases symbols with
  | nil => rfl
  | cons symbol symbols =>
    obtain ⟨hfirst, hothers⟩ := Bool.and_eq_true_iff.mp h
    exact Bool.and_eq_true_iff.mpr ⟨keeps_mono hle hfirst, eachKeeps_mono hle hothers⟩

theorem formKeeps_mono {welcome other : TokenKind → Bool} (hle : ∀ kind, welcome kind → other kind)
    {before : TokenKind} {form : List Symbol} (h : formKeeps welcome before form) :
    formKeeps other before form := by
  cases form with
  | nil => exact hle before h
  | cons symbol form => exact keeps_mono (fun _ hkind => formKeeps_mono hle hkind) h

end

-- What is read once more leaves a repetition as it was.
theorem formKeeps_again (h : keeps welcome before (.many form)) :
    welcome before ∧ formKeeps (fun kind => keeps welcome kind (.many form)) before form := by
  simp only [keeps, List.all_eq_true, Bool.and_eq_true] at h
  obtain ⟨hstop, hform⟩ := h before (by simp)
  refine ⟨hstop, formKeeps_mono (fun kind hkind => ?_) hform⟩
  simp only [keeps, List.all_eq_true, Bool.and_eq_true]
  intro last hlast
  refine h last (List.mem_cons_of_mem _ ?_)
  rcases List.mem_cons.mp hlast with rfl | hmem
  · exact List.contains_iff_mem.mp hkind
  · exact hmem

end Symbol

theorem Derives.leads {form : List Symbol} {ahead rest : List Token} {trees : List Tree}
    (h : Derives form ahead trees rest) {welcome : TokenKind → Bool} {before : TokenKind}
    (hkeeps : Symbol.formKeeps welcome before form) :
    ∃ last, Leads before ((Tree.tokensOf trees).map Token.kind) last ∧ welcome last := by
  induction h generalizing welcome before with
  | done => exact ⟨before, rfl, hkeeps⟩
  | token found tail ih =>
    obtain ⟨happart, hmore⟩ := Bool.and_eq_true_iff.mp hkeeps
    obtain ⟨last, hleads, hlast⟩ := ih hmore
    exact ⟨last, ⟨found ▸ happart, found ▸ hleads⟩, hlast⟩
  | @rule rule more _ _ _ _ _ body tail ihbody ihtail =>
    simp only [Symbol.formKeeps, Symbol.keeps, Bool.and_eq_true, Bool.or_eq_true] at hkeeps
    obtain ⟨⟨hfirst, hwelcome⟩, hempty⟩ := hkeeps
    obtain ⟨mid, hbody, hmid⟩ := ihbody (production_keeps rule before hfirst)
    have hmore : Symbol.formKeeps welcome mid more := by
      simp only [Bool.or_eq_true, Bool.and_eq_true, decide_eq_true_eq] at hmid
      rcases hmid with hlast | ⟨hnone, rfl⟩
      · exact List.all_eq_true.mp hwelcome mid (List.contains_iff_mem.mp hlast)
      · exact hempty.resolve_left (by simp [hnone])
    obtain ⟨last, htail, hlast⟩ := ihtail hmore
    refine ⟨last, ?_, hlast⟩
    rw [Tree.tokensOf, Tree.tokens, List.map_append]
    exact hbody.append htail
  | anyOf choice chosen ih =>
    exact ih (Symbol.keeps_of_each hkeeps choice)
  | absent tail ih => exact ih (Bool.and_eq_true_iff.mp hkeeps).1
  | present unfolded ih =>
    refine ih ?_
    rw [Symbol.formKeeps_append]
    exact (Bool.and_eq_true_iff.mp hkeeps).2
  | stop tail ih => exact ih (Symbol.formKeeps_again hkeeps).1
  | again unfolded ih =>
    refine ih ?_
    rw [Symbol.formKeeps_append]
    exact (Symbol.formKeeps_again hkeeps).2

-- Neighbours in what the grammar derives stay two tokens when they are put together.
theorem Derives.apart {tokens : List Token} {tree : Tree}
    (h : Derives [.rule .mongoCommands] tokens [tree] []) :
    tokens.IsChain fun before after => before.kind.apart after.kind := by
  have hkeeps : Symbol.formKeeps (fun _ => true) .semicolon [.rule .mongoCommands] := by decide
  obtain ⟨last, hleads, _⟩ := h.leads hkeeps
  have htokens : Tree.tokensOf [tree] = tokens := by simpa using h.tokens
  rw [htokens] at hleads
  exact List.isChain_of_isChain_map _ (fun _ _ h => h) hleads.isChain.tail

end QueryPad.Syntax
