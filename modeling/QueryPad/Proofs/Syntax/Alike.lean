import QueryPad.Proofs.Syntax.Lossless
import QueryPad.Proofs.Syntax.Simulation

-- A semicolon ends whatever stands open before it: what is read up to it does
-- not depend on the text behind it, and that text is read as if it stood alone.
namespace QueryPad.Syntax

-- Two inputs that are the same up to a semicolon.
inductive Alike (semicolon : Token) (after after' : List Token) : Input → Input → Prop where
  | intro (before : List Token) (recovering : Bool) (hsemicolon : semicolon.kind = .semicolon)
      (hbefore : ∀ token ∈ before, token.kind ≠ .endOfText) :
      Alike semicolon after after' ⟨before ++ semicolon :: after, recovering⟩
        ⟨before ++ semicolon :: after', recovering⟩

-- Two readings that saw nothing of what stands behind the semicolon.
structure Same (semicolon : Token) (after after' : List Token) {inp inp' : Input}
    (parsed : Parsed inp) (parsed' : Parsed inp') : Prop where
  trees : parsed.trees = parsed'.trees
  reports : parsed.reports = parsed'.reports
  rest : Alike semicolon after after' parsed.rest parsed'.rest

variable {semicolon : Token} {after after' : List Token} {inp inp' : Input}

namespace Alike

variable (h : Alike semicolon after after' inp inp')

include h

theorem current_eq : inp.current = inp'.current := by
  obtain ⟨before, recovering, _, _⟩ := h
  cases before <;> rfl

theorem recovering_eq : inp.recovering = inp'.recovering := by
  obtain ⟨before, recovering, _, _⟩ := h
  rfl

theorem complaint_eq (fault : SyntaxFault) : inp.complaint fault = inp'.complaint fault := by
  have hcurrent := h.current_eq
  obtain ⟨before, recovering, _, _⟩ := h
  simp only [Input.complaint, hcurrent]

theorem recover :
    Alike semicolon after after' { inp with recovering := true }
      { inp' with recovering := true } := by
  obtain ⟨before, recovering, hsemicolon, hbefore⟩ := h
  exact .intro before true hsemicolon hbefore

end Alike

namespace Same

theorem nothing (h : Alike semicolon after after' inp inp') :
    Same semicolon after after' (.nothing inp) (.nothing inp') := ⟨rfl, rfl, h⟩

theorem report (h : Alike semicolon after after' inp inp') (fault : Token → SyntaxFault) :
    Same semicolon after after' (.report inp (fault inp.current))
      (.report inp' (fault inp'.current)) := by
  refine ⟨rfl, ?_, h.recover⟩
  rw [← h.current_eq]
  exact h.complaint_eq _

theorem append {parsed : Parsed inp} {parsed' : Parsed inp'} {next : Parsed parsed.rest}
    {next' : Parsed parsed'.rest} (head : Same semicolon after after' parsed parsed')
    (tail : Same semicolon after after' next next') :
    Same semicolon after after' (parsed.append next) (parsed'.append next') where
  trees := by simp [head.trees, tail.trees]
  reports := by simp [head.reports, tail.reports]
  rest := tail.rest

theorem underNode {parsed : Parsed inp} {parsed' : Parsed inp'} {rule : Rule}
    (h : Alike semicolon after after' inp inp')
    (body : Same semicolon after after' parsed parsed') :
    Same semicolon after after' (parsed.underNode rule) (parsed'.underNode rule) where
  trees := by simp [h.current_eq, body.trees]
  reports := body.reports
  rest := body.rest

end Same

-- Two readings with the same outcome, which may have taken the semicolon. What
-- they leave then is all that stands behind it.
structure Through (semicolon : Token) (after after' : List Token) {inp inp' : Input}
    (parsed : Parsed inp) (parsed' : Parsed inp') : Prop where
  trees : parsed.trees = parsed'.trees
  reports : parsed.reports = parsed'.reports
  rest : Alike semicolon after after' parsed.rest parsed'.rest ∨
    parsed.rest = ⟨after, false⟩ ∧ parsed'.rest = ⟨after', false⟩

namespace Through

theorem append {parsed : Parsed inp} {parsed' : Parsed inp'} {next : Parsed parsed.rest}
    {next' : Parsed parsed'.rest} (head : Same semicolon after after' parsed parsed')
    (tail : Through semicolon after after' next next') :
    Through semicolon after after' (parsed.append next) (parsed'.append next') where
  trees := by simp [head.trees, tail.trees]
  reports := by simp [head.reports, tail.reports]
  rest := tail.rest

theorem underNode {parsed : Parsed inp} {parsed' : Parsed inp'} {rule : Rule}
    (h : Alike semicolon after after' inp inp')
    (body : Through semicolon after after' parsed parsed') :
    Through semicolon after after' (parsed.underNode rule) (parsed'.underNode rule) where
  trees := by simp [h.current_eq, body.trees]
  reports := body.reports
  rest := body.rest

end Through

theorem Same.through {parsed : Parsed inp} {parsed' : Parsed inp'}
    (h : Same semicolon after after' parsed parsed') :
    Through semicolon after after' parsed parsed' := ⟨h.trees, h.reports, .inl h.rest⟩

-- The next token is the same in both, and nobody sees behind it unless it is
-- a semicolon.
inductive Alike.Next (semicolon : Token) (after after' : List Token) (inp inp' : Input) : Prop
  where
  | intro {taken : Taken inp} {taken' : Taken inp'} (h : Taken.next? inp = some taken)
      (h' : Taken.next? inp' = some taken') (htoken : taken.token = taken'.token)
      (hend : taken.token.kind ≠ .endOfText)
      (hthrough : Through semicolon after after' taken.parsed taken'.parsed)
      (hsame : taken.token.kind ≠ .semicolon →
        Same semicolon after after' taken.parsed taken'.parsed)

theorem Alike.next (h : Alike semicolon after after' inp inp') :
    Alike.Next semicolon after after' inp inp' := by
  obtain ⟨before, recovering, hsemicolon, hbefore⟩ := h
  cases before with
  | nil =>
    refine .intro rfl rfl rfl ?_ ⟨rfl, rfl, .inr ⟨rfl, rfl⟩⟩ (absurd hsemicolon)
    simp [hsemicolon]
  | cons token before =>
    have hsame : Same semicolon after after'
        (Taken.front token (before ++ semicolon :: after) recovering).parsed
        (Taken.front token (before ++ semicolon :: after') recovering).parsed :=
      ⟨rfl, rfl, .intro before false hsemicolon fun t ht => hbefore t (by simp [ht])⟩
    exact .intro rfl rfl rfl (hbefore token (by simp)) hsame.through fun _ => hsame

private theorem takeWhile_append_of_stop {α : Type} {p : α → Bool} {x : α} (h : p x = false)
    (before after : List α) : (before ++ x :: after).takeWhile p = before.takeWhile p := by
  induction before with
  | nil => simp [h]
  | cons y before ih => by_cases hy : p y <;> simp [hy, ih]

private theorem dropWhile_append_of_stop {α : Type} {p : α → Bool} {x : α} (h : p x = false)
    (before after : List α) :
    (before ++ x :: after).dropWhile p = before.dropWhile p ++ x :: after := by
  induction before with
  | nil => simp [h]
  | cons y before ih => by_cases hy : p y <;> simp [hy, ih]

section Steps

variable (h : Alike semicolon after after' inp inp')

include h

theorem Alike.skipUntil {stops : TokenKind → Bool} (hstops : stops .semicolon) :
    Same semicolon after after' (.skipUntil inp stops) (.skipUntil inp' stops) := by
  obtain ⟨before, recovering, hsemicolon, hbefore⟩ := h
  let p : Token → Bool := fun token => !(token.kind = .endOfText || stops token.kind)
  have hstop : p semicolon = false := by simp [p, hsemicolon, hstops]
  refine ⟨?_, rfl, ?_⟩
  · change ((before ++ semicolon :: after).takeWhile p).map Tree.error =
      ((before ++ semicolon :: after').takeWhile p).map Tree.error
    rw [takeWhile_append_of_stop hstop, takeWhile_append_of_stop hstop]
  · change Alike semicolon after after' ⟨(before ++ semicolon :: after).dropWhile p, recovering⟩
      ⟨(before ++ semicolon :: after').dropWhile p, recovering⟩
    rw [dropWhile_append_of_stop hstop, dropWhile_append_of_stop hstop]
    exact .intro _ recovering hsemicolon fun token htoken =>
      hbefore token ((List.dropWhile_sublist _).subset htoken)

omit h in
theorem dottedParts_before (hsemicolon : semicolon.kind = .semicolon) (before : List Token) :
    ∃ parts before', before' <:+ before ∧ ∀ after,
      dottedParts (before ++ semicolon :: after) = (parts, before' ++ semicolon :: after) := by
  induction before using dottedParts.induct with
  | case1 dot part behind rest hkinds _ _ _ ih =>
    obtain ⟨parts, before', hsuffix, hparts⟩ := ih
    refine ⟨dot :: part :: parts, before', ?_, fun after => ?_⟩
    · exact hsuffix.trans (List.suffix_append [dot, part] _)
    · have hbehind := hparts after
      rw [List.cons_append] at hbehind
      simp [dottedParts, hkinds, hbehind]
  | case2 dot part behind rest hkinds =>
    refine ⟨[], _, List.suffix_refl _, fun after => ?_⟩
    simp [dottedParts, hkinds]
  | case3 tokens hshort =>
    refine ⟨[], tokens, List.suffix_refl _, fun after => ?_⟩
    rcases tokens with _ | ⟨dot, _ | ⟨part, _ | ⟨behind, rest⟩⟩⟩
    · rcases after with _ | ⟨part, _ | ⟨behind, after⟩⟩ <;> simp [dottedParts, hsemicolon]
    · cases after <;> simp [dottedParts, hsemicolon]
    · simp [dottedParts, hsemicolon]
    · exact absurd rfl (hshort dot part behind rest)

theorem Alike.dotted : Same semicolon after after' (dotted inp) (Syntax.dotted inp') := by
  obtain ⟨before, recovering, hsemicolon, hbefore⟩ := h
  obtain ⟨parts, before', hsuffix, hparts⟩ := dottedParts_before hsemicolon before
  refine ⟨?_, rfl, ?_⟩
  · simp only [Syntax.dotted, hparts]
  · simp only [Syntax.dotted, hparts]
    exact .intro before' recovering hsemicolon fun token htoken =>
      hbefore token (hsuffix.subset htoken)

end Steps

-- No value, call or member reads on behind the semicolon.
theorem Alike.simulation (semicolon : Token) (after after' : List Token) :
    Simulation (Alike semicolon after after') (Same semicolon after after') where
  kinds h := by
    obtain ⟨hnext, hnext', htoken, _, _, _⟩ := h.next
    rw [hnext, hnext', Option.map_some, Option.map_some, htoken]
  recovering h := h.recovering_eq
  rest h := h.rest
  calls h := by rw [h.trees]
  nothing h := .nothing h
  mismatched expected h := .report h (.mismatched · expected)
  missing kind h := .report h (.missing kind)
  append head tail := head.append tail
  underNode _ h body := .underNode h body
  taken h hnext hnext' hkind := by
    obtain ⟨hfound, hfound', _, _, _, hsame⟩ := h.next
    obtain rfl := Option.some.inj (hnext.symm.trans hfound)
    obtain rfl := Option.some.inj (hnext'.symm.trans hfound')
    exact hsame hkind
  skipTo _ h := h.skipUntil (by simp [sync])
  dotted h := h.dotted

end QueryPad.Syntax
