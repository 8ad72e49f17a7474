import QueryPad.Proofs.Syntax.Steps
import QueryPad.Syntax.Descent

-- The tasks of a rule read what the rule reads, and nothing below them on the
-- list is touched meanwhile.
namespace QueryPad

namespace Tree

theorem eventsOf_append (first : Nat) (trees more : List Tree) :
    eventsOf first (trees ++ more) =
      eventsOf first trees ++ eventsOf (first + (tokensOf trees).length) more := by
  induction trees generalizing first with
  | nil => simp [eventsOf, tokensOf]
  | cons tree trees ih =>
    rw [List.cons_append, eventsOf, eventsOf, tokensOf, ih, List.append_assoc, List.length_append,
      Nat.add_assoc]

end Tree

namespace Syntax

variable {inp : Input}

namespace Reader

-- The reader behind what was read from its input.
def after (r : Reader) (parsed : Parsed inp) : Reader :=
  ⟨parsed.rest, r.pos + (Tree.tokensOf parsed.trees).length,
    r.events ++ Tree.eventsOf r.pos parsed.trees, r.reports ++ parsed.reports⟩

variable {r : Reader}

@[simp] theorem inp_enter (r : Reader) (rule : Rule) : (r.enter rule).inp = r.inp := rfl

@[simp] theorem after_inp (r : Reader) (parsed : Parsed inp) :
    (r.after parsed).inp = parsed.rest := rfl

@[simp] theorem after_nothing (r : Reader) : r.after (.nothing r.inp) = r := by
  simp [after, Parsed.nothing, Tree.tokensOf, Tree.eventsOf]

theorem after_append (r : Reader) (parsed : Parsed inp) (next : Parsed parsed.rest) :
    r.after (parsed.append next) = (r.after parsed).after next := by
  simp [after, Tree.eventsOf_append, Nat.add_assoc]

theorem after_andThen (r : Reader) (taken : Taken inp)
    (next : (mid : Input) → mid.size < inp.size → Parsed mid) :
    r.after (taken.andThen next) =
      (r.after taken.parsed).after (next taken.rest taken.size_lt) := by
  rw [Taken.andThen_eq_append]
  exact after_append r taken.parsed (next taken.rest taken.size_lt)

theorem after_report (r : Reader) (fault : SyntaxFault) :
    r.after (.report r.inp fault) = r.report fault := by
  simp [after, Parsed.report, report, Tree.tokensOf, Tree.eventsOf]

theorem after_underNode (r : Reader) (rule : Rule) (parsed : Parsed inp) :
    r.after (parsed.underNode rule) = ((r.enter rule).after parsed).leave := by
  simp [after, enter, leave, Tree.tokensOf, Tree.tokens, Tree.eventsOf, Tree.eventsFrom]

theorem bump_eq {taken : Taken inp} (hr : r.inp = inp) (h : Taken.next? inp = some taken)
    (hend : taken.token.kind ≠ .endOfText) : r.bump = r.after taken.parsed := by
  obtain ⟨⟨ahead, recovering⟩, pos, events, reports⟩ := r
  subst hr
  cases ahead with
  | nil => contradiction
  | cons token ahead =>
    obtain rfl := Option.some.inj h
    have hat : Input.isAt ⟨token :: ahead, recovering⟩ .endOfText = false := decide_eq_false hend
    simp [bump, hat, after, Taken.parsed, Taken.andThen, Parsed.nothing, Tree.tokensOf,
      Tree.tokens, Tree.eventsOf, Tree.eventsFrom]

-- A token is left behind, unless the end of the text is reached.
theorem ahead_of_not_end (h : r.inp.isAt .endOfText = false) :
    r.inp.ahead.tail.length + 1 = r.inp.size := by
  obtain ⟨⟨ahead, recovering⟩, pos, events, reports⟩ := r
  cases ahead with
  | nil => contradiction
  | cons token ahead => rfl

theorem size_bump (h : r.inp.isAt .endOfText = false) : r.bump.inp.size + 1 = r.inp.size := by
  rw [bump, h]
  exact ahead_of_not_end h

theorem size_bump_le (r : Reader) : r.bump.inp.size ≤ r.inp.size := by
  cases h : r.inp.isAt .endOfText with
  | true => simp [bump, h, Input.size]
  | false => exact Nat.le_of_lt (size_bump h ▸ Nat.lt_succ_self _)

theorem size_spoil (h : r.inp.isAt .endOfText = false) : r.spoil.inp.size + 1 = r.inp.size := by
  rw [spoil, h]
  exact ahead_of_not_end h

end Reader

open Descent

theorem Descent.run?_add (turns more : Nat) (d : Descent) :
    run? (turns + more) d = (run? turns d).bind (run? more) := by
  induction turns generalizing d with
  | zero => rw [Nat.zero_add]; rfl
  | succ turns ih =>
    rw [Nat.add_right_comm, run?, run?]
    cases d.next? with
    | none => rfl
    | some next => exact ih next

-- Some tasks, done one after another, take the reader from one place to another.
def Completes (tasks : List Task) (r r' : Reader) : Prop :=
  ∀ below, ∃ turns, run? turns ⟨r, tasks ++ below⟩ = some ⟨r', below⟩

namespace Completes

variable {task : Task} {tasks more : List Task} {r mid r' : Reader}

theorem nil (r : Reader) : Completes [] r r := fun _ => ⟨0, rfl⟩

theorem append (h : Completes tasks r mid) (hmore : Completes more mid r') :
    Completes (tasks ++ more) r r' := by
  intro below
  obtain ⟨turns, hturns⟩ := h (more ++ below)
  obtain ⟨others, hothers⟩ := hmore below
  refine ⟨turns + others, ?_⟩
  rw [List.append_assoc, run?_add, hturns]
  exact hothers

theorem cons (h : Completes [task] r mid) (htasks : Completes tasks mid r') :
    Completes (task :: tasks) r r' :=
  h.append htasks

theorem turn (hturn : task.turn r = (tasks, mid)) (h : Completes tasks mid r') :
    Completes [task] r r' := by
  intro below
  obtain ⟨turns, hturns⟩ := h below
  refine ⟨turns + 1, ?_⟩
  simpa [run?, next?, hturn] using hturns

theorem at_once (hturn : task.turn r = ([], r')) : Completes [task] r r' := turn hturn (nil r')

theorem leave (r : Reader) : Completes [.leave] r r.leave := at_once rfl

-- A node is left when what stands in it is read.
theorem node {parsed : Parsed inp} {rule : Rule} (hturn : task.turn r = (tasks ++ [.leave], mid))
    (h : Completes tasks mid ((r.enter rule).after parsed)) :
    Completes [task] r (r.after (parsed.underNode rule)) := by
  rw [Reader.after_underNode]
  exact turn hturn (h.append (leave _))

end Completes

section Steps

variable {r : Reader} {kind : TokenKind}

theorem isAt_of_first? {taken : Taken inp} (h : Taken.first? inp (· = kind) = some taken) :
    inp.isAt kind := by
  obtain ⟨hnext, hkind⟩ := Taken.first?_eq_some_iff.mp h
  rw [Input.isAt, Taken.peek_eq hnext]
  exact hkind

theorem not_isAt_of_first? (hkind : kind ≠ .endOfText)
    (h : Taken.first? inp (· = kind) = none) : inp.isAt kind = false := by
  cases hat : inp.isAt kind with
  | false => rfl
  | true =>
    have hend : decide (TokenKind.endOfText = kind) = false := decide_eq_false hkind.symm
    have hsome : ∃ taken, Taken.first? inp (· = kind) = some taken :=
      Taken.exists_first? hat hend
    simp [h] at hsome

-- A token found by its kind is matched.
theorem bump_of_first? {taken : Taken r.inp} (hkind : kind ≠ .endOfText)
    (h : Taken.first? r.inp (· = kind) = some taken) : r.bump = r.after taken.parsed := by
  obtain ⟨hnext, htaken⟩ := Taken.first?_eq_some_iff.mp h
  exact Reader.bump_eq rfl hnext (of_decide_eq_true htaken ▸ hkind)

theorem after_optional (hkind : kind ≠ .endOfText) :
    r.after (.optional r.inp kind) = if r.inp.isAt kind then r.bump else r := by
  rw [Parsed.optional]
  split
  · next taken h => rw [if_pos (isAt_of_first? h), bump_of_first? hkind h]
  · next h => simp [not_isAt_of_first? hkind h]

theorem after_expect (hkind : kind ≠ .endOfText) :
    r.after (.expect r.inp kind) = if r.inp.isAt kind then r.bump else r.missing kind := by
  rw [Parsed.expect]
  split
  · next taken h => rw [if_pos (isAt_of_first? h), bump_of_first? hkind h]
  · next h => simp [not_isAt_of_first? hkind h, Reader.after_report, Reader.missing]

theorem completes_optional (hkind : kind ≠ .endOfText) :
    Completes [.optional kind] r (r.after (.optional r.inp kind)) := by
  rw [after_optional hkind]
  exact .at_once (by rw [Task.turn]; split <;> rfl)

theorem completes_expect (hkind : kind ≠ .endOfText) :
    Completes [.expect kind] r (r.after (.expect r.inp kind)) := by
  rw [after_expect hkind]
  exact .at_once (by rw [Task.turn]; split <;> rfl)

section Skipping

variable {stops : TokenKind → Bool}

theorem skipUntil_of_stop (h : inp.isAt .endOfText || stops inp.peek) :
    Parsed.skipUntil inp stops = .nothing inp := by
  obtain ⟨ahead, recovering⟩ := inp
  cases ahead with
  | nil => rfl
  | cons token ahead =>
    have hstop : (!(decide (token.kind = .endOfText) || stops token.kind)) = false :=
      congrArg not h
    simp only [Parsed.skipUntil, Parsed.nothing, List.takeWhile_cons, List.dropWhile_cons, hstop,
      Bool.false_eq_true, if_false, List.map_nil]

theorem after_skipUntil (h : ¬ (r.inp.isAt .endOfText || stops r.inp.peek)) :
    r.after (.skipUntil r.inp stops) = r.spoil.after (.skipUntil r.spoil.inp stops) := by
  obtain ⟨⟨ahead, recovering⟩, pos, events, reports⟩ := r
  cases ahead with
  | nil => exact absurd rfl h
  | cons token ahead =>
    have hgo : (decide (token.kind = .endOfText) || stops token.kind) = false :=
      eq_false_of_ne_true h
    have hend : Input.isAt ⟨token :: ahead, recovering⟩ .endOfText = false :=
      (Bool.or_eq_false_iff.mp hgo).1
    simp only [Reader.spoil, hend, Reader.after, Parsed.skipUntil, List.takeWhile_cons,
      List.dropWhile_cons, hgo, Bool.not_false, if_true, List.map_cons, Tree.tokensOf, Tree.tokens,
      Tree.eventsOf, Tree.eventsFrom]
    simp [Nat.add_assoc, Nat.add_comm 1]

end Skipping

-- A loop that skips tokens keeps all it passes as error leaves.
theorem completes_skip (r : Reader) (kinds : List TokenKind) :
    Completes [.skip kinds] r (r.after (.skipUntil r.inp kinds.contains)) := by
  by_cases h : r.inp.isAt .endOfText || kinds.contains r.inp.peek
  · rw [skipUntil_of_stop h, Reader.after_nothing]
    exact .at_once (if_pos h)
  · have := Reader.size_spoil (Bool.or_eq_false_iff.mp (eq_false_of_ne_true h)).1
    rw [after_skipUntil h]
    exact .turn (if_neg h) (completes_skip r.spoil kinds)
termination_by r.inp.size

theorem completes_skipTo (r : Reader) (kind : TokenKind) :
    Completes [.skip (kind :: sync)] r (r.after (skipTo r.inp [kind])) := by
  have hkinds : (fun other => [kind].contains other || sync.contains other) =
      (kind :: sync).contains := by
    funext other
    simp
  rw [skipTo, hkinds]
  exact completes_skip r _

-- What follows a complaint.
theorem after_mismatched (r : Reader) (expected : List TokenKind)
    (next : (mid : Input) → mid.size ≤ r.inp.size → Parsed mid) :
    r.after ((Parsed.report r.inp (.mismatched r.inp.current expected)).andThen next) =
      (r.mismatched expected).after (next (r.mismatched expected).inp (Nat.le_refl _)) := by
  rw [Parsed.andThen, Reader.after_append, Reader.after_report]
  rfl

theorem completes_close {closing : TokenKind} {content : List TokenKind}
    (hclosing : closing ≠ .endOfText) :
    Completes [.close closing content] r (r.after (close r.inp closing content)) := by
  rw [close]
  split
  · next hat => exact .at_once (by rw [Task.turn, if_pos hat, after_expect hclosing, if_pos hat])
  · next hat =>
    split
    · next hend =>
      exact .at_once (by rw [Task.turn, if_neg hat, if_pos hend, Reader.after_report]; rfl)
    · next hgo =>
      rw [after_mismatched, Parsed.andThen, Reader.after_append]
      exact .turn (by rw [Task.turn, if_neg hat, if_neg hgo])
        ((completes_skipTo _ closing).cons (completes_expect hclosing))

section Items

variable {follows : TokenKind → Bool} {list : ItemList}

theorem isSome_commaBefore? (inp : Input) (follows : TokenKind → Bool) :
    (commaBefore? inp follows).isSome = (inp.isAt .comma && follows (inp.nth 1)) := by
  obtain ⟨ahead, recovering⟩ := inp
  cases ahead with
  | nil => rfl
  | cons token ahead =>
    by_cases hcomma : token.kind = .comma <;>
      simp [commaBefore?, hcomma, Input.isAt, Option.isSome_filter]

theorem bump_of_commaBefore? {comma : Taken r.inp} (h : commaBefore? r.inp follows = some comma) :
    r.bump = r.after comma.parsed := by
  obtain ⟨hnext, hkind, -⟩ := commaBefore?_eq_some_iff.mp h
  exact Reader.bump_eq rfl hnext (by simp [hkind])

variable {items : (mid : Input) → mid.size < r.inp.size → Parsed mid}

-- A turn of a list that finds its comma, and the items behind it.
theorem completes_comma {task : Task} {comma : Taken r.inp}
    (hcomma : commaBefore? r.inp list.follows = some comma)
    (hturn : task.turn r = ([.item list], r.bump))
    (hitems : ∀ (mid : Reader) (h : mid.inp.size < r.inp.size), list.follows mid.inp.peek →
      Completes [.item list] mid (mid.after (items mid.inp h))) :
    Completes [task] r (r.after (comma.andThen items)) := by
  rw [Reader.after_andThen]
  exact .turn (hturn.trans (by rw [bump_of_commaBefore? hcomma]))
    (hitems (r.after comma.parsed) comma.size_lt (commaBefore?_eq_some_iff.mp hcomma).2.2)

theorem completes_behindItem
    (hitems : ∀ (mid : Reader) (h : mid.inp.size < r.inp.size), list.follows mid.inp.peek →
      Completes [.item list] mid (mid.after (items mid.inp h))) :
    Completes [.behindItem list] r
      (r.after ((separator r.inp list.closing list.follows).andThen items)) := by
  have hfound := isSome_commaBefore? r.inp list.follows
  -- a comma is there at once, or behind junk, or the list is over
  cases h : commaBefore? r.inp list.follows with
  | some comma =>
    rw [separator_of_comma h]
    rw [h] at hfound
    exact completes_comma h (if_pos hfound.symm) hitems
  | none =>
    rw [h] at hfound
    have hnone : ¬ (r.inp.isAt .comma && list.follows (r.inp.nth 1)) := by simp [← hfound]
    by_cases hend : endsList r.inp
    · rw [separator_of_end h hend, Reader.after_nothing]
      exact .at_once (by rw [Task.turn, if_neg hnone]; exact if_pos hend)
    · have hturn : Task.turn r (.behindItem list) =
          ([.skip (.comma :: sync), .behindJunk list], r.mismatched [.comma, list.closing]) := by
        rw [Task.turn, if_neg hnone]
        exact if_neg hend
      have hjunk : Completes [.skip (.comma :: sync)] (r.mismatched [.comma, list.closing])
          (r.after (junkBefore r.inp list.closing)) := by
        rw [junkBefore, after_mismatched]
        exact completes_skipTo _ .comma
      have hagain := isSome_commaBefore? (junkBefore r.inp list.closing).rest list.follows
      rw [separator_of_junk h hend, Separator.andThen]
      refine .turn hturn (hjunk.cons ?_)
      split
      · next hcomma =>
        rw [show commaBefore? _ _ = none from hcomma] at hagain
        exact .at_once (if_neg (by simp [← hagain]))
      · next comma hcomma =>
        rw [show commaBefore? _ _ = some comma from hcomma] at hagain
        rw [Reader.after_append]
        exact completes_comma hcomma (if_pos hagain.symm) fun mid h => hitems mid _

end Items

end Steps

end Syntax

end QueryPad
