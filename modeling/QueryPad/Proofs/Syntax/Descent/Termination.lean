import QueryPad.Proofs.Syntax.Descent.Commands

-- Each turn of the descent is paid for, by the task that is done or by a token
-- that is read. So no loop goes round, and no rule calls itself, without a token.
namespace QueryPad.Syntax

namespace Task

-- How many turns a task takes at most before it needs a token.
@[simp] def cost : Task → Nat
  | pad => 5
  | members .. | behindItem _ | close .. => 3
  | member .. | value => 2
  | propertyValue => 4
  | item _ => 10
  | items _ => 12
  | _ => 1

-- How many nodes a task has open at most before it needs a token.
@[simp] def depth : Task → Nat
  | pad => 2
  | items _ => 3
  | item _ => 2
  | propertyValue | leave => 1
  | _ => 0

@[simp] def costs : List Task → Nat
  | [] => 0
  | task :: tasks => task.cost + costs tasks

@[simp] def depths : List Task → Nat
  | [] => 0
  | task :: tasks => task.depth + depths tasks

@[simp] theorem costs_append (tasks more : List Task) :
    costs (tasks ++ more) = costs tasks + costs more := by
  induction tasks with
  | nil => simp
  | cons task tasks ih => simp [ih, Nat.add_assoc]

@[simp] theorem depths_append (tasks more : List Task) :
    depths (tasks ++ more) = depths tasks + depths more := by
  induction tasks with
  | nil => simp
  | cons task tasks ih => simp [ih, Nat.add_assoc]

end Task

section Turns

variable {r : Reader} {task : Task} {next : List Task × Reader}

-- A turn is paid by its task, or by the tokens it takes.
def Pays (r : Reader) (task : Task) (next : List Task × Reader) : Prop :=
  Task.costs next.1 + 16 * next.2.inp.size < task.cost + 16 * r.inp.size ∧
    Task.depths next.1 + 4 * next.2.inp.size ≤ task.depth + 4 * r.inp.size

theorem Pays.spent (hsize : next.2.inp.size ≤ r.inp.size)
    (h : Task.costs next.1 < task.cost ∧ Task.depths next.1 ≤ task.depth) : Pays r task next := by
  rw [Pays]
  omega

theorem Pays.read (hsize : next.2.inp.size < r.inp.size)
    (h : Task.costs next.1 < task.cost + 16 ∧ Task.depths next.1 ≤ task.depth + 4) :
    Pays r task next := by
  rw [Pays]
  omega

theorem bump_lt {kind : TokenKind} (h : r.inp.isAt kind) (hkind : kind ≠ .endOfText) :
    r.bump.inp.size < r.inp.size := by
  have hend : r.inp.isAt .endOfText = false := decide_eq_false (of_decide_eq_true h ▸ hkind)
  have := Reader.size_bump hend
  omega

theorem spoil_lt (h : r.inp.isAt .endOfText = false) : r.spoil.inp.size < r.inp.size := by
  have := Reader.size_spoil h
  omega

theorem size_checkCalls (r : Reader) (called : Bool) :
    (r.checkCalls called).inp.size = r.inp.size := by
  rw [Reader.checkCalls]
  split <;> rfl

-- A comma with an item behind it is taken.
theorem pays_comma {list : ItemList} {follows : Bool} (h : r.inp.isAt .comma && follows) :
    Pays r task ([.item list], r.bump) :=
  .read (bump_lt (Bool.and_eq_true_iff.mp h).1 (by decide)) (by simp)

theorem pays_call (h : r.inp.isAt .identifier) (called : Bool) :
    Pays r task ((Task.call r).1 ++ [.members called false], (Task.call r).2) :=
  .read (bump_lt (r := r.enter .functionCall) h (by decide)) (by simp [Task.call])

theorem pays_value (r : Reader) : Pays r .value (Task.turn r .value) := by
  have hnode : ∀ {kind : TokenKind} (rule : Rule), r.inp.peek = kind → kind ≠ .endOfText →
      (r.enter rule).bump.inp.size < r.inp.size := fun rule hpeek hkind =>
    bump_lt (r := r.enter rule) (decide_eq_true hpeek) hkind
  rw [Task.turn]
  split
  · next hpeek => exact .read (hnode _ hpeek (by decide)) (by simp [Task.literal])
  · next hpeek => exact .read (hnode _ hpeek (by decide)) (by simp [Task.literal])
  · next hpeek => exact .read (hnode _ hpeek (by decide)) (by simp [Task.call])
  · split
    · next hliteral =>
      have hend : r.inp.peek ≠ .endOfText := by
        intro hend
        simp [hend, TokenKind.isLiteral] at hliteral
      exact .read (hnode _ rfl hend) (by simp)
    · split <;> exact .spent (Nat.le_refl _) (by simp)

theorem pays_turn (r : Reader) (task : Task) : Pays r task (task.turn r) := by
  cases task with
  | pad => exact .spent (Nat.le_refl _) (by simp [Task.turn])
  | padEnd => exact .spent r.size_bump_le (by simp [Task.turn])
  | commands =>
    rw [Task.turn]
    split
    · exact .spent (Nat.le_refl _) (by simp)
    · next hpeek =>
      exact .read (bump_lt (r := r.enter .command) (decide_eq_true hpeek) (by decide)) (by simp)
    · next hpeek =>
      exact .read (bump_lt (r := r.enter .emptyCommand) (decide_eq_true hpeek) (by decide))
        (by simp)
    · next hend _ _ =>
      exact .read (spoil_lt (r := r.mismatched commandStart) (decide_eq_false hend)) (by simp)
  | members called first =>
    rw [Task.turn]
    split
    · next hdot => exact .read (bump_lt hdot (by decide)) (by simp)
    · split <;> exact .spent (Nat.le_refl _) (by simp)
  | member called first =>
    rw [Task.turn]
    split
    · exact .spent (Nat.le_refl _) (by simp)
    · next hname =>
      have hat : r.inp.isAt .identifier := by simpa using hname
      split
      · exact .read (bump_lt (r := r.enter .collection) hat (by decide)) (by simp)
      · exact pays_call hat true
  | callCheck called => exact .spent (size_checkCalls r called).le (by simp [Task.turn])
  | dotted =>
    rw [Task.turn]
    split
    · next hpart =>
      have hdot : r.inp.isAt .dot := by simp_all
      exact .read (Nat.lt_of_le_of_lt r.bump.size_bump_le (bump_lt hdot (by decide))) (by simp)
    · exact .spent (Nat.le_refl _) (by simp)
  | arguments =>
    rw [Task.turn]
    split
    · next hparen => exact .read (bump_lt (r := r.enter .arguments) hparen (by decide)) (by simp)
    · exact .spent (Nat.le_refl _) (by simp)
  | items list =>
    cases list with
    | arguments | properties | elements =>
      rw [Task.turn]
      split <;> exact .spent (Nat.le_refl _) (by simp)
  | item list =>
    cases list with
    | arguments | elements => exact .spent (Nat.le_refl _) (by simp [Task.turn])
    | properties =>
      exact .spent (Reader.size_bump_le ((r.enter .propertyAssignment).enter .propertyName))
        (by simp [Task.turn])
  | behindItem list =>
    rw [Task.turn]
    split
    · next hcomma => exact pays_comma hcomma
    · split <;> exact .spent (Nat.le_refl _) (by simp)
  | behindJunk list =>
    rw [Task.turn]
    split
    · next hcomma => exact pays_comma hcomma
    · exact .spent (Nat.le_refl _) (by simp)
  | value => exact pays_value r
  | propertyValue => exact .spent (Nat.le_refl _) (by simp [Task.turn])
  | close closing content =>
    rw [Task.turn]
    split
    · exact .spent r.size_bump_le (by simp)
    · split <;> exact .spent (Nat.le_refl _) (by simp)
  | optional kind | expect kind =>
    rw [Task.turn]
    split
    · exact .spent r.size_bump_le (by simp)
    · exact .spent (Nat.le_refl _) (by simp)
  | skip kinds =>
    rw [Task.turn]
    split
    · exact .spent (Nat.le_refl _) (by simp)
    · next hgo =>
      exact .read (spoil_lt (Bool.or_eq_false_iff.mp (eq_false_of_ne_true hgo)).1) (by simp)
  | leave => exact .spent (Nat.le_refl _) (by simp [Task.turn])

end Turns

-- A rule under way waits for the end of its node.
def waiting (tasks : List Task) : Nat := tasks.count .leave

@[simp] theorem waiting_append (tasks more : List Task) :
    waiting (tasks ++ more) = waiting tasks + waiting more := List.count_append

theorem waiting_le_depths (tasks : List Task) : waiting tasks ≤ Task.depths tasks := by
  induction tasks with
  | nil => exact Nat.le_refl _
  | cons task tasks ih =>
    have hcount : waiting (task :: tasks) ≤ waiting tasks + task.depth := by
      rw [waiting, List.count_cons, waiting]
      split
      · next htask => simp [beq_iff_eq.mp htask]
      · omega
    rw [Task.depths]
    omega

section Level

def Reader.level (r : Reader) : Int :=
  r.events.foldl (fun level event =>
    match event with
    | .opened .. => level + 1
    | .closed => level - 1
    | .taken .. => level) 0

variable (r : Reader)

@[simp] theorem level_enter (rule : Rule) : (r.enter rule).level = r.level + 1 := by
  simp [Reader.level, Reader.enter]

@[simp] theorem level_leave : r.leave.level = r.level - 1 := by
  simp [Reader.level, Reader.leave]

@[simp] theorem level_bump : r.bump.level = r.level := by
  rw [Reader.bump]
  split <;> simp [Reader.level]

@[simp] theorem level_spoil : r.spoil.level = r.level := by
  rw [Reader.spoil]
  split <;> simp [Reader.level]

@[simp] theorem level_mismatched (expected : List TokenKind) :
    (r.mismatched expected).level = r.level := rfl

@[simp] theorem level_missing (kind : TokenKind) : (r.missing kind).level = r.level := rfl

@[simp] theorem level_checkCalls (called : Bool) : (r.checkCalls called).level = r.level := by
  rw [Reader.checkCalls]
  split <;> rfl

-- The nodes open in the tree are those that rules wait for.
theorem level_turn (task : Task) :
    (task.turn r).2.level + waiting [task] = r.level + waiting (task.turn r).1 := by
  fun_cases Task.turn r task with
  | case1 => simp [waiting]; omega
  | _ => simp [*, waiting, Task.call, Task.literal]

end Level

namespace Descent

variable {turns : Nat} {d d' : Descent}

-- The tokens still to be read.
def size (d : Descent) : Nat := d.reader.inp.size

theorem next?_eq_some_iff : d.next? = some d' ↔ ∃ task below, d.todo = task :: below ∧
    d' = ⟨(task.turn d.reader).2, (task.turn d.reader).1 ++ below⟩ := by
  obtain ⟨r, todo⟩ := d
  cases todo with
  | nil => simp [next?]
  | cons task below => simp [next?, eq_comm]

theorem next?_pays (h : d.next? = some d') :
    Task.costs d'.todo + 16 * d'.size < Task.costs d.todo + 16 * d.size ∧
      Task.depths d'.todo + 4 * d'.size ≤ Task.depths d.todo + 4 * d.size := by
  obtain ⟨task, below, htodo, rfl⟩ := next?_eq_some_iff.mp h
  obtain ⟨hcost, hdepth⟩ := pays_turn d.reader task
  rw [htodo]
  simp only [size, Task.costs_append, Task.costs, Task.depths_append, Task.depths]
  omega

-- So many turns cost at least as much.
theorem run?_pays (h : d.run? turns = some d') :
    Task.costs d'.todo + 16 * d'.size + turns ≤ Task.costs d.todo + 16 * d.size ∧
      Task.depths d'.todo + 4 * d'.size ≤ Task.depths d.todo + 4 * d.size := by
  induction turns generalizing d with
  | zero =>
    obtain rfl := Option.some.inj h
    exact ⟨Nat.le_refl _, Nat.le_refl _⟩
  | succ turns ih =>
    obtain ⟨mid, hmid, hrun⟩ := Option.bind_eq_some_iff.mp h
    have hfirst := next?_pays hmid
    have hothers := ih hrun
    omega

theorem run?_level (h : d.run? turns = some d') :
    d'.reader.level - waiting d'.todo = d.reader.level - waiting d.todo := by
  induction turns generalizing d with
  | zero =>
    obtain rfl := Option.some.inj h
    rfl
  | succ turns ih =>
    obtain ⟨mid, hmid, hrun⟩ := Option.bind_eq_some_iff.mp h
    obtain ⟨task, below, htodo, rfl⟩ := next?_eq_some_iff.mp hmid
    have hturn := level_turn d.reader task
    have hcons : waiting (task :: below) = waiting [task] + waiting below :=
      waiting_append [task] below
    rw [ih hrun, htodo, hcons]
    simp only [waiting_append]
    omega

end Descent

-- Two turns of one loop, or two calls of one rule. What a command has counted
-- may have changed.
def Task.Again (task later : Task) : Prop :=
  later = task ∨ (∃ called first called' first',
    task = .members called first ∧ later = .members called' first')

theorem Task.Again.cost_eq {task later : Task} (h : task.Again later) : later.cost = task.cost := by
  rcases h with rfl | ⟨_, _, _, _, rfl, rfl⟩ <;> rfl

namespace Descent

variable {turns : Nat} {d d' : Descent}

-- A loop has gone round, or a rule is called inside itself, only with a token
-- taken in between.
def Advances (d d' : Descent) : Prop :=
  ∀ task later above below, d.todo = task :: below → d'.todo = later :: (above ++ below) →
    task.Again later → d'.size < d.size

-- What a task has called since waits in few nodes for each token taken.
def IsShallow (d d' : Descent) : Prop :=
  ∀ task above below, d.todo = task :: below → d'.todo = above ++ below →
    waiting above ≤ 4 * (d.size - d'.size) + 3

theorem advances_of_run? (h : d.run? turns = some d') (hturns : 0 < turns) : Advances d d' := by
  intro task later above below htodo htodo' hagain
  have hpays := (run?_pays h).1
  rw [htodo, htodo'] at hpays
  simp only [Task.costs, Task.costs_append, hagain.cost_eq] at hpays
  omega

theorem isShallow_of_run? (h : d.run? turns = some d') : IsShallow d d' := by
  intro task above below htodo htodo'
  have hpays := (run?_pays h).2
  have hwaiting := waiting_le_depths above
  have htask : task.depth ≤ 3 := by cases task <;> simp
  rw [htodo, htodo'] at hpays
  simp only [Task.depths, Task.depths_append] at hpays
  omega

end Descent

-- Reading tokens that end with the end of the text comes to an end there, with
-- every token before it taken and the tree of the grammar made. Until then each
-- loop and each rule needs a token before it comes again, and the nodes that
-- rules have open are bounded by the tokens they have taken.
theorem parseTokens_terminates {tokens : List Token} {finish : Token}
    (htokens : ∀ token ∈ tokens, token.kind ≠ .endOfText) (hfinish : finish.kind = .endOfText) :
    (∃ turns ≤ 16 * tokens.length + 5, Descent.run? turns (.start (tokens ++ [finish])) =
        some ⟨⟨⟨[finish], false⟩, tokens.length,
          (parseTokens (tokens ++ [finish])).tree.eventsFrom 0,
          (parseTokens (tokens ++ [finish])).reports⟩, []⟩) ∧
      (parseTokens (tokens ++ [finish])).tree.tokens = tokens ++ [finish] ∧
      ∀ before between d d', Descent.run? before (.start (tokens ++ [finish])) = some d →
        d.run? between = some d' →
          d.reader.level = waiting d.todo ∧ (0 < between → d.Advances d') ∧ d.IsShallow d' := by
  refine ⟨?_, tokens_parseTokens htokens hfinish, fun before between d d' hbefore hbetween => ?_⟩
  · obtain ⟨turns, hrun⟩ := completes_pad htokens hfinish []
    have hpays := (Descent.run?_pays hrun).1
    simp [Descent.size, Reader.start, Input.size] at hpays
    exact ⟨turns, by omega, hrun⟩
  · have hlevel := Descent.run?_level hbefore
    have hstart : (Descent.start (tokens ++ [finish])).reader.level = 0 := rfl
    have hnone : waiting (Descent.start (tokens ++ [finish])).todo = 0 := rfl
    exact ⟨by omega, Descent.advances_of_run? hbetween, Descent.isShallow_of_run? hbetween⟩

-- What `db.(.)` is made of.
def strayPoint : List Token :=
  [⟨.db, 0, ['d', 'b']⟩, ⟨.dot, 2, ['.']⟩, ⟨.openParen, 3, ['(']⟩, ⟨.dot, 4, ['.']⟩,
    ⟨.closeParen, 5, [')']⟩]

theorem parseTokens_terminates_strayPoint :
    (∀ token ∈ strayPoint, token.kind ≠ .endOfText) ∧ (Token.atEnd 6).kind = .endOfText ∧
      ∃ turns ≤ 85, Descent.run? turns (.start (strayPoint ++ [.atEnd 6])) =
        some ⟨⟨⟨[.atEnd 6], false⟩, 5, (parseTokens (strayPoint ++ [.atEnd 6])).tree.eventsFrom 0,
          (parseTokens (strayPoint ++ [.atEnd 6])).reports⟩, []⟩ := by
  have htokens : ∀ token ∈ strayPoint, token.kind ≠ .endOfText := by decide
  have hfinish : (Token.atEnd 6).kind = .endOfText := rfl
  exact ⟨htokens, hfinish, (parseTokens_terminates htokens hfinish).1⟩

end QueryPad.Syntax
