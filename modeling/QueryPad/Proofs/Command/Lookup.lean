import QueryPad.Proofs.Command.Order

-- A mistake is looked up where it was laid, although the list grows meanwhile.
namespace QueryPad

open Text

namespace Command

variable {commands before after first second : List Command} {command new : Command}
  {p q finish : Position} {atEnd : Bool} {error : Diagnostic}

theorem CarriesAt.indexAt?_eq (h : CarriesAt p atEnd before command after) :
    indexAt? (before ++ command :: after) p = some before.length := by
  rw [indexAt?]
  cases h with
  | inside hcommand hbefore => simp only [findIdx?_eq hcommand hbefore, Option.some_or]
  | line hnone hcommand hafter =>
    simp only [findIdx?_eq_none hnone, Option.none_or,
      @lastIndex?_eq before after command (·.range.stop.line = p.line) (by simpa using hcommand)
        (by simpa using hafter), Option.some_or]
  | last hnone _ hcommand hafter =>
    have hinside : (before ++ command :: after).findIdx? (·.range.holds p) = none :=
      findIdx?_eq_none fun other hother => (hnone other hother).1
    have hline : lastIndex? (·.range.stop.line = p.line) (before ++ command :: after) = none :=
      lastIndex?_eq_none fun other hother => by simpa using (hnone other hother).2
    -- on another line, what does not end behind a place ends before it
    have hstop : command.range.stop < p := by
      have hlines := (hnone command (by simp)).2
      rw [Position.le_iff] at hcommand
      rw [Position.lt_iff]
      omega
    have hlater : ∀ other ∈ after, ¬ other.range.stop < p := fun other hother hbefore =>
      hafter other hother (Position.le_of_lt hbefore)
    simp only [hinside, hline, Option.none_or,
      @lastIndex?_eq before after command (·.range.stop < p) (by simpa using hstop)
        (by simpa using hlater), Option.some_or]

theorem CarriesAt.not_noneCarries (h : CarriesAt p atEnd before command after) :
    ¬ NoneCarries p atEnd (before ++ command :: after) := by
  intro hnone
  obtain ⟨⟨hinside, hline⟩, hlast⟩ := hnone command (by simp)
  cases h with
  | inside hcommand => exact hinside hcommand
  | line _ hcommand => exact hline hcommand
  | last _ hend hcommand => exact hlast hend hcommand

-- A command takes nothing of what another one carries.
def Aside (p : Position) (atEnd : Bool) (command other : Command) : Prop :=
  ¬ other.range.holds p ∧ (¬ command.range.holds p →
    other.range.stop.line ≠ p.line ∧ (atEnd → ¬ other.range.stop ≤ p))

-- Only the ranges count, and none of those that stand aside.
theorem CarriesAt.of_ranges {before' after' : List Command} {command' : Command}
    (h : CarriesAt p atEnd before command after) (hrange : command'.range = command.range)
    (hbefore : ∀ other ∈ before',
      Aside p atEnd command other ∨ ∃ old ∈ before, old.range = other.range)
    (hafter : ∀ other ∈ after',
      Aside p atEnd command other ∨ ∃ old ∈ after, old.range = other.range) :
    CarriesAt p atEnd before' command' after' := by
  have hall : ∀ other ∈ before' ++ command' :: after', Aside p atEnd command other ∨
      ∃ old ∈ before ++ command :: after, old.range = other.range := by
    intro other hother
    rcases List.mem_append.mp hother with hother | hother
    · exact (hbefore other hother).imp_right fun ⟨old, hold, hsame⟩ => ⟨old, by simp [hold], hsame⟩
    · rcases List.mem_cons.mp hother with rfl | hother
      · exact .inr ⟨command, by simp, hrange.symm⟩
      · exact (hafter other hother).imp_right fun ⟨old, hold, hsame⟩ => ⟨old, by simp [hold], hsame⟩
  cases h with
  | inside hcommand hnone =>
    refine .inside (hrange ▸ hcommand) fun other hother => ?_
    rcases hbefore other hother with haside | ⟨old, hold, hsame⟩
    · exact haside.1
    · exact hsame ▸ hnone old hold
  | line hnone hcommand hlater =>
    have houtside := hnone command (by simp)
    refine .line (fun other hother => ?_) (hrange ▸ hcommand) fun other hother => ?_
    · rcases hall other hother with haside | ⟨old, hold, hsame⟩
      · exact haside.1
      · exact hsame ▸ hnone old hold
    · rcases hafter other hother with haside | ⟨old, hold, hsame⟩
      · exact (haside.2 houtside).1
      · exact hsame ▸ hlater old hold
  | last hnone hend hcommand hlater =>
    have houtside := (hnone command (by simp)).1
    refine .last (fun other hother => ?_) hend (hrange ▸ hcommand) fun other hother => ?_
    · rcases hall other hother with haside | ⟨old, hold, hsame⟩
      · exact ⟨haside.1, (haside.2 houtside).1⟩
      · exact hsame ▸ hnone old hold
    · rcases hafter other hother with haside | ⟨old, hold, hsame⟩
      · exact (haside.2 houtside).2 hend
      · exact hsame ▸ hlater old hold

-- A placeholder for a later mistake stands aside.
theorem NoneCarries.aside (hnone : NoneCarries q (q = finish) (before ++ command :: after))
    (h : CarriesAt p (p = finish) before command after)
    (hlater : command.range.holds p ∨ p ≤ q) (hq : q ≤ finish) (hnew : new.range = .emptyAt q) :
    Aside p (p = finish) command new := by
  have hne : p ≠ q := by
    rintro rfl
    exact h.not_noneCarries hnone
  have hstop : new.range.stop = q := congrArg Range.stop hnew
  refine ⟨fun hholds => ?_, fun houtside => ?_⟩
  · rw [hnew, Range.holds_emptyAt] at hholds
    exact hne hholds.symm
  · have hle : p ≤ q := hlater.resolve_left houtside
    have hfront : p ≠ finish := by
      rintro rfl
      exact hne (Position.le_antisymm hle hq)
    rw [hstop]
    refine ⟨fun hline => ?_, fun hend => absurd (of_decide_eq_true hend) hfront⟩
    cases h with
    | inside hcommand => exact houtside hcommand
    | line _ hcommand => exact (hnone command (by simp)).1.2 (hcommand.trans hline.symm)
    | last _ hend => exact hfront (of_decide_eq_true hend)

-- A command of a list into which one was put is this one, or stands before it,
-- or behind it.
theorem split_cases (h : first ++ new :: second = before ++ command :: after) :
    (before = first ∧ command = new ∧ after = second) ∨
      (∃ middle, first = before ++ command :: middle ∧ after = middle ++ new :: second) ∨
      ∃ middle, before = first ++ new :: middle ∧ second = middle ++ command :: after := by
  rcases List.append_eq_append_iff.mp h with ⟨middle, rfl, hrest⟩ | ⟨middle, rfl, hrest⟩
  · cases middle with
    | nil =>
      obtain ⟨rfl, rfl⟩ := List.cons.inj hrest
      exact .inl ⟨by simp, rfl, rfl⟩
    | cons next middle =>
      obtain ⟨rfl, rfl⟩ := List.cons.inj hrest
      exact .inr (.inr ⟨middle, rfl, rfl⟩)
  · cases middle with
    | nil =>
      obtain ⟨rfl, rfl⟩ := List.cons.inj hrest
      exact .inl ⟨by simp, rfl, rfl⟩
    | cons next middle =>
      obtain ⟨rfl, rfl⟩ := List.cons.inj hrest
      exact .inr (.inl ⟨middle, rfl, rfl⟩)

-- A command that is given an error keeps its range and its text.
theorem exists_old_of_mem {other : Command}
    (h : other ∈ before ++ command.withError error :: after) :
    ∃ old ∈ before ++ command :: after, old.range = other.range ∧ old.text = other.text := by
  rcases List.mem_append.mp h with h | h
  · exact ⟨other, by simp [h], rfl, rfl⟩
  · rcases List.mem_cons.mp h with rfl | h
    · exact ⟨command, by simp, rfl, rfl⟩
    · exact ⟨other, by simp [h], rfl, rfl⟩

theorem exists_new_of_mem {old : Command} (h : old ∈ before ++ command :: after)
    (error : Diagnostic) : ∃ other ∈ before ++ command.withError error :: after,
      other.range = old.range ∧ other.text = old.text := by
  rcases List.mem_append.mp h with h | h
  · exact ⟨old, by simp [h], rfl, rfl⟩
  · rcases List.mem_cons.mp h with rfl | h
    · exact ⟨old.withError error, by simp, rfl, rfl⟩
    · exact ⟨old, by simp [h], rfl, rfl⟩

-- Each error lies where its command carries it. Those from outside the command
-- do not lie behind the errors still to come.
def Attached (finish : Position) (more : List Diagnostic) (commands : List Command) : Prop :=
  ∀ before command after, commands = before ++ command :: after → ∀ error ∈ command.errors,
    CarriesAt error.range.start (error.range.start = finish) before command after ∧
      (command.range.holds error.range.start ∨
        ∀ later ∈ more, error.range.start ≤ later.range.start)

theorem exists_range_of_mem {other : Command}
    (h : other ∈ before ++ command.withError error :: after) :
    ∃ old ∈ before ++ command :: after, old.range = other.range := by
  obtain ⟨old, hold, hrange, _⟩ := exists_old_of_mem h
  exact ⟨old, hold, hrange⟩

namespace Attached

variable {more : List Diagnostic}

theorem later_of_cons
    (h : command.range.holds p ∨ ∀ later ∈ error :: more, p ≤ later.range.start) :
    command.range.holds p ∨ ∀ later ∈ more, p ≤ later.range.start :=
  h.imp_right fun hle later hlater => hle later (by simp [hlater])

theorem carried (h : Attached finish (error :: more) (before ++ command :: after))
    (hcarries : CarriesAt error.range.start (error.range.start = finish) before command after)
    (hsorted : ∀ later ∈ more, error.range.start ≤ later.range.start) :
    Attached finish more (before ++ command.withError error :: after) := by
  intro before' found after' hsplit other hother
  rcases split_cases hsplit with ⟨rfl, rfl, rfl⟩ | ⟨middle, rfl, rfl⟩ | ⟨middle, rfl, rfl⟩
  · have hsame : CarriesAt other.range.start (other.range.start = finish) before' command after' ∧
        (command.range.holds other.range.start ∨
          ∀ later ∈ more, other.range.start ≤ later.range.start) := by
      rcases List.mem_append.mp hother with hother | hother
      · obtain ⟨hold, hlater⟩ := h _ _ _ rfl other hother
        exact ⟨hold, later_of_cons hlater⟩
      · rw [List.mem_singleton.mp hother]
        exact ⟨hcarries, .inr hsorted⟩
    exact ⟨hsame.1.of_ranges rfl (fun old hold => .inr ⟨old, hold, rfl⟩)
      (fun old hold => .inr ⟨old, hold, rfl⟩), hsame.2⟩
  · obtain ⟨hold, hlater⟩ := h before' found (middle ++ command :: after) (by simp) other hother
    exact ⟨hold.of_ranges rfl (fun old hold => .inr ⟨old, hold, rfl⟩)
      (fun _ hmem => .inr (exists_range_of_mem hmem)), later_of_cons hlater⟩
  · obtain ⟨hold, hlater⟩ := h (before ++ command :: middle) found after' (by simp) other hother
    exact ⟨hold.of_ranges rfl (fun _ hmem => .inr (exists_range_of_mem hmem))
      (fun old hold => .inr ⟨old, hold, rfl⟩), later_of_cons hlater⟩

theorem added (h : Attached finish (error :: more) (first ++ second))
    (hnone : NoneCarries error.range.start (error.range.start = finish) (first ++ second))
    (hempty : error.range = .emptyAt error.range.start) (hfinish : error.range.start ≤ finish)
    (hsorted : ∀ later ∈ more, error.range.start ≤ later.range.start) :
    Attached finish more (first ++ placeholder error :: second) := by
  have hbeside : ∀ {before command after}, first ++ second = before ++ command :: after →
      ∀ other ∈ command.errors,
        CarriesAt other.range.start (other.range.start = finish) before command after ∧
          Aside other.range.start (other.range.start = finish) command (placeholder error) ∧
            (command.range.holds other.range.start ∨
              ∀ later ∈ more, other.range.start ≤ later.range.start) := by
    intro before command after hsplit other hother
    obtain ⟨hold, hlater⟩ := h before command after hsplit other hother
    have hle := hlater.imp_right fun hle => hle error (by simp)
    exact ⟨hold, (hsplit ▸ hnone).aside hold hle hfinish hempty, later_of_cons hlater⟩
  have hnew : ∀ {p : Position} {command : Command} {middle rest : List Command},
      Aside p (p = finish) command (placeholder error) →
        ∀ other ∈ middle ++ placeholder error :: rest, Aside p (p = finish) command other ∨
          ∃ old ∈ middle ++ rest, old.range = other.range := by
    intro p command middle rest haside other hother
    rcases List.mem_append.mp hother with hother | hother
    · exact .inr ⟨other, by simp [hother], rfl⟩
    · rcases List.mem_cons.mp hother with rfl | hother
      · exact .inl haside
      · exact .inr ⟨other, by simp [hother], rfl⟩
  intro before found after hsplit other hother
  rcases split_cases hsplit with ⟨rfl, rfl, rfl⟩ | ⟨middle, rfl, rfl⟩ | ⟨middle, rfl, rfl⟩
  · obtain rfl : other = error := List.mem_singleton.mp hother
    have hholds : (placeholder other).range.holds other.range.start := by
      rw [show (placeholder other).range = .emptyAt other.range.start from hempty,
        Range.holds_emptyAt]
    exact ⟨.inside hholds fun old hold => (hnone old (by simp [hold])).1.1, .inl hholds⟩
  · obtain ⟨hold, haside, hlater⟩ :=
      @hbeside before found (middle ++ second) (by simp) other hother
    exact ⟨hold.of_ranges rfl (fun old hold => .inr ⟨old, hold, rfl⟩) (hnew haside), hlater⟩
  · obtain ⟨hold, haside, hlater⟩ :=
      @hbeside (first ++ middle) found after (by simp) other hother
    exact ⟨hold.of_ranges rfl (hnew haside) (fun old hold => .inr ⟨old, hold, rfl⟩), hlater⟩

theorem place (h : Attached finish (error :: more) commands)
    (hempty : error.range = .emptyAt error.range.start) (hfinish : error.range.start ≤ finish)
    (hsorted : ∀ later ∈ more, error.range.start ≤ later.range.start) :
    Attached finish more (Command.place finish commands error) := by
  rcases place_cases finish commands error with
    ⟨before, command, after, rfl, hcarries, hplace⟩ | ⟨first, second, rfl, hnone, _, _, hplace⟩
  · rw [hplace]
    exact h.carried hcarries hsorted
  · rw [hplace]
    exact h.added hnone hempty hfinish hsorted

theorem foldl_place {errors : List Diagnostic} (h : Attached finish errors commands)
    (hempty : ∀ error ∈ errors, error.range = .emptyAt error.range.start)
    (hfinish : ∀ error ∈ errors, error.range.start ≤ finish)
    (hsorted : errors.Pairwise fun a b => a.range.start ≤ b.range.start) :
    Attached finish [] (errors.foldl (Command.place finish) commands) := by
  induction errors generalizing commands with
  | nil => exact h
  | cons error errors ih =>
    obtain ⟨hlater, hsorted⟩ := List.pairwise_cons.mp hsorted
    have hstep := h.place (hempty error (by simp)) (hfinish error (by simp)) hlater
    exact ih hstep (fun other hother => hempty other (by simp [hother]))
      (fun other hother => hfinish other (by simp [hother])) hsorted

end Attached

end Command

namespace Pad

open Command

theorem syntaxDiagnostics_sorted (pad : Pad) :
    pad.syntaxDiagnostics.Pairwise fun a b => a.range.start ≤ b.range.start := by
  let startsFirst (a b : Diagnostic) : Bool := a.range.start ≤ b.range.start
  have htrans : ∀ a b c, startsFirst a b → startsFirst b c → startsFirst a c := by
    intro a b c hab hbc
    simp only [startsFirst, decide_eq_true_eq] at *
    exact Position.le_trans hab hbc
  have htotal : ∀ a b, startsFirst a b || startsFirst b a := by
    intro a b
    simp only [startsFirst, Bool.or_eq_true, decide_eq_true_eq, Position.le_iff]
    omega
  exact (List.pairwise_mergeSort htrans htotal _).imp fun hle => of_decide_eq_true hle

theorem start_le_finish_of_mem_syntaxDiagnostics {text : String} {error : Diagnostic}
    (h : error ∈ (ofText text).syntaxDiagnostics) : error.range.start ≤ (ofText text).finish := by
  obtain ⟨offset, hrange⟩ := exists_offset_of_mem_syntaxDiagnostics h
  rw [hrange]
  exact LineIndex.positionAt_le_end text.toList offset

-- What is wrong with the values of a command stands inside it.
theorem inside_of_mem_errors {text : String} {occasion : Occasion} {command : Command}
    {error : Diagnostic} (hcommand : command ∈ (ofText text).extractedCommands occasion)
    (herror : error ∈ command.errors) :
    command.range.start < error.range.start ∧ error.range.start ≤ command.range.stop := by
  obtain ⟨node, hnode, rfl⟩ := List.mem_map.mp hcommand
  have hcommandNode := (commandNodes text).2 node hnode
  obtain ⟨call, hcall, token, htoken, hstart⟩ :=
    exists_token_of_mem_errors hcommandNode.anchored herror
  have hmem : token ∈ node.tokens := Tree.mem_tokens_of_mem_childrenOf hcall htoken
  have hlexed := hcommandNode.lexed token hmem
  have hlt := hcommandNode.start_lt_of_mem_calls hcall htoken
  have hle : token.start ≤ node.span.stop := by
    have hstop := hcommandNode.stop_le hmem
    have hwidth := start_lt_stop_of_mem_lex hlexed
    omega
  rw [hstart]
  exact ⟨positionAt_lt_start hlexed hlt, LineIndex.positionAt_mono _ hle⟩

theorem extractedCommands_attached (text : String) (occasion : Occasion) :
    Attached (ofText text).finish (ofText text).syntaxDiagnostics
      ((ofText text).extractedCommands occasion) := by
  intro before command after hsplit error herror
  have hordered := extractedCommands_ordered text occasion
  have hmem : command ∈ (ofText text).extractedCommands occasion := by simp [hsplit]
  rw [hsplit] at hordered
  obtain ⟨hstart, hstop⟩ := inside_of_mem_errors hmem herror
  have hholds : command.range.holds error.range.start :=
    Range.holds_iff.mpr ⟨Position.le_of_lt hstart, hstop⟩
  refine ⟨.inside hholds fun other hother hholds => ?_, .inl hholds⟩
  -- the commands before this one end where it starts at the latest
  have hapart := (List.pairwise_append.mp hordered.apart).2.2 other hother command (by simp)
  have hreach := (Range.holds_iff.mp hholds).2
  exact Position.lt_irrefl _ (Position.lt_of_lt_of_le hstart (Position.le_trans hreach hapart))

-- Each error of a command is found with the command when its place is looked up.
theorem indexAt?_of_mem_errors (text : String) (occasion : Occasion) :
    ∀ index command, ((ofText text).commands occasion)[index]? = some command →
      ∀ error ∈ command.errors,
        indexAt? ((ofText text).commands occasion) error.range.start = some index := by
  have hattached : Attached (ofText text).finish [] ((ofText text).commands occasion) :=
    (extractedCommands_attached text occasion).foldl_place
      (fun _ => range_of_mem_syntaxDiagnostics) (fun _ => start_le_finish_of_mem_syntaxDiagnostics)
      (syntaxDiagnostics_sorted _)
  intro index command hcommand error herror
  obtain ⟨hindex, rfl⟩ := List.getElem?_eq_some_iff.mp hcommand
  have hsplit := (List.take_append_drop index ((ofText text).commands occasion)).symm
  rw [List.drop_eq_getElem_cons hindex] at hsplit
  obtain ⟨hcarries, _⟩ := hattached _ _ _ hsplit error herror
  have hfound := hcarries.indexAt?_eq
  rwa [← hsplit, List.length_take, Nat.min_eq_left (by omega)] at hfound

-- A call that is left open, and a stray mark below it.
def openCall : String := "db.f(\n@\n"

theorem syntaxDiagnostics_openCall : (ofText openCall).syntaxDiagnostics =
    (ofText openCall).lexicalDiagnostics ++ (ofText openCall).grammarDiagnostics :=
  List.mergeSort_of_pairwise (by decide +kernel)

theorem indexAt?_openCall :
    ∃ command error, ((ofText openCall).commands ⟨⟨0, 0⟩, ⟨0⟩⟩)[1]? = some command ∧
      error ∈ command.errors ∧
      indexAt? ((ofText openCall).commands ⟨⟨0, 0⟩, ⟨0⟩⟩) error.range.start = some 1 := by
  have hcounts : ((ofText openCall).commands ⟨⟨0, 0⟩, ⟨0⟩⟩).map
      (fun command => command.errors.length) = [0, 2] := by
    rw [commands, syntaxDiagnostics_openCall]
    decide +kernel
  have hsecond := congrArg (·[1]?) hcounts
  rw [List.getElem?_map] at hsecond
  obtain ⟨command, hcommand, hlength⟩ := Option.map_eq_some_iff.mp hsecond
  obtain ⟨error, herror⟩ := List.exists_mem_of_length_pos (by omega : 0 < command.errors.length)
  exact ⟨command, error, hcommand, herror,
    indexAt?_of_mem_errors openCall ⟨⟨0, 0⟩, ⟨0⟩⟩ 1 command hcommand error herror⟩

end Pad

end QueryPad
