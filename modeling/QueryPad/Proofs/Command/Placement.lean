import Mathlib.Data.List.Forall2
import Mathlib.Data.List.TakeWhile
import QueryPad.Command.Placement
import QueryPad.Proofs.Syntax.Spans
import QueryPad.Proofs.Text.Lines

-- Which command a place belongs to: why a command carries what lies there, and
-- what a list looks like in which no command does.
namespace QueryPad.Command

open Text

variable {commands before after : List Command} {command : Command} {p : Position} {atEnd : Bool}

section Index

variable {holds : Command → Bool}

theorem findIdx?_eq_none (h : ∀ other ∈ commands, ¬ holds other) :
    commands.findIdx? holds = none :=
  List.findIdx?_eq_none_iff.mpr fun other hother => eq_false_of_ne_true (h other hother)

theorem findIdx?_eq (hcommand : holds command) (hbefore : ∀ other ∈ before, ¬ holds other) :
    (before ++ command :: after).findIdx? holds = some before.length := by
  simp [List.findIdx?_append, List.findIdx?_cons, findIdx?_eq_none hbefore, hcommand]

theorem lastIndex?_eq (hcommand : holds command) (hafter : ∀ other ∈ after, ¬ holds other) :
    lastIndex? holds (before ++ command :: after) = some before.length := by
  have hfound : (after.reverse ++ command :: before.reverse).findIdx? holds =
      some after.reverse.length :=
    findIdx?_eq hcommand fun other hother => hafter other (List.mem_reverse.mp hother)
  rw [lastIndex?, List.reverse_append, List.reverse_cons, List.append_assoc,
    List.singleton_append, hfound, Option.map_some, List.length_append, List.length_cons,
    List.length_reverse]
  congr 1
  omega

theorem lastIndex?_eq_none (h : ∀ other ∈ commands, ¬ holds other) :
    lastIndex? holds commands = none := by
  rw [lastIndex?, Option.map_eq_none_iff]
  exact findIdx?_eq_none fun other hother => h other (List.mem_reverse.mp hother)

theorem exists_first (h : ∃ command ∈ commands, holds command) :
    ∃ before command after, commands = before ++ command :: after ∧ holds command ∧
      ∀ other ∈ before, ¬ holds other := by
  obtain ⟨command, hfound⟩ := Option.isSome_iff_exists.mp (List.find?_isSome.mpr h)
  obtain ⟨hcommand, before, after, hcommands, hbefore⟩ :=
    List.find?_eq_some_iff_append.mp hfound
  exact ⟨before, command, after, hcommands, hcommand, by simpa using hbefore⟩

theorem exists_last (h : ∃ command ∈ commands, holds command) :
    ∃ before command after, commands = before ++ command :: after ∧ holds command ∧
      ∀ other ∈ after, ¬ holds other := by
  obtain ⟨before, command, after, hreverse, hcommand, hbefore⟩ :=
    @exists_first commands.reverse holds (by simpa using h)
  refine ⟨after.reverse, command, before.reverse, ?_, hcommand, by simpa using hbefore⟩
  rw [← List.reverse_reverse commands, hreverse]
  simp

end Index

-- Why a command carries what lies at a place, given the commands before it and
-- those after it.
inductive CarriesAt (p : Position) (atEnd : Bool) (before : List Command) (command : Command)
    (after : List Command) : Prop where
  | inside (hcommand : command.range.holds p) (hbefore : ∀ other ∈ before, ¬ other.range.holds p)
  | line (hnone : ∀ other ∈ before ++ command :: after, ¬ other.range.holds p)
      (hcommand : command.range.stop.line = p.line)
      (hafter : ∀ other ∈ after, other.range.stop.line ≠ p.line)
  | last (hnone : ∀ other ∈ before ++ command :: after,
        ¬ other.range.holds p ∧ other.range.stop.line ≠ p.line)
      (hend : atEnd) (hcommand : command.range.stop ≤ p)
      (hafter : ∀ other ∈ after, ¬ other.range.stop ≤ p)

def NoneCarries (p : Position) (atEnd : Bool) (commands : List Command) : Prop :=
  ∀ command ∈ commands, (¬ command.range.holds p ∧ command.range.stop.line ≠ p.line) ∧
    (atEnd → ¬ command.range.stop ≤ p)

theorem CarriesAt.carrier?_eq (h : CarriesAt p atEnd before command after) :
    carrier? (before ++ command :: after) p atEnd = some before.length := by
  rw [carrier?]
  cases h with
  | inside hcommand hbefore => rw [findIdx?_eq hcommand hbefore, Option.some_or, Option.some_or]
  | line hnone hcommand hafter =>
    rw [findIdx?_eq_none hnone, Option.none_or,
      lastIndex?_eq (by simpa using hcommand) (by simpa using hafter), Option.some_or]
  | last hnone hend hcommand hafter =>
    have hinside : (before ++ command :: after).findIdx? (·.range.holds p) = none :=
      findIdx?_eq_none fun other hother => (hnone other hother).1
    have hline : lastIndex? (·.range.stop.line = p.line) (before ++ command :: after) = none :=
      lastIndex?_eq_none fun other hother => by simpa using (hnone other hother).2
    rw [hinside, hline, Option.none_or, Option.none_or, if_pos hend,
      lastIndex?_eq (by simpa using hcommand) (by simpa using hafter)]

theorem NoneCarries.carrier?_eq (h : NoneCarries p atEnd commands) :
    carrier? commands p atEnd = none := by
  have hinside : commands.findIdx? (·.range.holds p) = none :=
    findIdx?_eq_none fun other hother => (h other hother).1.1
  have hline : lastIndex? (·.range.stop.line = p.line) commands = none :=
    lastIndex?_eq_none fun other hother => by simpa using (h other hother).1.2
  rw [carrier?, hinside, hline, Option.none_or, Option.none_or]
  split
  · next hend => exact lastIndex?_eq_none fun other hother => by simpa using (h other hother).2 hend
  · rfl

-- What carries something is decided by the ranges.
theorem carrier?_congr {others : List Command}
    (h : commands.map Command.range = others.map Command.range) :
    carrier? commands p atEnd = carrier? others p atEnd := by
  have hfirst : ∀ holds : Range → Bool, commands.findIdx? (fun command => holds command.range) =
      others.findIdx? (fun command => holds command.range) := by
    intro holds
    have hboth := congrArg (List.findIdx? holds) h
    rwa [List.findIdx?_map, List.findIdx?_map] at hboth
  have hlast : ∀ holds : Range → Bool, lastIndex? (fun command => holds command.range) commands =
      lastIndex? (fun command => holds command.range) others := by
    intro holds
    have hboth := congrArg (fun ranges => ranges.reverse.findIdx? holds) h
    have hlength := congrArg List.length h
    rw [← List.map_reverse, ← List.map_reverse, List.findIdx?_map, List.findIdx?_map] at hboth
    rw [List.length_map, List.length_map] at hlength
    rw [lastIndex?, lastIndex?, hlength]
    exact congrArg (Option.map _) hboth
  rw [carrier?, carrier?, hfirst (·.holds p), hlast fun range => range.stop.line = p.line,
    hlast fun range => range.stop ≤ p]

-- One of the two is the case.
theorem carriesAt_or_noneCarries (commands : List Command) (p : Position) (atEnd : Bool) :
    (∃ before command after, commands = before ++ command :: after ∧
        CarriesAt p atEnd before command after) ∨ NoneCarries p atEnd commands := by
  by_cases hinside : ∃ command ∈ commands, command.range.holds p
  · obtain ⟨before, command, after, hcommands, hcommand, hbefore⟩ := exists_first hinside
    exact .inl ⟨before, command, after, hcommands, .inside hcommand hbefore⟩
  have hinside : ∀ command ∈ commands, ¬ command.range.holds p := fun command hcommand hholds =>
    hinside ⟨command, hcommand, hholds⟩
  by_cases hline : ∃ command ∈ commands, decide (command.range.stop.line = p.line)
  · obtain ⟨before, command, after, rfl, hcommand, hafter⟩ := exists_last hline
    exact .inl ⟨before, command, after, rfl,
      .line hinside (by simpa using hcommand) (by simpa using hafter)⟩
  have hline : ∀ command ∈ commands, command.range.stop.line ≠ p.line := by simpa using hline
  by_cases hlast : atEnd ∧ ∃ command ∈ commands, decide (command.range.stop ≤ p)
  · obtain ⟨hend, hlast⟩ := hlast
    obtain ⟨before, command, after, rfl, hcommand, hafter⟩ := exists_last hlast
    exact .inl ⟨before, command, after, rfl,
      .last (fun other hother => ⟨hinside other hother, hline other hother⟩) hend
        (by simpa using hcommand) (by simpa using hafter)⟩
  · refine .inr fun command hcommand => ⟨⟨hinside command hcommand, hline command hcommand⟩, ?_⟩
    exact fun hend hstop => hlast ⟨hend, command, hcommand, by simpa using hstop⟩

theorem modify_append (change : Command → Command) :
    (before ++ command :: after).modify before.length change =
      before ++ change command :: after := by
  induction before with
  | nil => rfl
  | cons other before ih => exact congrArg (other :: ·) ih

-- All that placing an error can do.
theorem place_cases (finish : Position) (commands : List Command) (error : Diagnostic) :
    (∃ before command after, commands = before ++ command :: after ∧
        CarriesAt error.range.start (error.range.start = finish) before command after ∧
        place finish commands error = before ++ command.withError error :: after) ∨
      ∃ first second, commands = first ++ second ∧
        NoneCarries error.range.start (error.range.start = finish) (first ++ second) ∧
        (∀ other ∈ first, other.range.start ≤ error.range.start) ∧
        (∀ next ∈ second.head?, ¬ next.range.start ≤ error.range.start) ∧
        place finish commands error = first ++ placeholder error :: second := by
  rcases carriesAt_or_noneCarries commands error.range.start (error.range.start = finish) with
    ⟨before, command, after, rfl, hcarries⟩ | hnone
  · refine .inl ⟨before, command, after, rfl, hcarries, ?_⟩
    rw [place, hcarries.carrier?_eq]
    exact modify_append _
  · have hsplit := (List.takeWhile_append_dropWhile
      (p := fun command : Command => command.range.start ≤ error.range.start)
      (l := commands)).symm
    refine .inr ⟨_, _, hsplit, hsplit ▸ hnone, fun other hother => ?_, fun next hnext => ?_, ?_⟩
    · simpa using List.mem_takeWhile_imp hother
    · simpa using not_of_mem_head?_dropWhile hnext
    · rw [place, hnone.carrier?_eq]

end QueryPad.Command

-- Every mistake of syntax is laid on one command, and nothing else changes.
namespace QueryPad

open Text

namespace Command

-- An error goes to a command, or to a placeholder between commands.
inductive Placed (error : Diagnostic) : List Command → List Command → Prop where
  | carried (before : List Command) (command : Command) (after : List Command) :
      Placed error (before ++ command :: after) (before ++ command.withError error :: after)
  | added (before after : List Command) :
      Placed error (before ++ after) (before ++ placeholder error :: after)

theorem place_placed (finish : Position) (commands : List Command) (error : Diagnostic) :
    Placed error commands (place finish commands error) := by
  rcases place_cases finish commands error with
    ⟨before, command, after, rfl, _, hplace⟩ | ⟨first, second, rfl, _, _, _, hplace⟩
  · exact hplace ▸ .carried before command after
  · exact hplace ▸ .added first second

-- A command that only holds errors.
structure IsPlaceholder (command : Command) : Prop where
  text : command.text = ""
  name : command.name = ""
  collection : command.collection = none
  arguments : command.arguments = []
  errors : command.errors ≠ []

-- A command with errors behind those it had.
def Extends (errors : List Diagnostic) (before after : Command) : Prop :=
  ∃ more, more.Sublist errors ∧ after = { before with errors := before.errors ++ more }

-- The commands of a text once some errors have been laid on them.
structure Carries (extracted : List Command) (errors : List Diagnostic) (commands : List Command) :
    Prop where
  perm : (commands.flatMap Command.errors).Perm (extracted.flatMap Command.errors ++ errors)
  kept : List.Forall₂ (Extends errors) extracted (commands.filter (·.text ≠ ""))
  added : ∀ command ∈ commands, command.text = "" → IsPlaceholder command

section Step

variable {extracted commands commands' : List Command} {errors : List Diagnostic}
  {error : Diagnostic}

theorem Extends.mono {before after : Command} (h : Extends errors before after) :
    Extends (errors ++ [error]) before after := by
  obtain ⟨more, hmore, hafter⟩ := h
  exact ⟨more, hmore.trans (List.sublist_append_left _ _), hafter⟩

theorem Extends.withError {before after : Command} (h : Extends errors before after) :
    Extends (errors ++ [error]) before (after.withError error) := by
  obtain ⟨more, hmore, rfl⟩ := h
  refine ⟨more ++ [error], hmore.append (List.Sublist.refl _), ?_⟩
  rw [Command.withError, List.append_assoc]

theorem IsPlaceholder.withError {command : Command} (h : IsPlaceholder command) :
    IsPlaceholder (command.withError error) where
  text := h.text
  name := h.name
  collection := h.collection
  arguments := h.arguments
  errors := by simp [Command.withError]

theorem placeholder_isPlaceholder : IsPlaceholder (placeholder error) :=
  ⟨rfl, rfl, rfl, rfl, by simp [placeholder]⟩

theorem flatMap_errors_perm (h : Placed error commands commands') :
    (commands'.flatMap Command.errors).Perm (commands.flatMap Command.errors ++ [error]) := by
  cases h with
  | carried before command after =>
    have hlast : ([error] ++ after.flatMap Command.errors).Perm
        (after.flatMap Command.errors ++ [error]) := List.perm_append_comm
    simpa [Command.withError] using (hlast.append_left command.errors).append_left _
  | added before after =>
    have hlast : ([error] ++ after.flatMap Command.errors).Perm
        (after.flatMap Command.errors ++ [error]) := List.perm_append_comm
    simpa [placeholder] using hlast.append_left _

-- A command of the text that is given the error stays at its place.
theorem forall₂_withError {before after : List Command} {command : Command}
    (h : List.Forall₂ (Extends errors) extracted (before ++ command :: after)) :
    List.Forall₂ (Extends (errors ++ [error])) extracted
      (before ++ command.withError error :: after) := by
  induction before generalizing extracted with
  | nil =>
    obtain ⟨first, rest, hfirst, hrest, rfl⟩ := List.forall₂_cons_right_iff.mp h
    exact .cons hfirst.withError (hrest.imp fun _ _ => Extends.mono)
  | cons other before ih =>
    obtain ⟨first, rest, hfirst, hrest, rfl⟩ := List.forall₂_cons_right_iff.mp h
    exact .cons hfirst.mono (ih hrest)

theorem Carries.step (h : Carries extracted errors commands)
    (hplaced : Placed error commands commands') :
    Carries extracted (errors ++ [error]) commands' where
  perm := by
    rw [← List.append_assoc]
    exact (flatMap_errors_perm hplaced).trans (h.perm.append_right [error])
  kept := by
    have hkept := h.kept
    cases hplaced with
    | carried before command after =>
      have htext : (command.withError error).text = command.text := rfl
      rw [List.filter_append] at hkept ⊢
      -- the carrier may be a placeholder, which is not among the kept commands
      by_cases hempty : command.text = ""
      · rw [List.filter_cons_of_neg (by simp [hempty])] at hkept
        rw [List.filter_cons_of_neg (by simp [htext, hempty])]
        exact hkept.imp fun _ _ => Extends.mono
      · rw [List.filter_cons_of_pos (by simp [hempty])] at hkept
        rw [List.filter_cons_of_pos (by simp [htext, hempty])]
        exact forall₂_withError hkept
    | added before after =>
      have htext : (placeholder error).text = "" := rfl
      rw [List.filter_append] at hkept ⊢
      rw [List.filter_cons_of_neg (by simp [htext])]
      exact hkept.imp fun _ _ => Extends.mono
  added := by
    intro found hfound hempty
    cases hplaced with
    | carried before command after =>
      rcases List.mem_append.mp hfound with hbefore | hafter
      · exact h.added found (by simp [hbefore]) hempty
      · rcases List.mem_cons.mp hafter with rfl | hafter
        · exact (h.added command (by simp) hempty).withError
        · exact h.added found (by simp [hafter]) hempty
    | added before after =>
      rcases List.mem_append.mp hfound with hbefore | hafter
      · exact h.added found (by simp [hbefore]) hempty
      · rcases List.mem_cons.mp hafter with rfl | hafter
        · exact placeholder_isPlaceholder
        · exact h.added found (by simp [hafter]) hempty

theorem Carries.foldl_place (finish : Position) (more : List Diagnostic)
    (h : Carries extracted errors commands) :
    Carries extracted (errors ++ more) (more.foldl (place finish) commands) := by
  induction more generalizing errors commands with
  | nil => rwa [List.append_nil]
  | cons error more ih =>
    rw [List.foldl_cons, List.append_cons]
    exact ih (h.step (place_placed finish commands error))

theorem Carries.refl (htexts : ∀ command ∈ extracted, command.text ≠ "") :
    Carries extracted [] extracted where
  perm := by rw [List.append_nil]
  kept := by
    rw [List.filter_eq_self.mpr (by simpa using htexts)]
    exact List.forall₂_same.mpr fun command _ => ⟨[], .slnil, by rw [List.append_nil]⟩
  added command hcommand hempty := absurd hempty (htexts command hcommand)

end Step

end Command

namespace Pad

theorem text_ne_nil_of_mem_extractedCommands {text : String} {occasion : Occasion}
    {command : Command} (h : command ∈ (ofText text).extractedCommands occasion) :
    command.text ≠ "" := by
  obtain ⟨node, hnode, rfl⟩ := List.mem_map.mp h
  have hcommand := (commandNodes text).2 node hnode
  obtain ⟨token, htoken⟩ := List.exists_mem_of_ne_nil _ hcommand.tokens_ne_nil
  intro hempty
  have hchars : node.chars = [] := by
    rw [← String.toList_ofList (l := node.chars)]
    exact congrArg String.toList hempty
  have hnone := List.flatMap_eq_nil_iff.mp hchars token htoken
  exact chars_ne_nil_of_mem_lex (hcommand.lexed token htoken) hnone

theorem carries_commands (text : String) (occasion : Occasion) :
    Command.Carries ((ofText text).extractedCommands occasion) (ofText text).syntaxDiagnostics
      ((ofText text).commands occasion) := by
  have hbefore : Command.Carries ((ofText text).extractedCommands occasion) []
      ((ofText text).extractedCommands occasion) :=
    .refl fun _ => text_ne_nil_of_mem_extractedCommands
  exact hbefore.foldl_place _ _

-- No mistake of a text is lost or told twice, and the commands of the text
-- stay what they are but for the mistakes laid on them.
theorem commands_carry_diagnostics (text : String) (occasion : Occasion) :
    (((ofText text).commands occasion).flatMap Command.errors).Perm
        ((ofText text).lexicalDiagnostics ++ (ofText text).grammarDiagnostics ++
          ((ofText text).extractedCommands occasion).flatMap Command.errors) ∧
      List.Forall₂ (Command.Extends (ofText text).syntaxDiagnostics)
        ((ofText text).extractedCommands occasion)
        (((ofText text).commands occasion).filter (·.text ≠ "")) ∧
      ∀ command ∈ (ofText text).commands occasion,
        command.text = "" → Command.IsPlaceholder command := by
  have hcarries := carries_commands text occasion
  refine ⟨?_, hcarries.kept, hcarries.added⟩
  have hsorted : ((ofText text).syntaxDiagnostics).Perm
      ((ofText text).lexicalDiagnostics ++ (ofText text).grammarDiagnostics) :=
    List.mergeSort_perm _ _
  exact hcarries.perm.trans (List.perm_append_comm.trans (hsorted.append_right _))

end Pad

end QueryPad
