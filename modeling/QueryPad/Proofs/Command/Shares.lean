import QueryPad.Proofs.Command.Lookup
import QueryPad.Proofs.Command.Placement

-- Which command of a text carries which mistake. The commands alone decide it,
-- but for what lies at the end of the text, where a placeholder may be the last
-- of the list.
namespace QueryPad

open Text

namespace Command

section Policy

variable (finish : Position) (extracted : List Command) (errors : List Diagnostic)

-- Whether a mistake lies on a line below all commands, and not at the end of
-- the text.
def strays : Bool :=
  errors.any fun error => error.range.start ≠ finish &&
    extracted.all fun command => command.range.stop.line < error.range.start.line

-- The command of the text that carries an error. With a stray about, the list
-- ends with a placeholder, and what lies at the end of the text, behind all
-- commands, goes there and not to the last of them.
def realCarrier? (error : Diagnostic) : Option Nat :=
  carrier? extracted error.range.start
    (error.range.start = finish && !strays finish extracted errors)

-- A command with the errors that are its own among some.
def withShare (done : List Diagnostic) (index : Nat) (command : Command) : Command :=
  { command with
    errors := command.errors ++
      done.filter (realCarrier? finish extracted errors · = some index) }

end Policy

-- Whether a command stands in the text.
def isReal (command : Command) : Bool := command.text ≠ ""

@[simp] theorem isReal_withError (command : Command) (error : Diagnostic) :
    (command.withError error).isReal = command.isReal := rfl

@[simp] theorem isReal_placeholder (error : Diagnostic) : (placeholder error).isReal = false := rfl

-- The commands of a text and the mistakes in it, from the first to the last.
structure Scene (finish : Position) (extracted : List Command) (errors : List Diagnostic) :
    Prop where
  ordered : Ordered extracted
  texts : ∀ command ∈ extracted, command.text ≠ ""
  stops : ∀ command ∈ extracted, command.range.stop ≤ finish
  widths : ∀ error ∈ errors, error.range = .emptyAt error.range.start
  starts : ∀ error ∈ errors, error.range.start ≤ finish
  sorted : errors.Pairwise fun a b => a.range.start ≤ b.range.start

-- What the list looks like once some of the mistakes are laid.
structure Shared (finish : Position) (extracted : List Command) (errors done : List Diagnostic)
    (commands : List Command) : Prop where
  ordered : Ordered commands
  real : commands.filter isReal = extracted.mapIdx (withShare finish extracted errors done)
  held : ((commands.filter (!isReal ·)).flatMap Command.errors).Perm
    (done.filter (realCarrier? finish extracted errors · = none))
  -- no placeholder lies where a command of the text would have carried its error
  origin : ∀ command ∈ commands, ¬ command.isReal → ∃ error ∈ done,
    command.range = error.range ∧
      NoneCarries error.range.start (error.range.start = finish) extracted
  present : ∀ error ∈ done, error.range.start ≠ finish →
    NoneCarries error.range.start false extracted →
      ∃ command ∈ commands, ¬ command.isReal ∧
        command.range.stop.line = error.range.start.line

section Filter

variable {before after : List Command} {command : Command} {p : Position} {atEnd atEnd' : Bool}

theorem CarriesAt.filter (keeps : Command → Bool) (h : CarriesAt p atEnd before command after)
    (hlast : (∀ other ∈ before ++ command :: after,
        ¬ other.range.holds p ∧ other.range.stop.line ≠ p.line) → atEnd →
      (∀ other ∈ after, ¬ other.range.stop ≤ p) → atEnd') :
    CarriesAt p atEnd' (before.filter keeps) command (after.filter keeps) := by
  have hsub : ∀ other ∈ before.filter keeps ++ command :: after.filter keeps,
      other ∈ before ++ command :: after := by
    intro other hother
    simp only [List.mem_append, List.mem_cons, List.mem_filter] at hother ⊢
    tauto
  cases h with
  | inside hcommand hbefore =>
    exact .inside hcommand fun other hother => hbefore other (List.mem_of_mem_filter hother)
  | line hnone hcommand hafter =>
    exact .line (fun other hother => hnone other (hsub other hother)) hcommand
      fun other hother => hafter other (List.mem_of_mem_filter hother)
  | last hnone hend hcommand hafter =>
    exact .last (fun other hother => hnone other (hsub other hother)) (hlast hnone hend hafter)
      hcommand fun other hother => hafter other (List.mem_of_mem_filter hother)

end Filter

variable {finish : Position} {extracted commands before after : List Command}
  {errors done more : List Diagnostic} {command : Command} {error : Diagnostic}

theorem strays_iff : strays finish extracted errors ↔ ∃ error ∈ errors,
    error.range.start ≠ finish ∧
      ∀ command ∈ extracted, command.range.stop.line < error.range.start.line := by
  simp [strays]

theorem range_withShare (index : Nat) :
    (withShare finish extracted errors done index command).range = command.range := rfl

theorem withShare_append (index : Nat) :
    withShare finish extracted errors (done ++ [error]) index command =
      if realCarrier? finish extracted errors error = some index then
        (withShare finish extracted errors done index command).withError error
      else withShare finish extracted errors done index command := by
  by_cases h : realCarrier? finish extracted errors error = some index <;>
    simp [withShare, withError, h]

-- An error that has a carrier goes to it alone.
theorem mapIdx_withShare_of_some {index : Nat}
    (h : realCarrier? finish extracted errors error = some index) :
    commands.mapIdx (withShare finish extracted errors (done ++ [error])) =
      (commands.mapIdx (withShare finish extracted errors done)).modify index
        (·.withError error) := by
  refine List.ext_getElem (by simp) fun place _ _ => ?_
  simp only [List.getElem_mapIdx, withShare_append, h, Option.some.injEq, List.getElem_modify]

theorem mapIdx_withShare_of_none (h : realCarrier? finish extracted errors error = none) :
    commands.mapIdx (withShare finish extracted errors (done ++ [error])) =
      commands.mapIdx (withShare finish extracted errors done) := by
  refine List.ext_getElem (by simp) fun place _ _ => ?_
  simp [withShare_append, h]

namespace Shared

section State

variable (h : Shared finish extracted errors done commands)

include h

theorem ranges : (commands.filter isReal).map Command.range = extracted.map Command.range := by
  rw [h.real]
  refine List.ext_getElem (by simp) fun index _ _ => ?_
  simp [range_withShare]

theorem exists_real {old : Command} (hold : old ∈ extracted) :
    ∃ command ∈ commands, command.isReal ∧ command.range = old.range := by
  have hmem : old.range ∈ (commands.filter isReal).map Command.range :=
    h.ranges ▸ List.mem_map_of_mem hold
  obtain ⟨command, hcommand, hrange⟩ := List.mem_map.mp hmem
  obtain ⟨hcommand, hreal⟩ := List.mem_filter.mp hcommand
  exact ⟨command, hcommand, hreal, hrange⟩

theorem exists_extracted (hcommand : command ∈ commands) (hreal : command.isReal) :
    ∃ old ∈ extracted, old.range = command.range := by
  have hmem : command.range ∈ extracted.map Command.range :=
    h.ranges ▸ List.mem_map_of_mem (List.mem_filter.mpr ⟨hcommand, hreal⟩)
  obtain ⟨old, hold, hrange⟩ := List.mem_map.mp hmem
  exact ⟨old, hold, hrange⟩

-- Where no command of the list carries anything, none of the text does.
theorem noneCarries_extracted {p : Position} {atEnd : Bool} (hnone : NoneCarries p atEnd commands) :
    NoneCarries p atEnd extracted := by
  intro old hold
  obtain ⟨command, hcommand, _, hrange⟩ := h.exists_real hold
  exact hrange ▸ hnone command hcommand

end State

section Step

variable (scene : Scene finish extracted (done ++ error :: more))

include scene

-- A placeholder lies where its first error does.
theorem exists_cause (h : Shared finish extracted (done ++ error :: more) done commands)
    (hcommand : command ∈ commands) (hplaceholder : ¬ command.isReal) :
    ∃ cause ∈ done, command.range = .emptyAt cause.range.start ∧
      NoneCarries cause.range.start (cause.range.start = finish) extracted := by
  obtain ⟨cause, hcause, hrange, hnone⟩ := h.origin command hcommand hplaceholder
  exact ⟨cause, hcause, hrange.trans (scene.widths cause (by simp [hcause])), hnone⟩

theorem stop_le_finish (h : Shared finish extracted (done ++ error :: more) done commands)
    (hcommand : command ∈ commands) : command.range.stop ≤ finish := by
  by_cases hreal : command.isReal
  · obtain ⟨old, hold, hrange⟩ := h.exists_extracted hcommand hreal
    exact hrange ▸ scene.stops old hold
  · obtain ⟨cause, hcause, hrange, _⟩ := h.exists_cause scene hcommand hreal
    rw [hrange]
    exact scene.starts cause (by simp [hcause])

-- From an error at the end of the text on, all lie there.
theorem mem_done_of_ne_finish {stray : Diagnostic} (hstray : stray ∈ done ++ error :: more)
    (hfront : stray.range.start ≠ finish) (hend : error.range.start = finish) : stray ∈ done := by
  rcases List.mem_append.mp hstray with hdone | hlater
  · exact hdone
  · have hsorted := (List.pairwise_cons.mp (List.pairwise_append.mp scene.sorted).2.1).1
    have hle : error.range.start ≤ stray.range.start := by
      rcases List.mem_cons.mp hlater with rfl | hlater
      · exact Position.le_refl _
      · exact hsorted stray hlater
    exact absurd (Position.le_antisymm (scene.starts stray hstray) (hend ▸ hle)) hfront

section Carried

variable (h : Shared finish extracted (done ++ error :: more) done (before ++ command :: after))

include h

-- The placeholder of a stray would stand behind the last command of the text.
theorem not_strays_of_last (hreal : command.isReal) (hend : error.range.start = finish)
    (hafter : ∀ other ∈ after, ¬ other.range.stop ≤ error.range.start) :
    strays finish extracted (done ++ error :: more) = false := by
  refine eq_false_of_ne_true fun hstrays => ?_
  obtain ⟨stray, hstray, hfront, hbelow⟩ := strays_iff.mp hstrays
  have hdone := mem_done_of_ne_finish scene hstray hfront hend
  have hnone : NoneCarries stray.range.start false extracted := by
    intro old hold
    have hline := hbelow old hold
    refine ⟨⟨fun hholds => ?_, by omega⟩, by simp⟩
    have := Position.line_le (Range.holds_iff.mp hholds).2
    omega
  obtain ⟨other, hother, hplaceholder, hline⟩ := h.present stray hdone hfront hnone
  have hself : command ∈ before ++ command :: after := by simp
  obtain ⟨old, hold, hrange⟩ := h.exists_extracted hself hreal
  have hbelow := hbelow old hold
  rw [hrange] at hbelow
  rcases List.mem_append.mp hother with hbefore | hother
  · have hapart := (List.pairwise_append.mp h.ordered.apart).2.2 other hbefore command (by simp)
    have hle := Position.line_le (Position.le_trans hapart (h.ordered.each command hself))
    omega
  · rcases List.mem_cons.mp hother with rfl | hlater
    · exact hplaceholder hreal
    · have hmem : other ∈ before ++ command :: after := by simp [hlater]
      exact hafter other hlater (hend ▸ h.stop_le_finish scene hmem)

theorem realCarrier?_eq_some (hreal : command.isReal)
    (hcarries : CarriesAt error.range.start (error.range.start = finish) before command after) :
    realCarrier? finish extracted (done ++ error :: more) error =
      some (before.filter isReal).length := by
  have hfilter : (before ++ command :: after).filter isReal =
      before.filter isReal ++ command :: after.filter isReal := by
    rw [List.filter_append, List.filter_cons_of_pos hreal]
  have hranges := h.ranges
  rw [hfilter] at hranges
  rw [realCarrier?, ← carrier?_congr hranges]
  refine (hcarries.filter isReal fun _ hend hafter => ?_).carrier?_eq
  have hend : error.range.start = finish := of_decide_eq_true hend
  rw [h.not_strays_of_last scene hreal hend hafter]
  simpa using hend

-- A placeholder that carries what lies at the end of the text, from before it,
-- has all commands of the text on lines above.
theorem strays_of_placeholder (hplaceholder : ¬ command.isReal)
    (hend : error.range.start = finish)
    (houtside : ¬ command.range.holds error.range.start)
    (hcarries : CarriesAt error.range.start true before command after) :
    strays finish extracted (done ++ error :: more) := by
  have hself : command ∈ before ++ command :: after := by simp
  obtain ⟨cause, hcause, hrange, hnone⟩ := h.exists_cause scene hself hplaceholder
  have hfront : cause.range.start ≠ finish := by
    intro hsame
    rw [hrange, Range.holds_emptyAt] at houtside
    exact houtside (hsame.trans hend.symm)
  refine strays_iff.mpr ⟨cause, by simp [hcause], hfront, fun old hold => ?_⟩
  have hline := (hnone old hold).1.2
  cases hcarries with
  | inside hcommand => exact absurd hcommand houtside
  | line _ hcommand =>
    have hle := Position.line_le (scene.stops old hold)
    rw [hrange, hend] at hcommand
    have hsame : cause.range.start.line = finish.line := hcommand
    omega
  | last _ _ _ hafter =>
    obtain ⟨other, hother, hreal, hsame⟩ := h.exists_real hold
    rcases List.mem_append.mp hother with hbefore | hother
    · have hapart := (List.pairwise_append.mp h.ordered.apart).2.2 other hbefore command (by simp)
      rw [hsame, hrange] at hapart
      have hle : old.range.stop.line ≤ cause.range.start.line := Position.line_le hapart
      omega
    · rcases List.mem_cons.mp hother with rfl | hlater
      · exact absurd hreal hplaceholder
      · have hmem : other ∈ before ++ command :: after := by simp [hlater]
        exact absurd (hend ▸ h.stop_le_finish scene hmem) (hafter other hlater)

-- What a placeholder carries, no command of the text does.
theorem realCarrier?_eq_none (hplaceholder : ¬ command.isReal)
    (hcarries : CarriesAt error.range.start (error.range.start = finish) before command after) :
    realCarrier? finish extracted (done ++ error :: more) error = none := by
  have hself : command ∈ before ++ command :: after := by simp
  obtain ⟨cause, hcause, hrange, hnone⟩ := h.exists_cause scene hself hplaceholder
  refine NoneCarries.carrier?_eq fun old hold => ?_
  obtain ⟨⟨hinside, hline⟩, hlast⟩ := hnone old hold
  by_cases hholds : command.range.holds error.range.start
  · rw [hrange, Range.holds_emptyAt] at hholds
    rw [hholds] at hinside hline hlast
    exact ⟨⟨hinside, hline⟩, fun hend => hlast (Bool.and_eq_true _ _ ▸ hend).1⟩
  obtain ⟨other, hother, hreal, hsame⟩ := h.exists_real hold
  refine ⟨?_, fun hend => ?_⟩
  · cases hcarries with
    | inside hcommand => exact absurd hcommand hholds
    | line hout hcommand =>
      rw [hrange] at hcommand
      exact ⟨hsame ▸ hout other hother, hcommand ▸ hline⟩
    | last hout => exact hsame ▸ hout other hother
  · simp only [Bool.and_eq_true, decide_eq_true_eq, Bool.not_eq_true'] at hend
    have hcarries : CarriesAt error.range.start true before command after := by
      simpa [hend.1] using hcarries
    have hstrays := h.strays_of_placeholder scene hplaceholder hend.1 hholds hcarries
    rw [hend.2] at hstrays
    contradiction

-- A mistake in front of the end that no command of the text carries lies on the
-- line of the placeholder that does.
theorem line_of_placeholder (hfront : error.range.start ≠ finish)
    (hnone : NoneCarries error.range.start false extracted)
    (hcarries : CarriesAt error.range.start (error.range.start = finish) before command after) :
    ¬ command.isReal ∧ command.range.stop.line = error.range.start.line := by
  have hself : command ∈ before ++ command :: after := by simp
  have hcases : command.range.holds error.range.start ∨
      command.range.stop.line = error.range.start.line := by
    cases hcarries with
    | inside hcommand => exact .inl hcommand
    | line _ hcommand => exact .inr hcommand
    | last _ hend => exact absurd (of_decide_eq_true hend) hfront
  have hplaceholder : ¬ command.isReal := by
    intro hreal
    obtain ⟨old, hold, hrange⟩ := h.exists_extracted hself hreal
    have hold := (hnone old hold).1
    rw [hrange] at hold
    exact hcases.elim hold.1 hold.2
  refine ⟨hplaceholder, hcases.elim (fun hholds => ?_) id⟩
  obtain ⟨cause, _, hrange, _⟩ := h.exists_cause scene hself hplaceholder
  rw [hrange, Range.holds_emptyAt] at hholds
  rw [hrange, ← hholds]
  rfl

theorem carried
    (hcarries : CarriesAt error.range.start (error.range.start = finish) before command after) :
    Shared finish extracted (done ++ error :: more) (done ++ [error])
      (before ++ command.withError error :: after) where
  ordered := h.ordered.withError
  real := by
    have hreal := h.real
    rw [List.filter_append] at hreal ⊢
    by_cases hself : command.isReal
    · have hcarrier := h.realCarrier?_eq_some scene hself hcarries
      rw [List.filter_cons_of_pos hself] at hreal
      rw [List.filter_cons_of_pos (by simpa using hself), mapIdx_withShare_of_some hcarrier,
        ← hreal, modify_append]
    · have hcarrier := h.realCarrier?_eq_none scene hself hcarries
      rw [List.filter_cons_of_neg hself] at hreal
      rw [List.filter_cons_of_neg (by simpa using hself), mapIdx_withShare_of_none hcarrier, hreal]
  held := by
    have hheld := h.held
    rw [List.filter_append] at hheld ⊢
    by_cases hself : command.isReal
    · have hcarrier := h.realCarrier?_eq_some scene hself hcarries
      rw [List.filter_cons_of_neg (by simpa using hself)] at hheld
      rw [List.filter_cons_of_neg (by simpa using hself)]
      simpa [hcarrier] using hheld
    · have hcarrier := h.realCarrier?_eq_none scene hself hcarries
      rw [List.filter_cons_of_pos (by simpa using hself)] at hheld
      rw [List.filter_cons_of_pos (by simpa using hself)]
      refine (flatMap_errors_perm (.carried _ command _)).trans ?_
      simpa [hcarrier] using hheld.append_right [error]
  origin := by
    intro other hother hplaceholder
    obtain ⟨old, hold, hrange, htext⟩ := exists_old_of_mem hother
    rw [isReal, ← htext] at hplaceholder
    obtain ⟨cause, hcause, hsame, hnone⟩ := h.origin old hold hplaceholder
    exact ⟨cause, by simp [hcause], hrange ▸ hsame, hnone⟩
  present := by
    intro stray hstray hfront hnone
    have hfound : ∃ old ∈ before ++ command :: after, ¬ old.isReal ∧
        old.range.stop.line = stray.range.start.line := by
      rcases List.mem_append.mp hstray with hdone | hself
      · exact h.present stray hdone hfront hnone
      · obtain rfl := List.mem_singleton.mp hself
        exact ⟨command, by simp, h.line_of_placeholder scene hfront hnone hcarries⟩
    obtain ⟨old, hold, hplaceholder, hline⟩ := hfound
    obtain ⟨other, hother, hrange, htext⟩ := exists_new_of_mem hold error
    exact ⟨other, hother, by rwa [isReal, htext], by rwa [hrange]⟩

end Carried

theorem added {first second : List Command}
    (h : Shared finish extracted (done ++ error :: more) done (first ++ second))
    (hnone : NoneCarries error.range.start (error.range.start = finish) (first ++ second))
    (hordered : Ordered (first ++ placeholder error :: second)) :
    Shared finish extracted (done ++ error :: more) (done ++ [error])
      (first ++ placeholder error :: second) := by
  have hextracted := h.noneCarries_extracted hnone
  have hcarrier : realCarrier? finish extracted (done ++ error :: more) error = none := by
    refine NoneCarries.carrier?_eq fun old hold => ⟨(hextracted old hold).1, fun hend => ?_⟩
    exact (hextracted old hold).2 (Bool.and_eq_true _ _ ▸ hend).1
  refine ⟨hordered, ?_, ?_, ?_, ?_⟩
  · rw [List.filter_append, List.filter_cons_of_neg (by simp),
      ← List.filter_append, h.real, mapIdx_withShare_of_none hcarrier]
  · rw [List.filter_append, List.filter_cons_of_pos (by simp), List.filter_append]
    refine (flatMap_errors_perm (.added _ _)).trans ?_
    rw [← List.filter_append]
    simpa [hcarrier] using h.held.append_right [error]
  · intro other hother hplaceholder
    have hcases : other = placeholder error ∨ other ∈ first ++ second := by
      simp only [List.mem_append, List.mem_cons] at hother ⊢
      tauto
    rcases hcases with rfl | hold
    · exact ⟨error, by simp, rfl, hextracted⟩
    · obtain ⟨cause, hcause, hsame, hnone⟩ := h.origin other hold hplaceholder
      exact ⟨cause, by simp [hcause], hsame, hnone⟩
  · intro stray hstray hfront hstrayNone
    rcases List.mem_append.mp hstray with hdone | hself
    · obtain ⟨other, hother, hplaceholder, hline⟩ := h.present stray hdone hfront hstrayNone
      refine ⟨other, ?_, hplaceholder, hline⟩
      simp only [List.mem_append, List.mem_cons] at hother ⊢
      tauto
    · obtain rfl := List.mem_singleton.mp hself
      have hrange := scene.widths stray (by simp)
      refine ⟨placeholder stray, by simp, by simp, ?_⟩
      rw [show (placeholder stray).range = .emptyAt stray.range.start from hrange]
      rfl

theorem place (h : Shared finish extracted (done ++ error :: more) done commands) :
    Shared finish extracted (done ++ error :: more) (done ++ [error])
      (Command.place finish commands error) := by
  have hordered := h.ordered.place finish (scene.widths error (by simp))
  rcases place_cases finish commands error with
    ⟨before, command, after, rfl, hcarries, hplace⟩ | ⟨first, second, rfl, hnone, _, _, hplace⟩
  · rw [hplace]
    exact h.carried scene hcarries
  · rw [hplace] at hordered ⊢
    exact h.added scene hnone hordered

end Step

theorem foldl_place (scene : Scene finish extracted (done ++ more))
    (h : Shared finish extracted (done ++ more) done commands) :
    Shared finish extracted (done ++ more) (done ++ more)
      (more.foldl (Command.place finish) commands) := by
  induction more generalizing done commands with
  | nil => rwa [List.append_nil] at h ⊢
  | cons error more ih =>
    have hstep := h.place scene
    rw [List.append_cons] at scene hstep ⊢
    exact ih scene hstep

theorem refl (scene : Scene finish extracted errors) :
    Shared finish extracted errors [] extracted := by
  have hreal : ∀ command ∈ extracted, command.isReal := by simpa [isReal] using scene.texts
  refine ⟨scene.ordered, ?_, ?_, fun command hcommand hplaceholder => ?_, by simp⟩
  · rw [List.filter_eq_self.mpr hreal]
    refine List.ext_getElem (by simp) fun index _ _ => ?_
    simp [withShare]
  · rw [List.filter_eq_nil_iff.mpr (by simpa using hreal)]
    exact .refl _
  · exact absurd (hreal command hcommand) hplaceholder

end Shared

end Command

namespace Pad

open Command

theorem scene (text : String) (occasion : Occasion) :
    Scene (ofText text).finish ((ofText text).extractedCommands occasion)
      (ofText text).syntaxDiagnostics where
  ordered := extractedCommands_ordered text occasion
  texts _ := text_ne_nil_of_mem_extractedCommands
  stops := by
    intro command hcommand
    obtain ⟨node, _, rfl⟩ := List.mem_map.mp hcommand
    exact LineIndex.positionAt_le_end text.toList node.span.stop
  widths _ := range_of_mem_syntaxDiagnostics
  starts _ := start_le_finish_of_mem_syntaxDiagnostics
  sorted := syntaxDiagnostics_sorted _

-- Each command of a text carries its own share of the mistakes, and what no
-- command of the text carries is left to placeholders.
theorem commands_share_diagnostics (text : String) (occasion : Occasion) :
    ((ofText text).commands occasion).filter (·.text ≠ "") =
        ((ofText text).extractedCommands occasion).mapIdx
          (withShare (ofText text).finish ((ofText text).extractedCommands occasion)
            (ofText text).syntaxDiagnostics (ofText text).syntaxDiagnostics) ∧
      ((((ofText text).commands occasion).filter (·.text = "")).flatMap Command.errors).Perm
        ((ofText text).syntaxDiagnostics.filter fun error =>
          realCarrier? (ofText text).finish ((ofText text).extractedCommands occasion)
            (ofText text).syntaxDiagnostics error = none) := by
  have hscene := scene text occasion
  have hshared : Shared (ofText text).finish ((ofText text).extractedCommands occasion)
      (ofText text).syntaxDiagnostics (ofText text).syntaxDiagnostics
      ((ofText text).commands occasion) :=
    Shared.foldl_place (List.nil_append _ ▸ hscene) (.refl hscene)
  refine ⟨hshared.real, ?_⟩
  simpa [isReal] using hshared.held

-- A call that is left open is not told what it lacks if a stray mistake stands
-- between it and the end of the text.
theorem commands_aside_openCall :
    ¬ ∀ (text : String) (occasion : Occasion),
      ((ofText text).commands occasion).filter (·.text ≠ "") =
        ((ofText text).extractedCommands occasion).mapIdx fun index command =>
          { command with
            errors := command.errors ++ (ofText text).syntaxDiagnostics.filter fun error =>
              carrier? ((ofText text).extractedCommands occasion) error.range.start
                (error.range.start = (ofText text).finish) = some index } := by
  intro hall
  have hcounts := congrArg (List.map fun command => command.errors.length)
    (hall openCall ⟨⟨0, 0⟩, ⟨0⟩⟩)
  rw [commands, syntaxDiagnostics_openCall] at hcounts
  revert hcounts
  decide +kernel

end Pad

end QueryPad
