import QueryPad.Proofs.Command.Placement
import QueryPad.Proofs.Command.Reports

-- The commands of a text stand one behind the other, those that were made to
-- hold errors among them.
namespace QueryPad

open Text

namespace Command

structure Ordered (commands : List Command) : Prop where
  apart : commands.Pairwise fun a b => a.range.stop ≤ b.range.start
  each : ∀ command ∈ commands, command.range.start ≤ command.range.stop

namespace Ordered

variable {commands before after first second : List Command} {command : Command} {p : Position}

-- A command that starts behind a place has all the later ones behind it.
theorem le_start_of_head? (h : Ordered commands)
    (hnext : ∀ next ∈ commands.head?, ¬ next.range.start ≤ p) :
    ∀ other ∈ commands, p ≤ other.range.start := by
  cases commands with
  | nil => simp
  | cons next rest =>
    have hbehind := Position.le_of_lt (Position.not_le.mp (hnext next rfl))
    intro other hother
    rcases List.mem_cons.mp hother with rfl | hrest
    · exact hbehind
    · have hreach := h.each next (by simp)
      have hapart := (List.pairwise_cons.mp h.apart).1 other hrest
      exact Position.le_trans (Position.le_trans hbehind hreach) hapart

theorem withError {error : Diagnostic} (h : Ordered (before ++ command :: after)) :
    Ordered (before ++ command.withError error :: after) where
  apart := by simpa [List.pairwise_append, Command.withError] using h.apart
  each := by simpa [or_imp, forall_and, Command.withError] using h.each

theorem placeholder {error : Diagnostic} (h : Ordered (first ++ second))
    (hempty : error.range = .emptyAt p)
    (hnone : ∀ other ∈ first ++ second, ¬ other.range.holds p)
    (hfirst : ∀ other ∈ first, other.range.start ≤ p)
    (hsecond : ∀ next ∈ second.head?, ¬ next.range.start ≤ p) :
    Ordered (first ++ Command.placeholder error :: second) := by
  have hstart : (Command.placeholder error).range.start = p := congrArg Range.start hempty
  have hstop : (Command.placeholder error).range.stop = p := congrArg Range.stop hempty
  obtain ⟨hbefore, hafter, hcross⟩ := List.pairwise_append.mp h.apart
  constructor
  · refine List.pairwise_append.mpr ⟨hbefore, .cons ?_ hafter, ?_⟩
    · rw [hstop]
      exact le_start_of_head? ⟨hafter, fun other hother => h.each other (by simp [hother])⟩ hsecond
    · intro a ha b hb
      rcases List.mem_cons.mp hb with rfl | hb
      · rw [hstart]
        exact Range.stop_le_of_not_holds (hfirst a ha) (hnone a (by simp [ha]))
      · exact hcross a ha b hb
  · intro other hother
    rcases List.mem_append.mp hother with hother | hother
    · exact h.each other (by simp [hother])
    · rcases List.mem_cons.mp hother with rfl | hother
      · rw [hstart, hstop]
        exact Position.le_refl p
      · exact h.each other (by simp [hother])

theorem place {error : Diagnostic} (finish : Position) (h : Ordered commands)
    (hempty : error.range = .emptyAt error.range.start) :
    Ordered (Command.place finish commands error) := by
  rcases place_cases finish commands error with
    ⟨before, command, after, rfl, _, hplace⟩ |
    ⟨first, second, rfl, hnone, hfirst, hsecond, hplace⟩
  · exact hplace ▸ h.withError
  · rw [hplace]
    exact h.placeholder hempty (fun other hother => (hnone other hother).1.1) hfirst hsecond

theorem foldl_place {errors : List Diagnostic} (finish : Position) (h : Ordered commands)
    (hempty : ∀ error ∈ errors, error.range = .emptyAt error.range.start) :
    Ordered (errors.foldl (Command.place finish) commands) := by
  induction errors generalizing commands with
  | nil => exact h
  | cons error errors ih =>
    exact ih (h.place finish (hempty error (by simp))) fun other hother =>
      hempty other (by simp [hother])

end Ordered

end Command

namespace Pad

open Command

-- The place of a mistake has no width.
theorem exists_offset_of_mem_syntaxDiagnostics {pad : Pad} {error : Diagnostic}
    (h : error ∈ pad.syntaxDiagnostics) :
    ∃ offset, error.range = .emptyAt (pad.index.positionAt offset) := by
  rw [syntaxDiagnostics, Diagnostic.sortByStart, List.mem_mergeSort, List.mem_append] at h
  rcases h with h | h <;>
  · obtain ⟨report, _, rfl⟩ := List.mem_map.mp h
    exact ⟨report.span.start, rfl⟩

theorem range_of_mem_syntaxDiagnostics {pad : Pad} {error : Diagnostic}
    (h : error ∈ pad.syntaxDiagnostics) : error.range = .emptyAt error.range.start := by
  obtain ⟨offset, hrange⟩ := exists_offset_of_mem_syntaxDiagnostics h
  rw [hrange]
  rfl

theorem extractedCommands_ordered (text : String) (occasion : Occasion) :
    Ordered ((ofText text).extractedCommands occasion) := by
  obtain ⟨hapart, hnodes⟩ := commandNodes text
  constructor
  · refine List.pairwise_map.mpr (hapart.imp_of_mem fun {a b} ha hb htokens => ?_)
    obtain ⟨last, hlast, hstop⟩ := Tree.exists_last (hnodes a ha).tokens_ne_nil
    obtain ⟨first, hfirst, hstart⟩ :=
      Tree.exists_first (hnodes b hb).anchored (hnodes b hb).tokens_ne_nil
    have hle : a.span.stop ≤ b.span.start := by
      rw [hstop, hstart]
      exact htokens last hlast first hfirst
    exact LineIndex.positionAt_mono _ hle
  · intro command hcommand
    obtain ⟨node, hnode, rfl⟩ := List.mem_map.mp hcommand
    exact LineIndex.positionAt_mono _ (hnodes node hnode).span_le

-- The commands of a text come in its order and do not overlap, and none ends
-- before it starts.
theorem commands_ordered (text : String) (occasion : Occasion) :
    ((ofText text).commands occasion).Pairwise (fun a b => a.range.stop ≤ b.range.start) ∧
      ∀ command ∈ (ofText text).commands occasion,
        command.range.start ≤ command.range.stop := by
  have hordered : Ordered ((ofText text).commands occasion) :=
    (extractedCommands_ordered text occasion).foldl_place (ofText text).finish
      fun _ => range_of_mem_syntaxDiagnostics
  exact ⟨hordered.apart, hordered.each⟩

end Pad

end QueryPad
