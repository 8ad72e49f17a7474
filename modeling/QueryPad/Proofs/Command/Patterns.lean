import QueryPad.Proofs.Command.Places

-- Where the regular expressions of an argument are found in its value, and
-- what is left of them there.
namespace QueryPad

open Json

namespace Tree

-- The pattern and the flags of a regular expression.
def regex? : Tree → Option (List Char × List Char)
  | .node .literal _ (.terminal token :: _) =>
    if token.kind = .regex then some (Regex.splitLiteral token.chars) else none
  | _ => none

-- The one that stands at a place of an argument.
def regexAt? (argument : Tree) (path : List PathStep) : Option (List Char × List Char) :=
  (held? argument.children).bind fun value => (value.at? path).bind regex?

section Regex

variable {occasion : Occasion} {tree : Tree} {pattern flags : List Char}

-- The object that stands for a regular expression.
def regexObject (pattern flags : List Char) : Json :=
  .object [("$regex", .string (.ofList (Regex.doubleFirstEscape pattern))),
    ("$options", .string (.ofList flags))]

theorem convert_regex (occasion : Occasion) (h : tree.regex? = some (pattern, flags)) :
    tree.convert occasion = .ofExcept tree (match Regex.validate pattern flags with
      | .ok () => .ok (regexObject pattern flags)
      | .error fault => .error (.regex fault.message)) := by
  unfold regex? at h
  split at h
  · next start token more =>
    split at h
    · next hkind =>
      have hsplit := Option.some.inj h
      rw [convert, Literal.ofLeaf, Literal.ofToken, hkind]
      dsimp only
      rw [Literal.regex, hsplit]
      rfl
    · contradiction
  · contradiction

theorem value_of_quietRegex (h : tree.regex? = some (pattern, flags))
    (hquiet : (tree.convert occasion).reports = []) :
    Regex.validate pattern flags = .ok () ∧
      (tree.convert occasion).value = regexObject pattern flags := by
  rw [convert_regex occasion h] at hquiet ⊢
  cases hvalid : Regex.validate pattern flags with
  | ok => exact ⟨rfl, rfl⟩
  | error fault =>
    rw [hvalid] at hquiet
    contradiction

theorem flags_of_validate (h : Regex.validate pattern flags = .ok ()) :
    flags.Nodup ∧ ∀ c ∈ flags, c ∈ Regex.knownFlags := by
  rw [Regex.validate] at h
  by_cases hflags : Regex.flagsInOrder flags
  · simp only [Regex.flagsInOrder, Bool.and_eq_true, List.all_eq_true, decide_eq_true_eq] at hflags
    exact ⟨hflags.1.2, fun c hc => by simpa using hflags.1.1 c hc⟩
  · rw [if_pos (by simpa using hflags)] at h
    contradiction

theorem thin_flags (h : ∀ c ∈ flags, c ∈ Regex.knownFlags) : Regex.thin flags = flags := by
  rw [Regex.thin_eq_self_iff]
  intro c hinner
  exact absurd (h '\\' (hinner.subset (by simp))) (by decide)

-- Options that are known and written once are sorted in the order of the known
-- ones.
theorem options_sorted (hnodup : flags.Nodup) (hknown : ∀ c ∈ flags, c ∈ Bson.knownOptions) :
    Bson.knownOptions.filter flags.contains = flags.mergeSort (· ≤ ·) := by
  have hsorted : Bson.knownOptions.Pairwise (· ≤ ·) := by decide
  have hsame : (Bson.knownOptions.filter flags.contains).Perm flags := by
    refine (List.perm_ext_iff_of_nodup (List.Nodup.filter _ (by decide)) hnodup).mpr fun c => ?_
    simpa using hknown c
  exact List.Perm.eq_of_pairwise' (hsorted.filter _) (List.pairwise_mergeSort' (· ≤ ·) flags)
    (hsame.trans (List.mergeSort_perm flags _).symm)

theorem readRegex_flags {text : String} {value : Bson} (hnodup : flags.Nodup)
    (h : Bson.readRegex text (.ofList flags) = .ok value) :
    value = .regex text (.ofList (flags.mergeSort (· ≤ ·))) := by
  unfold Bson.readRegex at h
  rw [String.toList_ofList] at h
  split at h
  · contradiction
  · next hnone =>
    cases h
    rw [options_sorted hnodup]
    simpa using hnone

end Regex

section Places

variable {occasion : Occasion}

-- What the value at the place of a regular expression is.
def storedRegex (pattern flags : List Char) : Bson :=
  .regex (.ofList (Regex.stored pattern)) (.ofList (flags.mergeSort (· ≤ ·)))

def storedRegex? (tree : Tree) : Option Bson :=
  tree.regex?.map fun regex => storedRegex regex.1 regex.2

theorem keeps_regex (tree : Tree) : Keeps occasion storedRegex? [] tree := by
  intro room read value found hquiet hstored hread hvalue
  obtain ⟨⟨pattern, flags⟩, hregex, rfl⟩ := Option.map_eq_some_iff.mp hstored
  obtain ⟨hvalid, hconvert⟩ := value_of_quietRegex hregex hquiet
  obtain ⟨hnodup, hflags⟩ := flags_of_validate hvalid
  have hkeys : thinText "$regex" = "$regex" ∧ thinText "$options" = "$options" := by decide +kernel
  have hthinned : (tree.convert occasion).value.thinned =
      .object [("$regex", .string (.ofList (Regex.stored pattern))),
        ("$options", .string (.ofList flags))] := by
    simp only [hconvert, regexObject, thinned, thinnedFields, hkeys]
    simp [thinText, Regex.stored, thin_flags hflags]
  rw [hthinned] at hread
  cases room with
  | zero => contradiction
  | succ room =>
    obtain rfl : _ = read := Option.some.inj hread
    refine ⟨by simp, .inl (congrArg some ?_)⟩
    exact readRegex_flags hnodup hvalue

end Places

end Tree

namespace Argument

variable {occasion : Occasion} {start : Nat} {children : List Tree} {path : List PathStep}
  {pattern flags : List Char}

theorem finds_regex (hquiet : (ofTree occasion (.node .argument start children)).2 = [])
    (hregex : (Tree.node .argument start children).regexAt? path = some (pattern, flags)) :
    (ofTree occasion (.node .argument start children)).1.value.Finds path
      (Tree.storedRegex pattern flags) := by
  rw [Tree.regexAt?, ← Option.bind_assoc] at hregex
  obtain ⟨tree, hheld, hregex⟩ := Option.bind_eq_some_iff.mp hregex
  exact finds Tree.keeps_regex hquiet hheld (by rw [Tree.storedRegex?, hregex]; rfl)

-- A regular expression in order, with options that are known, leaves nothing to
-- report.
theorem quiet_of_regex
    (hregex : (Tree.node .argument start children).regexAt? [] = some (pattern, flags))
    (hvalid : Regex.validate pattern flags = .ok ())
    (hread : (Bson.ofExtendedText (.ofList (Regex.halveEscapes
      (Tree.regexObject pattern flags).render.toList))).isOk) :
    (ofTree occasion (.node .argument start children)).2 = [] := by
  obtain ⟨tree, hheld, hregex⟩ := Option.bind_eq_some_iff.mp hregex
  have hheld : Tree.held? children = some tree := hheld
  have hconvert : (Tree.node .argument start children).convert occasion =
      .of (Tree.regexObject pattern flags) := by
    rw [convert_held hheld, Tree.convert_regex occasion hregex, hvalid]
    rfl
  rw [ofTree, hconvert]
  dsimp only [Conversion.of]
  split
  · rfl
  · next herror => simp [herror, Except.isOk, Except.toBool] at hread

end Argument

namespace Pad

-- A regular expression is found at its place with its flags in order. Its
-- pattern is the one that is written if it spares its escapes.
theorem argument_finds_regex (text : String) (occasion : Occasion) (command argument : Tree)
    (hcommand : command ∈ (ofText text).tree.nodesOf .command)
    (hargument : argument ∈ command.recordedArguments)
    (hquiet : (Argument.ofTree occasion argument).2 = []) (path : List PathStep)
    (pattern flags : List Char) (hregex : argument.regexAt? path = some (pattern, flags)) :
    (∃ extracted ∈ (ofText text).extractedCommands occasion, ∃ recorded ∈ extracted.arguments,
      recorded = (Argument.ofTree occasion argument).1 ∧ recorded.value.Finds path
        (.regex (.ofList (Regex.stored pattern)) (.ofList (flags.mergeSort (· ≤ ·))))) ∧
      (Regex.stored pattern = pattern ↔ Regex.SparesEscapes pattern) := by
  refine ⟨⟨_, List.mem_map_of_mem hcommand, _, ?_, rfl, ?_⟩, Regex.stored_eq_self_iff pattern⟩
  · exact List.mem_map_of_mem (List.mem_map_of_mem hargument)
  · obtain ⟨start, children, rfl⟩ := Tree.exists_argument hargument
    exact Argument.finds_regex hquiet hregex

-- One escape.
theorem argument_finds_digit :
    ∃ command ∈ (ofText "db.c.f(/\\d/i)").tree.nodesOf .command,
      ∃ argument ∈ command.recordedArguments,
        (∃ extracted ∈ (ofText "db.c.f(/\\d/i)").extractedCommands ⟨⟨0, 0⟩, ⟨0⟩⟩,
          ∃ recorded ∈ extracted.arguments, recorded = (Argument.ofTree ⟨⟨0, 0⟩, ⟨0⟩⟩ argument).1 ∧
            recorded.value.Finds [] (.regex (.ofList (Regex.stored ['\\', 'd']))
              (.ofList (['i'].mergeSort (· ≤ ·))))) ∧
        (Regex.stored ['\\', 'd'] = ['\\', 'd'] ↔ Regex.SparesEscapes ['\\', 'd']) := by
  have hsome : ∃ command ∈ (ofText "db.c.f(/\\d/i)").tree.nodesOf .command,
      ∃ argument ∈ command.recordedArguments,
        argument.regexAt? [] = some (['\\', 'd'], ['i']) := by decide +kernel
  obtain ⟨command, hcommand, argument, hargument, hregex⟩ := hsome
  have hquiet : (Argument.ofTree ⟨⟨0, 0⟩, ⟨0⟩⟩ argument).2 = [] := by
    obtain ⟨start, children, rfl⟩ := Tree.exists_argument hargument
    exact Argument.quiet_of_regex hregex (by cbv) (by decide +kernel)
  exact ⟨command, hcommand, argument, hargument,
    argument_finds_regex "db.c.f(/\\d/i)" ⟨⟨0, 0⟩, ⟨0⟩⟩ command argument hcommand hargument hquiet
      [] ['\\', 'd'] ['i'] hregex⟩

-- A second escape that is written with two backslashes loses one of them.
theorem argument_halves_escape :
    ¬ ∀ (text : String) (occasion : Occasion) (command argument : Tree),
      command ∈ (ofText text).tree.nodesOf .command → argument ∈ command.recordedArguments →
      (Argument.ofTree occasion argument).2 = [] →
      ∀ pattern flags : List Char, argument.regexAt? [] = some (pattern, flags) →
        (Argument.ofTree occasion argument).1.value =
          .regex (.ofList pattern) (.ofList (flags.mergeSort (· ≤ ·))) := by
  intro hall
  have hsome : ∃ command ∈ (ofText "db.c.f(/\\d\\\\d/)").tree.nodesOf .command,
      ∃ argument ∈ command.recordedArguments,
        argument.regexAt? [] = some (['\\', 'd', '\\', '\\', 'd'], []) := by decide +kernel
  obtain ⟨command, hcommand, argument, hargument, hregex⟩ := hsome
  have hclaimed := hall _ ⟨⟨0, 0⟩, ⟨0⟩⟩ command argument hcommand hargument
  obtain ⟨start, children, rfl⟩ := Tree.exists_argument hargument
  have hquiet : (Argument.ofTree ⟨⟨0, 0⟩, ⟨0⟩⟩ (.node .argument start children)).2 = [] :=
    Argument.quiet_of_regex hregex (by cbv) (by decide +kernel)
  have hfinds := Argument.finds_regex hquiet hregex
  rw [hclaimed hquiet _ _ hregex] at hfinds
  rcases hfinds with hfound | ⟨above, millis, habove, hdate⟩
  · have hpattern := (Bson.regex.inj (Option.some.inj hfound)).1
    revert hpattern
    decide +kernel
  · obtain rfl := List.prefix_nil.mp habove
    simp [Bson.at?] at hdate

end Pad

end QueryPad
