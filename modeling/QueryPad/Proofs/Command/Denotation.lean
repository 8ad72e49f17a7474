import QueryPad.Command.Placement
import QueryPad.Proofs.Command.Members
import QueryPad.Proofs.Command.Placement
import QueryPad.Proofs.Json.Rereading

-- What the value of an argument has to do with its text.
namespace QueryPad

open Calendar Json

namespace Literal

theorem distinctKeys_single (key text : String) : DistinctKeys (.object [(key, .string text)]) :=
  .object (by simp) (by simpa using .string text)

theorem distinctKeys_regex {chars : List Char} {json : Json} (h : regex chars = .ok json) :
    json.DistinctKeys := by
  rw [regex] at h
  dsimp only at h
  split at h
  · cases h
    exact .object (by simp) (by simpa using ⟨.string _, .string _⟩)
  · contradiction

theorem distinctKeys_ofToken {whole : Tree} {token : Token} {json : Json}
    (h : ofToken whole token = .ok json) : json.DistinctKeys := by
  unfold ofToken at h
  split at h
  · cases h
    exact .string _
  · cases h
    exact .null
  · cases h
    exact .bool _
  · split at h
    · cases h
      exact .number _
    · contradiction
  · exact distinctKeys_regex h
  · contradiction

theorem distinctKeys_date {occasion : Occasion} {layout : Layout} {text : Option (List Char)}
    {json : Json} (h : date occasion layout text = .ok json) : json.DistinctKeys := by
  unfold date at h
  split at h
  · cases h
    exact distinctKeys_single _ _
  · split at h
    · cases h
      exact distinctKeys_single _ _
    · contradiction

theorem distinctKeys_make {occasion : Occasion} {call : Tree} {name : String}
    {argument : Option (List Char)} {json : Json}
    (h : make occasion call name argument = .ok json) : json.DistinctKeys := by
  unfold make at h
  split at h
  · unfold objectId at h
    split at h
    · cases h
      exact distinctKeys_single _ _
    · split at h
      · cases h
        exact distinctKeys_single _ _
      · contradiction
  · exact distinctKeys_date h
  · exact distinctKeys_date h
  · contradiction

end Literal

namespace Conversion

theorem distinctKeys_empty : empty.value.DistinctKeys := .object (by simp) (by simp)

theorem distinctKeys_ofExcept {tree : Tree} {result : Except ValueError Json}
    (h : ∀ json, result = .ok json → json.DistinctKeys) :
    (ofExcept tree result).value.DistinctKeys := by
  cases result with
  | ok json => exact h json rfl
  | error error => exact distinctKeys_empty

end Conversion

namespace Literal

open Conversion

theorem distinctKeys_ofLeaf (whole : Tree) (children : List Tree) :
    (ofLeaf whole children).value.DistinctKeys := by
  unfold ofLeaf
  split
  · exact distinctKeys_ofExcept fun _ => distinctKeys_ofToken
  · exact distinctKeys_ofExcept fun _ => distinctKeys_ofToken
  · exact distinctKeys_empty

theorem distinctKeys_call (occasion : Occasion) (tree : Tree) :
    (call occasion tree).value.DistinctKeys := by
  unfold call
  split
  · exact distinctKeys_empty
  · refine distinctKeys_ofExcept fun json h => ?_
    split at h
    · contradiction
    · split at h
      · exact distinctKeys_make h
      · exact distinctKeys_make h
      · contradiction

end Literal

namespace Tree

open Conversion

-- Fields are merged when they are converted.
theorem distinctKeys_convert (occasion : Occasion) (tree : Tree) :
    (tree.convert occasion).value.DistinctKeys := by
  have hof : ∀ held : Option Tree,
      (∀ tree, held = some tree → (tree.convert occasion).value.DistinctKeys) →
        (conversionOf occasion held).value.DistinctKeys := by
    intro held h
    cases held with
    | none => exact distinctKeys_empty
    | some tree => exact h tree rfl
  induction tree using valueInduct with
  | carrier rule start children hrule ih =>
    rw [convert_carrier occasion start children hrule]
    exact hof _ ih
  | objectLiteral start children ih =>
    rw [convert_objectLiteral]
    refine .object_mergeFields fun field hfield => ?_
    obtain ⟨_, hconversion, rfl⟩ := List.mem_map.mp hfield
    obtain ⟨property, hproperty, rfl⟩ := List.mem_map.mp hconversion
    exact hof property.2 (ih property hproperty)
  | arrayLiteral start children ih =>
    rw [convert_arrayLiteral]
    refine .array fun item hitem => ?_
    obtain ⟨_, hconversion, rfl⟩ := List.mem_map.mp hitem
    obtain ⟨element, helement, rfl⟩ := List.mem_map.mp hconversion
    exact hof element fun tree htree => ih tree (htree ▸ helement)
  | other tree hrule =>
    cases tree with
    | terminal => exact distinctKeys_empty
    | error => exact distinctKeys_empty
    | node rule start children =>
      cases rule with
      | literal => exact Literal.distinctKeys_ofLeaf _ _
      | functionCall => exact Literal.distinctKeys_call _ _
      | argument => exact absurd rfl (hrule .argument (by simp))
      | propertyValue => exact absurd rfl (hrule .propertyValue (by simp))
      | objectLiteral => exact absurd rfl (hrule .objectLiteral (by simp))
      | arrayLiteral => exact absurd rfl (hrule .arrayLiteral (by simp))
      | _ => exact distinctKeys_empty

end Tree

-- The value that an argument's text denotes where two backslashes before a
-- soft character count as one.
def Argument.denoted? (text : String) : Option Bson :=
  (Json.ofText text).toOption.bind fun json => (Bson.ofJson json.thinned.merged).toOption

theorem Bson.toOption_ofExtendedText (text : String) :
    (Bson.ofExtendedText text).toOption =
      (Json.ofText text).toOption.bind fun json => (Bson.ofJson json).toOption := by
  rw [Bson.ofExtendedText]
  cases Json.ofText text <;> rfl

namespace Argument

theorem toOption_readBack (occasion : Occasion) (tree : Tree) :
    (Bson.ofExtendedText (.ofList (Regex.halveEscapes
      (tree.convert occasion).value.render.toList))).toOption =
        denoted? (tree.convert occasion).value.render := by
  have hdistinct := tree.distinctKeys_convert occasion
  rw [halveEscapes_render, String.ofList_toList, Bson.toOption_ofExtendedText, denoted?,
    ofText_render, ofText_render, reread?_thinned hdistinct, Option.bind_map]
  rfl

theorem value_ofTree (occasion : Occasion) (tree : Tree) :
    (ofTree occasion tree).1.value =
      (denoted? (ofTree occasion tree).1.text).getD (.object []) := by
  have hread := toOption_readBack occasion tree
  rw [ofTree]
  split
  · next value heq =>
    rw [heq] at hread
    simp [← hread, Except.toOption]
  · next error heq =>
    rw [heq] at hread
    simp [← hread, Except.toOption]

theorem distinctKeys_text {occasion : Occasion} {tree : Tree} {json : Json}
    (h : Json.ofText (ofTree occasion tree).1.text = .ok json) : json.DistinctKeys := by
  have htext : (ofTree occasion tree).1.text = (tree.convert occasion).value.render := by
    rw [ofTree]
    split <;> rfl
  have hread := ofText_render (tree.convert occasion).value
  rw [← htext, h] at hread
  exact distinctKeys_of_reread? hread.symm

-- Values without doubled escapes are those that the text denotes.
theorem denoted?_spared {text : String} {json : Json} (h : Json.ofText text = .ok json)
    (hkeys : json.DistinctKeys) (hspared : json.SparesEscapes) :
    denoted? text = (Bson.ofJson json).toOption := by
  rw [denoted?, h, Except.toOption, Option.bind_some, thinned_eq_self hspared, merged_eq_self hkeys]

end Argument

namespace Pad

-- Laying mistakes on commands leaves their arguments alone.
theorem exists_extracted {text : String} {occasion : Occasion} {command : Command}
    (h : command ∈ (ofText text).commands occasion) (harguments : command.arguments ≠ []) :
    ∃ extracted ∈ (ofText text).extractedCommands occasion,
      extracted.arguments = command.arguments := by
  have hcarries := carries_commands text occasion
  have htext : command.text ≠ "" := fun hempty =>
    harguments (hcarries.added command h hempty).arguments
  have hkept : command ∈ ((ofText text).commands occasion).filter (·.text ≠ "") :=
    List.mem_filter.mpr ⟨h, by simpa using htext⟩
  obtain ⟨index, hindex, rfl⟩ := List.getElem_of_mem hkept
  have hbefore := hcarries.kept.length_eq ▸ hindex
  obtain ⟨more, _, hextends⟩ := hcarries.kept.get hbefore hindex
  refine ⟨_, List.get_mem _ ⟨index, hbefore⟩, ?_⟩
  exact (congrArg Command.arguments hextends).symm

theorem exists_argumentTree {text : String} {occasion : Occasion} {command : Command}
    {argument : Argument} (h : command ∈ (ofText text).commands occasion)
    (hargument : argument ∈ command.arguments) :
    ∃ tree, argument = (Argument.ofTree occasion tree).1 := by
  obtain ⟨extracted, hextracted, harguments⟩ :=
    exists_extracted h (List.ne_nil_of_mem hargument)
  obtain ⟨node, _, rfl⟩ := List.mem_map.mp hextracted
  rw [← harguments] at hargument
  simp only [Command.ofTree, List.map_map, List.mem_map] at hargument
  obtain ⟨tree, _, rfl⟩ := hargument
  exact ⟨tree, rfl⟩

-- The value of an argument is the one its text denotes, but for two
-- backslashes before a soft character, which count as one.
theorem argument_denotes (text : String) (occasion : Occasion) (command : Command)
    (hcommand : command ∈ (ofText text).commands occasion) (argument : Argument)
    (hargument : argument ∈ command.arguments) :
    argument.value = (Argument.denoted? argument.text).getD (.object []) ∧
      ∀ json, Json.ofText argument.text = .ok json → json.SparesEscapes →
        argument.value = (Bson.ofJson json).toOption.getD (.object []) := by
  obtain ⟨tree, rfl⟩ := exists_argumentTree hcommand hargument
  have hvalue := Argument.value_ofTree occasion tree
  refine ⟨hvalue, fun json hjson hspared => ?_⟩
  rw [hvalue, Argument.denoted?_spared hjson (Argument.distinctKeys_text hjson) hspared]

-- Two backslashes in the source are two in the text of an argument, and one in
-- its value.
theorem argument_doubledEscape :
    ¬ ∀ (text : String) (occasion : Occasion), ∀ command ∈ (ofText text).commands occasion,
      command.errors = [] → (∀ token ∈ (ofText text).lexed.tokens,
        token.kind ≠ .regex ∧ token.kind ≠ .number) →
      ∀ argument ∈ command.arguments,
        ((Json.ofText argument.text).toOption.bind fun json =>
          (Bson.ofJson json).toOption.map fun value => value.toJson.render) =
            some argument.value.toJson.render := by
  intro hall
  have hpair := hall "db.c.f('x\\\\b')" ⟨⟨0, 0⟩, ⟨0⟩⟩
  revert hpair
  decide +kernel

theorem ofText_plainString : Json.ofText "\"x\"" = .ok (.string "x") := by
  have hread : Json.ofText (Json.string "x").render = .ok (.string "x") := ofText_render_eq rfl
  rwa [show (Json.string "x").render = "\"x\"" by decide +kernel] at hread

-- A plain string is what it is written as.
theorem argument_plainString :
    ∃ command ∈ (ofText "db.c.f('x')").commands ⟨⟨0, 0⟩, ⟨0⟩⟩, ∃ argument ∈ command.arguments,
      argument.value = (Argument.denoted? argument.text).getD (.object []) ∧
        argument.value = (Bson.ofJson (.string "x")).toOption.getD (.object []) := by
  have htexts : ((ofText "db.c.f('x')").commands ⟨⟨0, 0⟩, ⟨0⟩⟩).map
      (·.arguments.map Argument.text) = [["\"x\""]] := by decide +kernel
  obtain ⟨command, hcommand, harguments⟩ := List.map_eq_singleton_iff.mp htexts
  obtain ⟨argument, hargument, htext⟩ := List.map_eq_singleton_iff.mp harguments
  have hmem : command ∈ (ofText "db.c.f('x')").commands ⟨⟨0, 0⟩, ⟨0⟩⟩ := by simp [hcommand]
  obtain ⟨hvalue, hspared⟩ :=
    argument_denotes "db.c.f('x')" ⟨⟨0, 0⟩, ⟨0⟩⟩ command hmem argument (by simp [hargument])
  refine ⟨command, hmem, argument, by simp [hargument], hvalue, ?_⟩
  exact hspared (.string "x") (htext ▸ ofText_plainString) (by simp [SparesEscapes, texts]; decide)

end Pad

end QueryPad
