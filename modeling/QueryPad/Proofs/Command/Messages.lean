import QueryPad.Command.Extraction
import QueryPad.Command.Report
import QueryPad.Proofs.Calendar.Reading
import QueryPad.Proofs.Command.Members
import QueryPad.Proofs.Command.Placement
import QueryPad.Proofs.Json.Texts
import QueryPad.Proofs.Syntax.Messages

-- What converting a value reports: of a value whose tokens are on one line each
-- it is said on one line what is wrong with it.
namespace QueryPad

open Text Calendar

namespace ObjectId

theorem ne_of_mem_toDigits {n : Nat} : ∀ c ∈ Nat.toDigits 16 n, c ≠ '\n' := by
  induction n using Nat.strongRecOn with
  | ind n ih =>
    by_cases hlt : n < 16
    · rw [Nat.toDigits_of_lt_base hlt]
      simp
    · rw [Nat.toDigits_of_base_le (by decide) (by omega)]
      intro c hc
      rcases List.mem_append.mp hc with hfront | hlast
      · exact ih (n / 16) (by omega) c hfront
      · rw [List.mem_singleton.mp hlast]
        simp

theorem isOneLine_toText (id : ObjectId) : IsOneLine id.toText := by
  unfold toText
  dsimp only
  rw [isOneLine_ofList, List.mem_append, not_or]
  exact ⟨fun hzero => absurd (List.eq_of_mem_replicate hzero) (by decide),
    fun hdigit => ne_of_mem_toDigits _ hdigit rfl⟩

end ObjectId

namespace Regex

variable {pattern flags : List Char} {fault : Fault}

-- Whatever an engine says, one line of it is shown behind the pattern.
theorem isOneLine_of_tryWith {engine : Engine} (hpattern : '\n' ∉ pattern)
    (h : tryWith engine pattern flags = .error fault) : IsOneLine fault.message := by
  unfold tryWith at h
  cases hreport : engine (compiledText pattern flags) with
  | ok =>
    rw [hreport] at h
    contradiction
  | error report =>
    rw [hreport] at h
    obtain rfl := Except.error.inj h
    unfold Fault.message
    simp +decide [hpattern, isOneLine_lastLine]

theorem isOneLine_of_validate (hpattern : '\n' ∉ pattern) (hflags : '\n' ∉ flags)
    (h : validate pattern flags = .error fault) : IsOneLine fault.message := by
  unfold validate at h
  split at h
  · obtain rfl := Except.error.inj h
    unfold Fault.message
    simp +decide [hflags]
  · split at h
    · obtain rfl := Except.error.inj h
      unfold Fault.message
      simp +decide [hpattern]
    · exact isOneLine_of_tryWith hpattern h

end Regex

theorem Calendar.Layout.isOneLine_write {layout : Layout}
    (h : ∀ part ∈ layout, ∀ chars, part = .text chars → '\n' ∉ chars) (instant : Instant) :
    IsOneLine (layout.write instant) := by
  rw [write, isOneLine_ofList]
  exact not_mem_chars (by decide) fun chars hchars => h _ hchars chars rfl

namespace Literal

variable {chars pattern flags : List Char} {c : Char}

theorem mem_of_mem_unquote (h : c ∈ unquote chars) : c ∈ chars := by
  unfold unquote at h
  split at h
  · exact h
  · split at h
    · exact List.mem_cons_of_mem _ (List.dropLast_subset _ h)
    · exact h

theorem mem_of_mem_splitLiteral (h : Regex.splitLiteral chars = (pattern, flags)) :
    (∀ c ∈ pattern, c ∈ chars) ∧ ∀ c ∈ flags, c ∈ chars := by
  obtain ⟨rfl, rfl⟩ := Prod.mk.inj h
  constructor
  · exact fun c hc => List.mem_of_mem_take (List.mem_of_mem_drop hc)
  · exact fun c hc => List.mem_reverse.mp
      ((List.takeWhile_subset _) (List.mem_reverse.mp hc))

theorem mem_of_mem_doubleFirstEscape (h : c ∈ Regex.doubleFirstEscape pattern) : c ∈ pattern := by
  fun_induction Regex.doubleFirstEscape pattern with
  | case1 d rest _ => grind
  | case2 d rest _ ih => grind
  | case3 d rest _ ih => grind
  | case4 => exact h

-- A meaning without line breaks, or a mistake that is told on one line.
def SaysOneLine : Except ValueError Json → Prop
  | .ok json => json.IsOneLine
  | .error error => IsOneLine error.message

section Tokens

theorem saysOneLine_string {key text : String} (hkey : IsOneLine key) (htext : IsOneLine text) :
    SaysOneLine (.ok (.object [(key, .string text)])) := by
  simp [SaysOneLine, Json.IsOneLine, Json.texts, Json.textsOfFields, hkey, htext]

theorem saysOneLine_notUnderstood {part whole : String} (hpart : IsOneLine part)
    (hwhole : IsOneLine whole) : SaysOneLine (.error (.notUnderstood part whole)) := by
  unfold ValueError.notUnderstood SaysOneLine ValueError.message
  simp +decide [hpart, hwhole]

theorem saysOneLine_regex (h : '\n' ∉ chars) : SaysOneLine (regex chars) := by
  cases hsplit : Regex.splitLiteral chars with
  | mk pattern flags =>
    obtain ⟨hpattern, hflags⟩ := mem_of_mem_splitLiteral hsplit
    have hpattern : '\n' ∉ pattern := fun hmem => h (hpattern _ hmem)
    have hflags : '\n' ∉ flags := fun hmem => h (hflags _ hmem)
    have hdoubled : '\n' ∉ Regex.doubleFirstEscape pattern := fun hmem =>
      hpattern (mem_of_mem_doubleFirstEscape hmem)
    rw [regex, hsplit]
    dsimp only
    split
    · simp +decide [SaysOneLine, Json.IsOneLine, Json.texts, Json.textsOfFields, hdoubled, hflags]
    · next fault hfault =>
      have hmessage := Regex.isOneLine_of_validate hpattern hflags hfault
      unfold SaysOneLine ValueError.message
      simp +decide [hmessage]

theorem saysOneLine_ofToken {whole : Tree} {token : Token} (hwhole : '\n' ∉ whole.chars)
    (htoken : '\n' ∉ token.chars) : SaysOneLine (ofToken whole token) := by
  unfold ofToken
  split
  · have hunquoted : '\n' ∉ unquote token.chars := fun hmem => htoken (mem_of_mem_unquote hmem)
    simp [SaysOneLine, Json.IsOneLine, Json.texts, hunquoted]
  · simp [SaysOneLine, Json.IsOneLine, Json.texts]
  · simp [SaysOneLine, Json.IsOneLine, Json.texts]
  · split
    · simp [SaysOneLine, Json.IsOneLine, Json.texts]
    · unfold SaysOneLine ValueError.message
      simp +decide [Token.text, htoken]
  · exact saysOneLine_regex htoken
  · exact saysOneLine_notUnderstood (by simpa [Token.text] using htoken)
      (by simpa [Tree.text] using hwhole)

end Tokens

section Calls

variable {occasion : Occasion}

theorem saysOneLine_objectId (place : Nat) (text : Option (List Char)) :
    SaysOneLine (objectId occasion place text) := by
  unfold objectId
  split
  · exact saysOneLine_string (by decide) (ObjectId.isOneLine_toText _)
  · split
    · exact saysOneLine_string (by decide) (ObjectId.isOneLine_toText _)
    · unfold SaysOneLine ValueError.message objectIdNeeded
      decide +kernel

theorem saysOneLine_date {layout : Layout}
    (h : ∀ part ∈ layout, ∀ chars, part = .text chars → '\n' ∉ chars) (text : Option (List Char)) :
    SaysOneLine (date occasion layout text) := by
  have hwritten (instant : Instant) :
      SaysOneLine (.ok (.object [("$date", .string (layout.write instant))])) :=
    saysOneLine_string (by decide) (Layout.isOneLine_write h instant)
  unfold date
  split
  · exact hwritten _
  · split
    · exact hwritten _
    · exact show IsOneLine "Invalid Date" by decide

theorem saysOneLine_make {call : Tree} {name : String} (hname : IsOneLine name)
    (hcall : '\n' ∉ call.chars) (argument : Option (List Char)) :
    SaysOneLine (make occasion call name argument) := by
  unfold make
  split
  · exact saysOneLine_objectId _ _
  · exact saysOneLine_date (by
      simp [Layout.iso, Layout.fractions, Layout.seconds, Layout.minutes]) _
  · exact saysOneLine_date (by simp +decide [Layout.verboseUniversal, Layout.verbose]) _
  · exact saysOneLine_notUnderstood hname (by simpa [Tree.text] using hcall)

end Calls

end Literal

-- What a conversion gives and reports has no line break in it.
structure Conversion.IsOneLine (conversion : Conversion) : Prop where
  value : conversion.value.IsOneLine
  reports : ∀ report ∈ conversion.reports, Text.IsOneLine report.error.message

namespace Conversion

theorem isOneLine_of {json : Json} (h : json.IsOneLine) : (Conversion.of json).IsOneLine :=
  ⟨h, by simp [Conversion.of]⟩

theorem isOneLine_empty : empty.IsOneLine :=
  isOneLine_of (by simp [Json.IsOneLine, Json.texts, Json.textsOfFields])

theorem isOneLine_failed {tree : Tree} {error : ValueError} (h : Text.IsOneLine error.message) :
    (failed tree error).IsOneLine :=
  ⟨isOneLine_empty.value, by simpa [failed] using h⟩

theorem isOneLine_ofExcept {tree : Tree} {result : Except ValueError Json}
    (h : Literal.SaysOneLine result) : (ofExcept tree result).IsOneLine := by
  cases result with
  | ok json => exact isOneLine_of h
  | error error => exact isOneLine_failed h

end Conversion

namespace Tree

open Conversion Literal

variable {tree child : Tree} {occasion : Occasion}

theorem notMem_chars_of_mem (h : '\n' ∉ tree.chars) (hchild : child ∈ tree.children) :
    '\n' ∉ child.chars := by
  cases tree with
  | node rule start children =>
    intro hmem
    obtain ⟨token, htoken, hc⟩ := List.mem_flatMap.mp hmem
    refine h (List.mem_flatMap.mpr ⟨token, ?_, hc⟩)
    rw [tokens, tokensOf_eq_flatMap]
    exact List.mem_flatMap.mpr ⟨child, hchild, htoken⟩
  | _ => contradiction

theorem isOneLine_callName (h : '\n' ∉ tree.chars) : Text.IsOneLine (callName tree) := by
  unfold callName
  cases hfound : tree.children.find? (·.isTerminal .identifier) with
  | none => decide
  | some name =>
    have hname := notMem_chars_of_mem h (List.mem_of_find?_eq_some hfound)
    simpa [Tree.text] using hname

theorem isOneLine_call (h : '\n' ∉ tree.chars) : (call occasion tree).IsOneLine := by
  have hmake : ∀ argument, SaysOneLine (make occasion tree (callName tree) argument) :=
    saysOneLine_make (isOneLine_callName h) h
  unfold call
  split
  · exact isOneLine_empty
  · apply isOneLine_ofExcept
    split
    · unfold SaysOneLine ValueError.message
      simp +decide [Tree.text, h]
    · split
      · exact hmake _
      · exact hmake _
      · unfold SaysOneLine ValueError.message
        simp +decide [isOneLine_callName h]

theorem isOneLine_ofLeaf (h : '\n' ∉ tree.chars) : (ofLeaf tree tree.children).IsOneLine := by
  have htoken {child : Tree} {token : Token} (hchild : child ∈ tree.children)
      (htoken : child.tokens = [token]) : (ofExcept tree (ofToken tree token)).IsOneLine := by
    refine isOneLine_ofExcept (saysOneLine_ofToken h ?_)
    simpa [Tree.chars, htoken] using notMem_chars_of_mem h hchild
  rw [ofLeaf.eq_def]
  split
  · next hchildren => exact htoken (by rw [hchildren]; exact .head _) rfl
  · next hchildren => exact htoken (by rw [hchildren]; exact .head _) rfl
  · exact isOneLine_empty

theorem isOneLine_kindName (tree : Tree) : Text.IsOneLine tree.kindName := by
  cases tree with
  | terminal => exact show Text.IsOneLine "terminal" by decide
  | error => exact show Text.IsOneLine "error" by decide
  | node rule =>
    rw [kindName]
    cases rule <;> decide

theorem isOneLine_text : Text.IsOneLine tree.text ↔ '\n' ∉ tree.chars := isOneLine_ofList

theorem isOneLine_key {property : String × Option Tree} (h : '\n' ∉ tree.chars)
    (hproperty : property ∈ properties tree.children) : Text.IsOneLine property.1 := by
  obtain ⟨list, hlist, hproperty⟩ := List.mem_flatMap.mp hproperty
  obtain ⟨assignment, hmem, hassignment⟩ := List.mem_filterMap.mp hproperty
  obtain ⟨start, parts, rfl⟩ := exists_of_propertyOf? hassignment
  obtain ⟨name, hfound, rfl⟩ := Option.map_eq_some_iff.mp hassignment
  have hlist := notMem_chars_of_mem h (List.mem_filter.mp hlist).1
  have hassignment := notMem_chars_of_mem hlist hmem
  have hname := notMem_chars_of_mem hassignment (List.mem_of_find?_eq_some hfound)
  rw [isOneLine_ofList]
  exact fun hbreak => hname (mem_of_mem_unquote hbreak)

theorem isOneLine_other (h : '\n' ∉ tree.chars) (hrule : ∀ rule ∈ [Rule.argument, .propertyValue,
    .objectLiteral, .arrayLiteral], ¬ tree.is rule) : (tree.convert occasion).IsOneLine := by
  have hfailed : (failed tree (.notUnderstood tree.kindName tree.text)).IsOneLine :=
    isOneLine_failed (saysOneLine_notUnderstood tree.isOneLine_kindName (isOneLine_text.mpr h))
  cases tree with
  | error => exact isOneLine_empty
  | terminal token =>
    have htext : (Tree.terminal token).text = token.text := by
      simp [Tree.text, chars, tokens, Token.text]
    rw [convert, ← htext]
    exact hfailed
  | node rule start children =>
    cases rule with
    | literal => exact isOneLine_ofLeaf h
    | functionCall => exact isOneLine_call h
    | argument => exact absurd rfl (hrule .argument (by simp))
    | propertyValue => exact absurd rfl (hrule .propertyValue (by simp))
    | objectLiteral => exact absurd rfl (hrule .objectLiteral (by simp))
    | arrayLiteral => exact absurd rfl (hrule .arrayLiteral (by simp))
    | _ => exact hfailed

-- Values are put together from those inside them, and so are the reports.
theorem isOneLine_convert (occasion : Occasion) (tree : Tree) (h : '\n' ∉ tree.chars) :
    (tree.convert occasion).IsOneLine := by
  have hof (held : Option Tree)
      (hheld : ∀ tree, held = some tree → (tree.convert occasion).IsOneLine) :
      (conversionOf occasion held).IsOneLine := by
    cases held with
    | none => exact isOneLine_empty
    | some tree => exact hheld tree rfl
  induction tree using valueInduct with
  | carrier rule start children hrule ih =>
    rw [convert_carrier occasion start children hrule]
    exact hof _ fun tree hheld => ih tree hheld (notMem_chars_of_mem h (mem_of_held hheld))
  | objectLiteral start children ih =>
    have hconversion (property) (hproperty : property ∈ properties children) :
        (conversionOf occasion property.2).IsOneLine := by
      refine hof _ fun tree hheld => ih property hproperty tree hheld ?_
      obtain ⟨list, hlist, assignment, hassignment, value, hvalue, htree⟩ :=
        exists_of_property hproperty hheld
      have hlist := notMem_chars_of_mem h hlist
      have hassignment := notMem_chars_of_mem hlist hassignment
      have hvalue := notMem_chars_of_mem hassignment hvalue
      exact notMem_chars_of_mem hvalue htree
    rw [convert_objectLiteral]
    refine ⟨fun text htext => ?_, fun report hreport => ?_⟩
    · obtain ⟨field, hfield, htext⟩ := Json.mem_textsOfFields.mp htext
      obtain ⟨_, hconverted, rfl⟩ := List.mem_map.mp (mem_of_mem_mergeFields hfield)
      obtain ⟨property, hproperty, rfl⟩ := List.mem_map.mp hconverted
      rcases htext with rfl | htext
      · exact isOneLine_key h hproperty
      · exact (hconversion property hproperty).value text htext
    · obtain ⟨_, hconverted, hreport⟩ := List.mem_flatMap.mp hreport
      obtain ⟨property, hproperty, rfl⟩ := List.mem_map.mp hconverted
      exact (hconversion property hproperty).reports report hreport
  | arrayLiteral start children ih =>
    have hconversion (element) (helement : element ∈ elements children) :
        (conversionOf occasion element).IsOneLine := by
      refine hof _ fun tree hheld => ih tree (hheld ▸ helement) ?_
      obtain ⟨list, hlist, value, hvalue, htree⟩ := exists_of_element (hheld ▸ helement)
      have hlist := notMem_chars_of_mem h hlist
      have hvalue := notMem_chars_of_mem hlist hvalue
      exact notMem_chars_of_mem hvalue htree
    rw [convert_arrayLiteral]
    refine ⟨fun text htext => ?_, fun report hreport => ?_⟩
    · obtain ⟨item, hitem, htext⟩ := Json.mem_textsOfItems.mp htext
      obtain ⟨_, hconverted, rfl⟩ := List.mem_map.mp hitem
      obtain ⟨element, helement, rfl⟩ := List.mem_map.mp hconverted
      exact (hconversion element helement).value text htext
    · obtain ⟨_, hconverted, hreport⟩ := List.mem_flatMap.mp hreport
      obtain ⟨element, helement, rfl⟩ := List.mem_map.mp hconverted
      exact (hconversion element helement).reports report hreport
  | other tree hrule => exact isOneLine_other h hrule

end Tree

-- Reading the text of a value back reports nothing else.
theorem Argument.isOneLine_ofTree (occasion : Occasion) {tree : Tree} (h : '\n' ∉ tree.chars) :
    ∀ report ∈ (ofTree occasion tree).2, IsOneLine report.error.message := by
  have hconversion := tree.isOneLine_convert occasion h
  unfold ofTree
  dsimp only
  split
  · exact hconversion.reports
  · next error herror =>
    exact List.forall_mem_cons.mpr
      ⟨Bson.isOneLine_of_ofExtendedText hconversion.value herror, hconversion.reports⟩

theorem Command.isOneLine_ofTree (index : LineIndex) (occasion : Occasion) {tree : Tree}
    (h : '\n' ∉ tree.chars) : ∀ error ∈ (ofTree index occasion tree).errors,
      IsOneLine error.message := by
  intro error herror
  simp only [ofTree, List.mem_flatMap, List.mem_map] at herror
  obtain ⟨_, ⟨argument, ⟨call, hcall, hargument⟩, rfl⟩, report, hreport, rfl⟩ := herror
  obtain ⟨list, hlist, hargument⟩ := List.mem_flatMap.mp hargument
  have hcall := Tree.notMem_chars_of_mem h (List.mem_filter.mp (List.mem_of_mem_take hcall)).1
  have hlist := Tree.notMem_chars_of_mem hcall (List.mem_filter.mp hlist).1
  have hargument := Tree.notMem_chars_of_mem hlist (List.mem_filter.mp hargument).1
  exact Argument.isOneLine_ofTree occasion hargument report hreport

end QueryPad

-- The report on a text has a line for each mistake, unless a message shows a
-- string that runs over the end of a line.
namespace QueryPad

open Text

-- Cut at its line breaks a report gives the line of each diagnostic, and nothing
-- behind the last line break.
def HasLineForEach (path : String) (diagnostics : List Diagnostic) : Prop :=
  (checkReport path diagnostics).toList.splitOn '\n' =
    diagnostics.map (fun diagnostic => (diagnostic.reportLine path).toList) ++ [[]]

theorem Diagnostic.isOneLine_reportLine {path : String} (hpath : IsOneLine path)
    (diagnostic : Diagnostic) :
    IsOneLine (diagnostic.reportLine path) ↔ IsOneLine diagnostic.message := by
  unfold reportLine
  simp +decide [hpath]

theorem hasLineForEach_iff {path : String} (hpath : IsOneLine path)
    (diagnostics : List Diagnostic) : HasLineForEach path diagnostics ↔
      ∀ diagnostic ∈ diagnostics, IsOneLine diagnostic.message := by
  have hlines := @splitOn_join_iff (diagnostics.map (·.reportLine path))
  rw [List.map_map, List.map_map, List.forall_mem_map] at hlines
  simp only [Diagnostic.isOneLine_reportLine hpath] at hlines
  exact hlines

namespace Pad

variable {text : String} {occasion : Occasion} {error : Diagnostic}

theorem mem_diagnostics_iff : error ∈ (ofText text).diagnostics occasion ↔
    (∃ command ∈ (ofText text).extractedCommands occasion, error ∈ command.errors) ∨
      error ∈ (ofText text).lexicalDiagnostics ++ (ofText text).grammarDiagnostics := by
  rw [diagnostics, (carries_commands text occasion).perm.mem_iff, List.mem_append,
    List.mem_flatMap, syntaxDiagnostics, Diagnostic.sortByStart, List.mem_mergeSort]

theorem isOneLine_of_mem_diagnostics
    (hstrings : ∀ piece ∈ piecesFrom 0 text.toList, ¬ piece.runsOn)
    (herror : error ∈ (ofText text).diagnostics occasion) : IsOneLine error.message := by
  rcases mem_diagnostics_iff.mp herror with ⟨command, hcommand, herror⟩ | hsyntax
  · obtain ⟨node, hnode, rfl⟩ := List.mem_map.mp hcommand
    refine Command.isOneLine_ofTree _ occasion (fun hbreak => ?_) error herror
    obtain ⟨token, htoken, hbreak⟩ := List.mem_flatMap.mp hbreak
    exact notMem_of_mem_lex hstrings (((commandNodes text).2 node hnode).lexed token htoken) hbreak
  · exact isOneLine_of_mem_syntax hstrings hsyntax

-- A string that is not closed is shown as far as it was read.
theorem exists_mem_diagnostics_of_runsOn {piece : Piece} (hpiece : piece ∈ piecesFrom 0 text.toList)
    (hkind : piece.kind = .openString) (hrunsOn : piece.runsOn) :
    ∃ error ∈ (ofText text).diagnostics occasion, ¬ IsOneLine error.message := by
  have hbreak : '\n' ∈ piece.chars := by simpa [Piece.runsOn, hkind] using hrunsOn
  have hreport : (⟨⟨piece.start, piece.start + byteSize piece.chars⟩,
      .unrecognized piece.chars⟩ : SyntaxReport) ∈ (lex text.toList).reports :=
    List.mem_filterMap.mpr ⟨piece, hpiece, by rw [Piece.report?, Piece.faultyChars?, hkind]; rfl⟩
  have hlexical : Diagnostic.ofReport (ofText text).index _ ∈ (ofText text).lexicalDiagnostics :=
    List.mem_map_of_mem hreport
  refine ⟨_, mem_diagnostics_iff.mpr (.inr (List.mem_append_left _ hlexical)), ?_⟩
  rw [Diagnostic.ofReport, SyntaxReport.message, SyntaxFault.message_unrecognized]
  simp [hbreak]

-- A report has a line for each diagnostic just if no message has a line break,
-- and none has if no string runs over the end of a line. An open string that
-- does is shown over two lines.
theorem checkReport_lines (path text : String) (occasion : Occasion) (hpath : IsOneLine path) :
    (HasLineForEach path ((ofText text).diagnostics occasion) ↔
        ∀ diagnostic ∈ (ofText text).diagnostics occasion, IsOneLine diagnostic.message) ∧
      ((∀ piece ∈ piecesFrom 0 text.toList, ¬ piece.runsOn) →
        HasLineForEach path ((ofText text).diagnostics occasion)) ∧
      ((∃ piece ∈ piecesFrom 0 text.toList, piece.kind = .openString ∧ piece.runsOn) →
        ¬ HasLineForEach path ((ofText text).diagnostics occasion)) := by
  have hlines := hasLineForEach_iff hpath ((ofText text).diagnostics occasion)
  refine ⟨hlines, fun hstrings => ?_, ?_⟩
  · exact hlines.mpr fun error => isOneLine_of_mem_diagnostics hstrings
  · rintro ⟨piece, hpiece, hkind, hrunsOn⟩ heach
    obtain ⟨error, herror, hbreak⟩ := exists_mem_diagnostics_of_runsOn hpiece hkind hrunsOn
    exact hbreak (hlines.mp heach error herror)

theorem checkReport_lines_strayCharacter : IsOneLine "q.mongo" ∧
    HasLineForEach "q.mongo" ((ofText "db.c\n.f(@'a', /x(/)").diagnostics ⟨⟨0, 0⟩, ⟨0⟩⟩) := by
  have hreport := checkReport_lines "q.mongo" "db.c\n.f(@'a', /x(/)" ⟨⟨0, 0⟩, ⟨0⟩⟩ (by decide)
  exact ⟨by decide, hreport.2.1 (by decide +kernel)⟩

-- One mistake, whose report has two lines.
theorem checkReport_lines_escapedLineEnd :
    ¬ ∀ (path text : String) (occasion : Occasion), IsOneLine path →
      HasLineForEach path ((ofText text).diagnostics occasion) := by
  intro hall
  have heach := hall "q.mongo" "'a\\\n" ⟨⟨0, 0⟩, ⟨0⟩⟩ (by decide)
  rw [hasLineForEach_iff (by decide)] at heach
  revert heach
  decide +kernel

end Pad

end QueryPad
