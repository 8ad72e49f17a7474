import QueryPad.Proofs.Calendar.Rereading
import QueryPad.Proofs.Command.Places

-- The calls that make dates: their moment is written as text, and read again
-- when the value is stored.
namespace QueryPad

open Calendar Json

inductive DateForm where
  | iso | verbose
  deriving DecidableEq

namespace DateForm

def ofName? : String → Option DateForm
  | "ISODate" => some iso
  | "Date" => some verbose
  | _ => none

def layout : DateForm → Layout
  | iso => .iso
  | verbose => .verboseUniversal

-- The nanoseconds of the least part that is written.
def unit : DateForm → Nat
  | iso => 1000000
  | verbose => 1000000000

def readText : DateForm → List Char → List Char
  | iso, chars => Literal.inUniversalTime chars
  | verbose, chars => chars

-- The moment of a call with a text or without one.
def moment? (form : DateForm) (occasion : Occasion) : Option (List Char) → Option Instant
  | none => some occasion.now
  | some chars => Instant.ofChars? (form.readText chars)

-- What a call is converted to.
def written (form : DateForm) (instant : Instant) : Json :=
  .object [("$date", .string (form.layout.write instant))]

variable {form : DateForm} {occasion : Occasion} {instant : Instant}

theorem make_eq {name : String} (h : ofName? name = some form) (call : Tree)
    (given : Option (List Char)) :
    Literal.make occasion call name given = match form.moment? occasion given with
      | some instant => .ok (form.written instant)
      | none => .error (.date (.ofList ((given.map form.readText).getD []))) := by
  unfold ofName? at h
  split at h
  · cases h
    cases given with
    | none => rfl
    | some chars =>
      simp only [Literal.make, Literal.date, Option.map_some, moment?, readText]
      cases Instant.ofChars? (Literal.inUniversalTime chars) <;> rfl
  · cases h
    cases given with
    | none => rfl
    | some chars =>
      simp only [Literal.make, Literal.date, Option.map_some, moment?, readText]
      cases Instant.ofChars? chars <;> rfl
  · contradiction

theorem moment?_isProper (hnow : occasion.now.IsProper) {given : Option (List Char)}
    (h : form.moment? occasion given = some instant) : instant.IsProper := by
  cases given with
  | none =>
    cases h
    exact hnow
  | some chars => exact Instant.ofChars?_isProper h

theorem ofText?_write (form : DateForm) (h : instant.IsProper) :
    Instant.ofText? (form.layout.write instant) = some (instant.dropBelow form.unit) := by
  rw [Instant.ofText?, Layout.write, String.toList_ofList]
  cases form with
  | iso => exact Instant.ofChars?_iso h
  | verbose => exact Instant.ofChars?_verbose h

theorem ofJson_written (h : instant.IsProper) :
    Bson.ofJson (form.written instant) = .ok (.date (instant.dropBelow form.unit).millis) := by
  simp [written, Bson.ofJson, Bson.readWrapped?, Bson.readDate, Bson.readDate?,
    form.ofText?_write h]

-- Neither layout writes an escape.
theorem thinned_written : (form.written instant).thinned = form.written instant := by
  have hplain : '\\' ∉ (form.layout.write instant).toList := by
    rw [Layout.write, String.toList_ofList]
    refine Layout.not_mem_chars (by decide) fun chars hchars => ?_
    have hall : ∀ part ∈ form.layout, ∀ chars, part = .text chars → '\\' ∉ chars := by
      cases form <;>
        simp [layout, Layout.iso, Layout.fractions, Layout.seconds, Layout.minutes,
          Layout.verboseUniversal, Layout.verbose]
    exact hall _ hchars chars rfl
  have htext : thinText (form.layout.write instant) = form.layout.write instant :=
    (thinText_eq_self_iff _).mpr fun c hpair => absurd (hpair.subset (by simp)) hplain
  have hkey : thinText "$date" = "$date" := by decide +kernel
  simp [written, thinned, thinnedFields, htext, hkey]

theorem reread?_written (room : Nat) (instant : Instant) :
    (form.written instant).reread? (room + 1) = some (form.written instant) := rfl

theorem ofExtendedText_written (form : DateForm) (h : instant.IsProper) :
    Bson.ofExtendedText (.ofList (Regex.halveEscapes (form.written instant).render.toList)) =
      .ok (.date (instant.dropBelow form.unit).millis) := by
  rw [halveEscapes_render, thinned_written, String.ofList_toList, Bson.ofExtendedText,
    ofText_render_eq (reread?_written _ instant)]
  exact ofJson_written h

-- A call that has a value has a moment.
theorem exists_moment {name : String} (h : ofName? name = some form) {call : Tree}
    {given : Option (List Char)} {value : Json}
    (hvalue : Literal.make occasion call name given = .ok value) :
    ∃ instant, form.moment? occasion given = some instant ∧
      Conversion.of value = .of (form.written instant) := by
  rw [make_eq h] at hvalue
  split at hvalue
  · next instant hinstant =>
    cases hvalue
    exact ⟨instant, hinstant, rfl⟩
  · contradiction

end DateForm

theorem Conversion.exists_value {tree : Tree} {result : Except ValueError Json}
    (h : (ofExcept tree result).reports = []) :
    ∃ value, result = .ok value ∧ ofExcept tree result = .of value := by
  cases result with
  | ok value => exact ⟨value, rfl, rfl⟩
  | error error => contradiction

namespace Tree

-- The form of a call that makes a date, where it has a list of arguments.
def dateForm? : Tree → Option DateForm
  | .node .functionCall start children =>
    ((node .functionCall start children).childOf? .arguments).bind fun _ =>
      DateForm.ofName? (Literal.callName (.node .functionCall start children))
  | _ => none

-- The text of its argument, if there is any between its parentheses.
def givenText? (call : Tree) : Option (Option (List Char)) :=
  (call.childOf? .arguments).bind fun list =>
    if list.children.any (·.isTerminal .openParen) then
      match list.childrenOf .argument with
      | [] => some none
      | [argument] =>
        some (if argument.chars.isEmpty then none else some (Literal.unquote argument.chars))
      | _ => none
    else none

def moment? (occasion : Occasion) (form : DateForm) (call : Tree) : Option Instant :=
  call.givenText?.bind (form.moment? occasion)

variable {occasion : Occasion} {form : DateForm} {call : Tree}

-- A call without an error has a moment, and is converted to what is written of it.
theorem convert_date (hform : call.dateForm? = some form)
    (hquiet : (call.convert occasion).reports = []) :
    ∃ instant, call.moment? occasion form = some instant ∧
      call.convert occasion = .of (form.written instant) := by
  unfold dateForm? at hform
  split at hform
  · next start children =>
    obtain ⟨list, hlist, hname⟩ := Option.bind_eq_some_iff.mp hform
    rw [convert, Literal.call, hlist] at hquiet ⊢
    dsimp only at hquiet ⊢
    obtain ⟨value, hvalue, hconvert⟩ := Conversion.exists_value hquiet
    rw [hconvert, moment?, givenText?, hlist, Option.bind_some]
    split at hvalue
    · contradiction
    · next hparen =>
      rw [if_pos (by simpa using hparen)]
      rcases hgiven : list.childrenOf .argument with _ | ⟨argument, _ | ⟨_, _⟩⟩ <;>
        rw [hgiven] at hvalue
      · exact DateForm.exists_moment hname hvalue
      · exact DateForm.exists_moment hname hvalue
      · contradiction
  · contradiction

theorem moment?_isProper (hnow : occasion.now.IsProper) {instant : Instant}
    (h : call.moment? occasion form = some instant) : instant.IsProper := by
  obtain ⟨given, -, hinstant⟩ := Option.bind_eq_some_iff.mp h
  exact DateForm.moment?_isProper hnow hinstant

-- What is stored for a call that makes a date.
def storedDate? (occasion : Occasion) (call : Tree) : Option Bson := do
  let form ← call.dateForm?
  let instant ← call.moment? occasion form
  return .date (instant.dropBelow form.unit).millis

theorem keeps_date (hnow : occasion.now.IsProper) (call : Tree) :
    Keeps occasion (storedDate? occasion) [] call := by
  intro room read value found hquiet hstored hread hvalue
  have hstored : storedDate? occasion call = some found := hstored
  obtain ⟨form, hform, hstored⟩ := Option.bind_eq_some_iff.mp hstored
  obtain ⟨instant, hinstant, hconvert⟩ := convert_date hform hquiet
  have hproper := moment?_isProper hnow hinstant
  obtain rfl : Bson.date (instant.dropBelow form.unit).millis = found := by
    simpa [hinstant] using hstored
  rw [hconvert, Conversion.of, DateForm.thinned_written] at hread
  cases room with
  | zero => contradiction
  | succ room =>
    rw [DateForm.reread?_written] at hread
    cases hread
    rw [DateForm.ofJson_written hproper] at hvalue
    cases hvalue
    exact ⟨by simp [DateForm.written], .inl rfl⟩

end Tree

namespace Pad

-- Moments come back from what the two calls write of them, up to the fractions
-- that are not written, and these are what is stored.
theorem argument_finds_date :
    (∀ (text : String) (instant : Instant), Instant.ofText? text = some instant →
      Instant.ofText? (Layout.iso.write instant) = some (instant.dropBelow 1000000) ∧
      Instant.ofText? (Layout.verboseUniversal.write instant) =
        some (instant.dropBelow 1000000000)) ∧
    ∀ (occasion : Occasion), occasion.now.IsProper → ∀ (form : DateForm) (call : Tree),
      call.dateForm? = some form → (call.convert occasion).reports = [] →
      ∃ instant, call.moment? occasion form = some instant ∧
        Bson.ofExtendedText
            (.ofList (Regex.halveEscapes (call.convert occasion).value.render.toList)) =
          .ok (.date (instant.dropBelow form.unit).millis) ∧
        ∀ (text : String) (command argument : Tree), command ∈ (ofText text).tree.nodesOf .command →
          argument ∈ command.recordedArguments → ∀ path, argument.heldAt? path = some call →
            (path = [] → (Argument.ofTree occasion argument).2 = []) ∧
            ((Argument.ofTree occasion argument).2 = [] →
              ∃ extracted ∈ (ofText text).extractedCommands occasion,
                ∃ recorded ∈ extracted.arguments,
                  recorded = (Argument.ofTree occasion argument).1 ∧
                  recorded.value.Finds path (.date (instant.dropBelow form.unit).millis)) := by
  refine ⟨fun text instant htext => ?_, fun occasion hnow form call hform hquiet => ?_⟩
  · have hproper := Instant.ofChars?_isProper htext
    exact ⟨DateForm.iso.ofText?_write hproper, DateForm.verbose.ofText?_write hproper⟩
  · obtain ⟨instant, hinstant, hconvert⟩ := Tree.convert_date hform hquiet
    have hproper := Tree.moment?_isProper hnow hinstant
    have hread := form.ofExtendedText_written hproper
    refine ⟨instant, hinstant, by rw [hconvert]; exact hread, ?_⟩
    intro text command argument hcommand hargument path hheld
    obtain ⟨start, children, rfl⟩ := Tree.exists_argument hargument
    constructor
    · rintro rfl
      obtain ⟨top, htop, hsame⟩ := Option.bind_eq_some_iff.mp hheld
      obtain rfl : top = call := Option.some.inj hsame
      have htop : Tree.held? children = some top := htop
      rw [Argument.ofTree, Argument.convert_held htop, hconvert]
      dsimp only [Conversion.of]
      rw [hread]
    · intro hargumentQuiet
      refine ⟨_, List.mem_map_of_mem hcommand, _, ?_, rfl, ?_⟩
      · exact List.mem_map_of_mem (List.mem_map_of_mem hargument)
      · refine Argument.finds (Tree.keeps_date hnow) hargumentQuiet hheld ?_
        simp [Tree.storedDate?, hform, hinstant]

-- A leap second before the first year, and a day in the verbose form.
theorem argument_finds_leapSecond :
    (∃ instant, Instant.ofText? "-0005-06-30T23:59:60.9996" = some instant ∧
      Instant.ofText? (Layout.iso.write instant) = some (instant.dropBelow 1000000) ∧
      Instant.ofText? (Layout.verboseUniversal.write instant) =
        some (instant.dropBelow 1000000000)) ∧
    ∃ command ∈ (ofText "db.c.f(Date('+12024-02-29'))").tree.nodesOf .command,
      ∃ argument ∈ command.recordedArguments, ∃ call instant,
        argument.heldAt? [] = some call ∧
        call.moment? ⟨⟨0, 0⟩, ⟨0⟩⟩ .verbose = some instant ∧
        (Argument.ofTree ⟨⟨0, 0⟩, ⟨0⟩⟩ argument).2 = [] ∧
        ∃ extracted ∈ (ofText "db.c.f(Date('+12024-02-29'))").extractedCommands ⟨⟨0, 0⟩, ⟨0⟩⟩,
          ∃ recorded ∈ extracted.arguments,
            recorded = (Argument.ofTree ⟨⟨0, 0⟩, ⟨0⟩⟩ argument).1 ∧
            recorded.value.Finds [] (.date (instant.dropBelow 1000000000).millis) := by
  constructor
  · have hread : Instant.ofText? "-0005-06-30T23:59:60.9996" =
        some ⟨-62309347201, 1999600000⟩ := by decide +kernel
    exact ⟨_, hread, argument_finds_date.1 _ _ hread⟩
  · have hsome : ∃ command ∈ (ofText "db.c.f(Date('+12024-02-29'))").tree.nodesOf .command,
        ∃ argument ∈ command.recordedArguments, ∃ call ∈ argument.heldAt? [],
          call.dateForm? = some .verbose ∧ (call.convert ⟨⟨0, 0⟩, ⟨0⟩⟩).reports = [] := by
      decide +kernel
    obtain ⟨command, hcommand, argument, hargument, call, hheld, hform, hquiet⟩ := hsome
    obtain ⟨instant, hinstant, -, hplaces⟩ :=
      argument_finds_date.2 ⟨⟨0, 0⟩, ⟨0⟩⟩ ⟨by decide +kernel, .inl (by decide)⟩ .verbose call hform
        hquiet
    obtain ⟨hread, hfinds⟩ := hplaces _ command argument hcommand hargument [] hheld
    exact ⟨command, hcommand, argument, hargument, call, instant, hheld, hinstant, hread rfl,
      hfinds (hread rfl)⟩

end Pad

end QueryPad
