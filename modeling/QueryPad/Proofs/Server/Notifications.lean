import QueryPad.Proofs.Server.Documents
import QueryPad.Server

-- Which documents a server holds, told from the notifications that it has
-- taken up. A change stores a text as an opening does, so that one that comes
-- in behind the closing brings the document back.
namespace QueryPad

deriving instance DecidableEq for Parameters.Opened, Parameters.Changed

-- A notification about a document.
inductive DocumentNote where
  | opened (document : Parameters.Opened)
  | changed (change : Parameters.Changed)
  | closed (uri : String)
  deriving DecidableEq

namespace DocumentNote

-- What it does to the stored documents.
def step? : DocumentNote → Option StoreStep
  | opened document => some (.update document.uri document.version document.text)
  | changed change => change.text.map (.update change.uri change.version)
  | closed uri => some (.remove uri)

def Opens (uri : String) : DocumentNote → Prop
  | opened document => document.uri = uri
  | _ => False

-- It comes with a text of the document.
def Brings (uri : String) : DocumentNote → Prop
  | opened document => document.uri = uri
  | changed change => change.uri = uri ∧ change.text.isSome
  | closed _ => False

-- It holds of a notification that the document was not closed after.
def Since (uri : String) (p : DocumentNote → Prop) (notes : List DocumentNote) : Prop :=
  ∃ before note rest, notes = before ++ note :: rest ∧ p note ∧ .closed uri ∉ rest

def IsOpen (uri : String) (notes : List DocumentNote) : Prop := Since uri (Opens uri) notes

def stored (notes : List DocumentNote) : DocumentStore :=
  .after (notes.filterMap DocumentNote.step?)

variable {uri : String} {p : DocumentNote → Prop} {note : DocumentNote} {notes : List DocumentNote}

theorem since_concat : Since uri p (notes ++ [note]) ↔
    p note ∨ note ≠ .closed uri ∧ Since uri p notes := by
  constructor
  · rintro ⟨before, found, rest, hnotes, hfound, hrest⟩
    obtain ⟨-, -, rfl⟩ | ⟨rest, rfl, rfl⟩ := concat_eq_split_iff.mp hnotes
    · exact .inl hfound
    · rw [List.mem_append, List.mem_singleton, not_or] at hrest
      exact .inr ⟨Ne.symm hrest.2, before, found, rest, rfl, hfound, hrest.1⟩
  · rintro (hnote | ⟨hclosed, before, found, rest, rfl, hfound, hrest⟩)
    · exact ⟨notes, note, [], rfl, hnote, List.not_mem_nil⟩
    · refine ⟨before, found, rest ++ [note], by simp, hfound, ?_⟩
      simpa [hrest] using Ne.symm hclosed

theorem not_since_nil : ¬ Since uri p [] := by
  rintro ⟨before, note, rest, h, -⟩
  simp at h

theorem stored_concat (notes : List DocumentNote) (note : DocumentNote) :
    stored (notes ++ [note]) = note.step?.elim (stored notes) (stored notes).step := by
  rw [stored, List.filterMap_append]
  cases hstep : note.step? with
  | none => simp [hstep, stored]
  | some step => simp [hstep, stored, DocumentStore.after_concat]

theorem stored?_step_update (store : DocumentStore) (uri other : String) (version : Int)
    (text : String) : ((store.step (.update other version text)).stored? uri).isSome ↔
      other = uri ∨ (store.stored? uri).isSome := by
  by_cases hother : other = uri
  · subst hother
    rw [DocumentStore.step, DocumentStore.stored?_update]
    split
    · simp
    · next h =>
      rw [DocumentStore.accepts] at h
      cases hstored : store.stored? other with
      | none => simp [hstored] at h
      | some document => simp
  · have hne : (StoreStep.update other version text).uri ≠ uri := hother
    rw [DocumentStore.stored?_step_of_ne hne]
    simp [hother]

theorem isSome_stored?_iff (notes : List DocumentNote) (uri : String) :
    ((stored notes).stored? uri).isSome ↔ Since uri (Brings uri) notes := by
  induction notes using List.reverseRecOn with
  | nil => simp [stored, DocumentStore.after, DocumentStore.empty, DocumentStore.stored?,
      not_since_nil]
  | append_singleton notes note ih =>
    rw [stored_concat, since_concat]
    cases note with
    | opened document =>
      rw [step?, Option.elim_some, stored?_step_update, ih]
      simp [Brings]
    | changed change =>
      rw [step?]
      cases htext : change.text with
      | none => simp [Brings, htext, ih]
      | some text =>
        rw [Option.map_some, Option.elim_some, stored?_step_update, ih]
        simp [Brings, htext]
    | closed other =>
      rw [step?, Option.elim_some, DocumentStore.step, DocumentStore.stored?_remove]
      by_cases hother : uri = other
      · simp [hother, Brings]
      · simp [hother, Ne.symm hother, Brings, ih]

-- A change that finds its document open keeps it so, and only another one
-- brings back what was closed.
theorem forall_isOpen_iff (notes : List DocumentNote) (uri : String) :
    (∀ front, front <+: notes → Since uri (Brings uri) front → IsOpen uri front) ↔
      ∀ before change rest, notes = before ++ .changed change :: rest →
        change.uri = uri → change.text.isSome → IsOpen uri before := by
  constructor
  · rintro h before change rest rfl huri htext
    have hfront : before ++ [.changed change] <+: before ++ .changed change :: rest :=
      ⟨rest, by simp⟩
    obtain hopens | ⟨-, hopen⟩ :=
      since_concat.mp (h _ hfront (since_concat.mpr (.inl ⟨huri, htext⟩)))
    · exact hopens.elim
    · exact hopen
  · intro h front hfront
    induction front using List.reverseRecOn with
    | nil => exact fun hbrings => (not_since_nil hbrings).elim
    | append_singleton front note ih =>
      have hbefore : front <+: notes := (List.prefix_append front [note]).trans hfront
      intro hbrings
      apply since_concat.mpr
      obtain hnote | ⟨hne, hbrings⟩ := since_concat.mp hbrings
      · cases note with
        | opened document => exact .inl hnote
        | changed change =>
          obtain ⟨rest, rfl⟩ := hfront
          exact .inr ⟨by simp, h front change rest (by simp) hnote.1 hnote.2⟩
        | closed => exact hnote.elim
      · exact .inr ⟨hne, ih hbefore hbrings⟩

end DocumentNote

open DocumentNote

-- A message with the moment it comes in at.
structure Arrival where
  occasion : Occasion
  now : Nat
  message : Message

namespace Message

def note? (message : Message) : Option DocumentNote :=
  match message.method with
  | "textDocument/didOpen" => (message.parameters.bind Parameters.opened?).map .opened
  | "textDocument/didChange" => (message.parameters.bind Parameters.changed?).map .changed
  | "textDocument/didClose" => (message.parameters.bind Parameters.closed?).map .closed
  | _ => none

theorem note?_of_notMem {message : Message} (h : message.method ∉
    ["textDocument/didOpen", "textDocument/didChange", "textDocument/didClose"]) :
    message.note? = none := by
  unfold note?
  split
  · next hmethod => simp [hmethod] at h
  · next hmethod => simp [hmethod] at h
  · next hmethod => simp [hmethod] at h
  · rfl

end Message

namespace Server

-- The notification that a server takes up: it must be running, and with an id
-- the message is none.
def note? (server : Server) (message : Message) : Option DocumentNote :=
  if server.phase = .running && message.id.isNone then message.note? else none

def next (server : Server) (arrival : Arrival) : Server :=
  (server.receive arrival.occasion arrival.now arrival.message).elim server (·.1)

def after (server : Server) (arrivals : List Arrival) : Server := arrivals.foldl next server

def heard (server : Server) : List Arrival → List DocumentNote
  | [] => []
  | arrival :: rest => (server.note? arrival.message).toList ++ (server.next arrival).heard rest

variable {server : Server} {occasion : Occasion} {now : Nat} {message : Message}

theorem documents_take (server : Server) (occasion : Occasion) (uri : String) (version : Int)
    (text : String) : (server.take occasion uri version text).server.documents =
      (server.documents.update uri version text).1 := by
  unfold take DocumentStore.update
  cases server.documents.accepts uri version <;> rfl

-- A message that is refused leaves the documents alone.
theorem documents_withParameters {α : Type} {read : Json → Option α} {make : α → DocumentNote}
    {next : α → Turn} (h : ∀ parameters, (next parameters).server.documents =
      (make parameters).step?.elim server.documents server.documents.step) :
    (server.withParameters message read next).server.documents =
      (((message.parameters.bind read).map make).bind step?).elim server.documents
        server.documents.step := by
  unfold withParameters
  split
  · next parameters hread =>
    rw [hread]
    exact h parameters
  · next hread => rw [hread, Option.map_none, Option.bind_none, Option.elim_none]

theorem documents_withParameters_same {α : Type} {read : Json → Option α} {next : α → Turn}
    (h : ∀ parameters, (next parameters).server.documents = server.documents) :
    (server.withParameters message read next).server.documents = server.documents := by
  unfold withParameters
  split
  · exact h _
  · rfl

theorem documents_withoutParameters {next : Turn}
    (h : next.server.documents = server.documents) :
    (server.withoutParameters message next).server.documents = server.documents := by
  unfold withoutParameters
  split
  · rfl
  · exact h

theorem documents_connect (address : Parameters.Address) :
    (server.connect address).server.documents = server.documents := by
  unfold connect
  split <;> rfl

theorem documents_complete (asked : Parameters.Asked) :
    (server.complete now asked).server.documents = server.documents := by
  unfold complete
  split <;> rfl

theorem documents_run (server : Server) (occasion : Occasion) (now : Nat) (message : Message) :
    (server.run occasion now message).server.documents =
      (message.note?.bind step?).elim server.documents server.documents.step := by
  unfold run
  split
  · next hmethod =>
    rw [Message.note?_of_notMem (by rw [hmethod]; decide)]
    exact documents_withParameters_same fun _ => rfl
  · next hmethod =>
    rw [Message.note?, hmethod]
    exact documents_withParameters fun document => documents_take ..
  · next hmethod =>
    rw [Message.note?, hmethod]
    refine documents_withParameters fun change => ?_
    rw [step?]
    cases change.text with
    | none => rfl
    | some text => exact documents_take ..
  · next hmethod =>
    rw [Message.note?, hmethod]
    exact documents_withParameters fun uri => rfl
  · next hmethod =>
    rw [Message.note?_of_notMem (by rw [hmethod]; decide)]
    exact documents_withParameters_same documents_complete
  · next hmethod =>
    rw [Message.note?_of_notMem (by rw [hmethod]; decide)]
    exact documents_withParameters_same documents_connect
  · next hmethod =>
    rw [Message.note?_of_notMem (by rw [hmethod]; decide)]
    exact documents_withoutParameters rfl
  · next hmethod =>
    rw [Message.note?_of_notMem (by rw [hmethod]; decide)]
    exact documents_withoutParameters rfl
  · next hopen hchange hclose _ _ _ _ =>
    have hnone : message.note? = none := by
      apply Message.note?_of_notMem
      simp only [List.mem_cons, List.not_mem_nil, or_false]
      rintro (hmethod | hmethod | hmethod)
      exacts [hopen hmethod, hchange hmethod, hclose hmethod]
    rw [hnone]
    exact documents_withParameters_same fun _ => rfl

theorem note?_of_notMem (h : message.method ∉
    ["textDocument/didOpen", "textDocument/didChange", "textDocument/didClose"]) :
    server.note? message = none := by
  rw [note?, Message.note?_of_notMem h, ite_self]

theorem note?_of_not_notification (h : ¬ notifications.contains message.method) :
    message.note? = none := by
  refine Message.note?_of_notMem fun hmem => h (List.contains_iff_mem.mpr ?_)
  exact List.mem_append_left _ (List.mem_cons_of_mem _ hmem)

theorem documents_running {next : Server} (hphase : server.phase = .running)
    (hnext : next.documents = server.documents) :
    (if notifications.contains message.method = message.id.isSome then { server := next }
      else next.run occasion now message : Turn).server.documents =
      ((server.note? message).bind step?).elim server.documents server.documents.step := by
  rw [note?, hphase]
  by_cases hnotification : notifications.contains message.method
  · -- With an id it would be a request, and such a method is none.
    cases hid : message.id with
    | some id =>
      rw [hnotification, Option.isSome_some, if_pos rfl]
      exact hnext
    | none =>
      rw [hnotification, if_neg (by simp), documents_run, hnext]
      rfl
  · rw [note?_of_not_notification hnotification, ite_self]
    split
    · exact hnext
    · rw [documents_run, note?_of_not_notification hnotification]
      exact hnext

-- A running server takes up a notification, and nothing else changes what is
-- stored.
theorem documents_turn (server : Server) (occasion : Occasion) (now : Nat) (message : Message) :
    (server.turn occasion now message).server.documents =
      ((server.note? message).bind step?).elim server.documents server.documents.step := by
  unfold turn
  split
  · next hmethod =>
    rw [note?_of_notMem (by rw [hmethod]; decide)]
    rfl
  · next hmethod =>
    rw [note?_of_notMem (by rw [hmethod]; decide)]
    split
    · split
      · rfl
      · exact documents_withParameters_same fun _ => rfl
    · rfl
  · split
    · next hunknown =>
      have hnot : ¬ notifications.contains message.method := by
        simp only [List.contains_append, Bool.not_or, Bool.and_eq_true,
          Bool.not_eq_true'] at hunknown
        simpa using hunknown.2
      rw [note?, note?_of_not_notification hnot, ite_self]
      rfl
    · cases hphase : server.phase with
      | running =>
        apply documents_running hphase
        split <;> rfl
      | new | shutDown | exited => simp [note?, hphase]

theorem documents_next (server : Server) (arrival : Arrival) :
    (server.next arrival).documents =
      ((server.note? arrival.message).bind step?).elim server.documents server.documents.step := by
  rw [next, receive]
  split
  · next hphase => simp [note?, hphase]
  · exact documents_turn ..

theorem heard_concat (server : Server) (arrivals : List Arrival) (arrival : Arrival) :
    server.heard (arrivals ++ [arrival]) =
      server.heard arrivals ++ ((server.after arrivals).note? arrival.message).toList := by
  induction arrivals generalizing server with
  | nil => simp [heard, after]
  | cons first arrivals ih =>
    rw [List.cons_append, heard, heard, ih, List.append_assoc]
    rfl

theorem documents_after (settings : Settings) (arrivals : List Arrival) :
    ((start settings).after arrivals).documents = stored ((start settings).heard arrivals) := by
  induction arrivals using List.reverseRecOn with
  | nil => rfl
  | append_singleton arrivals arrival ih =>
    rw [after, List.foldl_concat, ← after, documents_next, heard_concat, ih]
    cases ((start settings).after arrivals).note? arrival.message with
    | none => simp
    | some note => rw [Option.toList_some, stored_concat, Option.bind_some]

theorem heard_front_iff (arrivals : List Arrival) (p : List DocumentNote → Prop) :
    (∀ front, front <+: arrivals → p (server.heard front)) ↔
      ∀ front, front <+: server.heard arrivals → p front := by
  induction arrivals using List.reverseRecOn with
  | nil => simp [heard]
  | append_singleton arrivals arrival ih =>
    simp only [List.prefix_concat_iff, forall_eq_or_imp, ih]
    rw [heard_concat]
    -- A message adds one notification or none, so no front is left out.
    cases (server.after arrivals).note? arrival.message with
    | none =>
      rw [Option.toList_none, List.append_nil]
      exact ⟨And.right, fun h => ⟨h _ List.prefix_rfl, h⟩⟩
    | some note => simp only [Option.toList_some, List.prefix_concat_iff, forall_eq_or_imp]

-- A document is stored from the first text that comes with a notification until
-- it is closed. It is stored only while it is open exactly if each change finds
-- it open.
theorem documents_open_iff (settings : Settings) (arrivals : List Arrival) (uri : String) :
    ((((start settings).after arrivals).documents.get? uri).isSome ↔
      Since uri (Brings uri) ((start settings).heard arrivals)) ∧
    ((∀ front, front <+: arrivals →
        (((start settings).after front).documents.get? uri).isSome →
        IsOpen uri ((start settings).heard front)) ↔
      ∀ before change rest, (start settings).heard arrivals = before ++ .changed change :: rest →
        change.uri = uri → change.text.isSome → IsOpen uri before) := by
  have hstored (front : List Arrival) :
      (((start settings).after front).documents.get? uri).isSome ↔
        Since uri (Brings uri) ((start settings).heard front) := by
    rw [documents_after, DocumentStore.get?, Option.isSome_map, isSome_stored?_iff]
  refine ⟨hstored arrivals, ?_⟩
  simp only [hstored]
  rw [← forall_isOpen_iff]
  exact heard_front_iff arrivals fun front => Since uri (Brings uri) front → IsOpen uri front

-- A document is opened and closed, and then a late change of it comes in.
def lateChange : List Arrival :=
  let uri := Json.string "file:///pad"
  let messages : List (Option Json × String × List (String × Json)) := [
    (some (.nat 1), "initialize", [("capabilities", .object [])]),
    (none, "textDocument/didOpen", [("textDocument", .object [("uri", uri),
      ("languageId", .string "mongo"), ("version", .int 1), ("text", .string "db")])]),
    (none, "textDocument/didClose", [("textDocument", .object [("uri", uri)])]),
    (none, "textDocument/didChange",
      [("textDocument", .object [("uri", uri), ("version", .int 2)]),
        ("contentChanges", .array [.object [("text", .string "db.")]])])]
  messages.map fun (id, method, parameters) =>
    ⟨⟨⟨0, 0⟩, ⟨0⟩⟩, 0, ⟨id, method, some (.object parameters)⟩⟩

theorem documents_open_iff_inTime :
    let arrivals := lateChange.eraseIdx 2
    (((start {}).after arrivals).documents.get? "file:///pad").isSome ∧
      IsOpen "file:///pad" ((start {}).heard arrivals) := by
  intro arrivals
  have hstored : (((start {}).after arrivals).documents.get? "file:///pad").isSome := by
    decide +kernel
  have hheard : (start {}).heard arrivals =
      [.opened ⟨"file:///pad", 1, "db"⟩] ++ [.changed ⟨"file:///pad", 2, some "db."⟩] := by
    decide +kernel
  refine ⟨hstored, (documents_open_iff {} arrivals "file:///pad").2.mpr ?_ arrivals
    List.prefix_rfl hstored⟩
  intro before change rest hsplit _ _
  rw [hheard] at hsplit
  obtain ⟨-, rfl, -⟩ | ⟨rest, -, hopened⟩ := concat_eq_split_iff.mp hsplit
  · exact ⟨[], _, [], rfl, rfl, List.not_mem_nil⟩
  · -- The first of the two is no change.
    cases before <;> simp at hopened

theorem exists_stored_not_open : ¬ ∀ (arrivals : List Arrival) (uri : String),
    (((start {}).after arrivals).documents.get? uri).isSome →
      IsOpen uri ((start {}).heard arrivals) := by
  have hstored : ((start {}).after lateChange).documents.get? "file:///pad" = some "db." := by
    decide +kernel
  have hheard : (start {}).heard lateChange = [.opened ⟨"file:///pad", 1, "db"⟩,
      .closed "file:///pad", .changed ⟨"file:///pad", 2, some "db."⟩] := by
    decide +kernel
  intro h
  have hopen := h lateChange "file:///pad" (by rw [hstored]; rfl)
  rw [hheard] at hopen
  have hopen : Since "file:///pad" _ ([.opened _, .closed "file:///pad"] ++ [.changed _]) := hopen
  obtain hchange | ⟨-, hopen⟩ := since_concat.mp hopen
  · exact hchange.elim
  have hopen : Since "file:///pad" _ ([.opened _] ++ [.closed "file:///pad"]) := hopen
  obtain hclose | ⟨hne, -⟩ := since_concat.mp hopen
  · exact hclose.elim
  · exact hne rfl

end Server

end QueryPad
