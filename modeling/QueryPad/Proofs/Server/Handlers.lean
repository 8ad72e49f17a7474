import Mathlib.Data.List.Nodup
import QueryPad.Proofs.Server.Documents
import QueryPad.Server.Handlers

-- What handlers leave behind in any order of their steps: the newest text is
-- stored and told of. It is the last to be told of where texts are told of in
-- the order of storing.
namespace QueryPad

namespace Handlers

open StoredDocument

-- What has been told and what is still to be told of.
def said (uri : String) (handlers : Handlers) : List Notice :=
  handlers.notices ++ handlers.untold.map (·.notice uri)

-- The notice of the text that is stored has its place in what is said.
def IsNoticed (uri : String) (stands : List Notice → Notice → Prop) (stored : List Delivery)
    (handlers : Handlers) : Prop :=
  ∀ document, handlers.documents.stored? uri = some document →
    ∃ delivery ∈ stored, delivery.document = document ∧
      stands (handlers.said uri) (delivery.notice uri)

def StandsLast (notices : List Notice) (notice : Notice) : Prop := notices.getLast? = some notice

-- What holds between any two steps. The list is of the deliveries stored so
-- far, taken or not.
structure Reached (uri : String) (deliveries stored : List Delivery) (handlers : Handlers) :
    Prop where
  all : (stored ++ handlers.waiting).Perm deliveries
  newest : ∀ document, handlers.documents.stored? uri = some document ↔
    document.IsNewest (stored.map Delivery.document)
  untold : ∀ delivery ∈ handlers.untold, delivery ∈ stored
  told : ∀ notice ∈ handlers.notices, ∃ delivery ∈ stored, notice = delivery.notice uri
  noticed : IsNoticed uri (fun notices notice => notice ∈ notices) stored handlers

variable {uri : String} {deliveries stored : List Delivery} {handlers next : Handlers}
  {delivery : Delivery} {document : StoredDocument} {move : HandlerMove}
  {moves : List HandlerMove} {stands : List Notice → Notice → Prop}

theorem exists_split {α : Type} {items : List α} {index : Nat} {item : α}
    (h : items[index]? = some item) : ∃ before after, items = before ++ item :: after ∧
      index = before.length ∧ items.eraseIdx index = before ++ after := by
  obtain ⟨hlt, rfl⟩ := List.getElem?_eq_some_iff.mp h
  refine ⟨items.take index, items.drop (index + 1), ?_, ?_, List.eraseIdx_eq_take_drop_succ ..⟩
  · rw [List.getElem_cons_drop, List.take_append_drop]
  · rw [List.length_take, Nat.min_eq_left (Nat.le_of_lt hlt)]

theorem store_eq (handlers : Handlers) (uri : String) (delivery : Delivery) :
    handlers.store uri delivery = { handlers with
      documents := (handlers.documents.update uri delivery.version delivery.text).1
      untold := handlers.untold ++
        if handlers.documents.accepts uri delivery.version then [delivery] else [] } := by
  unfold store DocumentStore.update
  cases handlers.documents.accepts uri delivery.version <;> simp

-- All that a step can do.
theorem move?_cases (h : handlers.move? uri move = some next) :
    (∃ before delivery after, handlers.waiting = before ++ delivery :: after ∧
      next = { handlers with waiting := before ++ after }.store uri delivery) ∨
    ∃ before delivery after, move = .tell before.length ∧
      handlers.untold = before ++ delivery :: after ∧
      next = { handlers with
        untold := before ++ after, notices := handlers.notices ++ [delivery.notice uri] } := by
  cases move with
  | store index =>
    obtain ⟨delivery, hdelivery, hnext⟩ := Option.bind_eq_some_iff.mp h
    obtain ⟨before, after, hwaiting, -, herase⟩ := exists_split hdelivery
    rw [herase] at hnext
    exact .inl ⟨before, delivery, after, hwaiting, (Option.some.inj hnext).symm⟩
  | tell index =>
    obtain ⟨delivery, hdelivery, hnext⟩ := Option.bind_eq_some_iff.mp h
    obtain ⟨before, after, huntold, rfl, herase⟩ := exists_split hdelivery
    rw [herase] at hnext
    exact .inr ⟨before, delivery, after, rfl, huntold, (Option.some.inj hnext).symm⟩

theorem stored?_store
    (h : (handlers.store uri delivery).documents.stored? uri = some document) :
    handlers.documents.accepts uri delivery.version ∧ delivery.document = document ∨
      ¬ handlers.documents.accepts uri delivery.version ∧
        handlers.documents.stored? uri = some document := by
  rw [store_eq, DocumentStore.stored?_update] at h
  split at h
  · next haccepts => exact .inl ⟨haccepts.2, Option.some.inj h⟩
  · next hrefused => exact .inr ⟨fun haccepts => hrefused ⟨rfl, haccepts⟩, h⟩

-- A text that is taken is told of behind all others.
theorem IsNoticed.store {waiting : List Delivery} (h : IsNoticed uri stands stored handlers)
    (hbehind : ∀ notices notice, stands (notices ++ [notice]) notice) :
    IsNoticed uri stands (stored ++ [delivery])
      ({ handlers with waiting }.store uri delivery) := by
  intro document hdocument
  obtain ⟨haccepts, hsame⟩ | ⟨hrefused, hbefore⟩ := stored?_store hdocument
  · refine ⟨delivery, by simp, hsame, ?_⟩
    have hsaid := hbehind (handlers.said uri) (delivery.notice uri)
    simpa [said, store_eq, haccepts] using hsaid
  · obtain ⟨other, hother, hsame, hnotice⟩ := h document hbefore
    refine ⟨other, List.mem_append_left _ hother, hsame, ?_⟩
    simpa [said, store_eq, hrefused] using hnotice

theorem Reached.store {before after : List Delivery} (h : Reached uri deliveries stored handlers)
    (hwaiting : handlers.waiting = before ++ delivery :: after) :
    Reached uri deliveries (stored ++ [delivery])
      ({ handlers with waiting := before ++ after }.store uri delivery) where
  all := by
    have hmiddle : (delivery :: (before ++ after)).Perm (before ++ delivery :: after) :=
      List.perm_middle.symm
    rw [store_eq, List.append_assoc]
    exact (hmiddle.append_left stored).trans (hwaiting ▸ h.all)
  newest document := by
    rw [store_eq, List.map_append]
    exact DocumentStore.stored?_update_iff h.newest
  untold other hother := by
    rw [store_eq, List.mem_append] at hother
    rw [List.mem_append]
    obtain hbefore | hnew := hother
    · exact .inl (h.untold other hbefore)
    · split at hnew
      · exact .inr hnew
      · simp at hnew
  told notice hnotice := by
    rw [store_eq] at hnotice
    obtain ⟨other, hother, hsame⟩ := h.told notice hnotice
    exact ⟨other, List.mem_append_left _ hother, hsame⟩
  noticed := h.noticed.store (by simp)

theorem Reached.tell {before after : List Delivery} (h : Reached uri deliveries stored handlers)
    (huntold : handlers.untold = before ++ delivery :: after) :
    Reached uri deliveries stored { handlers with
      untold := before ++ after, notices := handlers.notices ++ [delivery.notice uri] } where
  all := h.all
  newest := h.newest
  untold other hother := by
    apply h.untold
    rw [huntold]
    exact (List.sublist_cons_self ..).append_left before |>.subset hother
  told notice hnotice := by
    obtain hbefore | hnew := List.mem_append.mp hnotice
    · exact h.told notice hbefore
    · exact ⟨delivery, h.untold delivery (by simp [huntold]), List.mem_singleton.mp hnew⟩
  noticed document hdocument := by
    obtain ⟨other, hother, hsame, hnotice⟩ := h.noticed document hdocument
    refine ⟨other, hother, hsame, ?_⟩
    rw [said, huntold] at hnotice
    simp only [said, List.map_append, List.map_cons, List.mem_append, List.mem_cons] at hnotice ⊢
    tauto

-- Telling of the text that was stored first only moves its notice from one
-- list to the other.
theorem IsNoticed.tell {after : List Delivery} (h : IsNoticed uri stands stored handlers)
    (huntold : handlers.untold = delivery :: after) :
    IsNoticed uri stands stored { handlers with
      untold := after, notices := handlers.notices ++ [delivery.notice uri] } := by
  intro document hdocument
  obtain ⟨other, hother, hsame, hnotice⟩ := h document hdocument
  refine ⟨other, hother, hsame, ?_⟩
  rw [said, huntold] at hnotice
  rwa [said, List.append_assoc]

theorem Reached.run? {last : Handlers} (h : Reached uri deliveries stored handlers)
    (hrun : handlers.run? uri moves = some last) : ∃ all, Reached uri deliveries all last ∧
      ((∀ index, .tell index ∈ moves → index = 0) → IsNoticed uri StandsLast stored handlers →
        IsNoticed uri StandsLast all last) := by
  induction moves generalizing stored handlers with
  | nil =>
    obtain rfl := Option.some.inj hrun
    exact ⟨stored, h, fun _ hlast => hlast⟩
  | cons move moves ih =>
    obtain ⟨next, hmove, hrest⟩ := Option.bind_eq_some_iff.mp hrun
    obtain ⟨before, delivery, after, hwaiting, rfl⟩ |
      ⟨before, delivery, after, rfl, huntold, rfl⟩ := move?_cases hmove
    · obtain ⟨all, hall, hlast⟩ := ih (h.store hwaiting) hrest
      refine ⟨all, hall, fun horder hfirst => hlast (fun index hmem => ?_) (hfirst.store ?_)⟩
      · exact horder index (List.mem_cons_of_mem _ hmem)
      · exact fun notices notice => List.getLast?_concat
    · obtain ⟨all, hall, hlast⟩ := ih (h.tell huntold) hrest
      refine ⟨all, hall, fun horder hfirst => hlast (fun index hmem => ?_) ?_⟩
      · exact horder index (List.mem_cons_of_mem _ hmem)
      · obtain rfl := List.length_eq_zero_iff.mp (horder _ List.mem_cons_self)
        exact hfirst.tell huntold

-- The server runs the handlers one after the other, each to its end.
theorem run?_take (server : Server) (uri : String) (delivery : Delivery) (waiting : List Delivery)
    (notices : List Notice) :
    let turn := server.take delivery.occasion uri delivery.version delivery.text
    run? uri { documents := server.documents, waiting := delivery :: waiting, notices }
        (if server.documents.accepts uri delivery.version then [.store 0, .tell 0]
          else [.store 0]) =
      some { documents := turn.server.documents, waiting, notices := notices ++ turn.notices } := by
  cases haccepts : server.documents.accepts uri delivery.version with
  | false => simp [run?, move?, store, Server.take, DocumentStore.update, haccepts]
  | true =>
    simp [run?, move?, store, Server.take, DocumentStore.update, haccepts, Delivery.notice]

-- Nothing is stored of the document when the handlers begin.
theorem isNoticed_start {documents : DocumentStore} (h : documents.stored? uri = none) :
    IsNoticed uri stands [] { documents, waiting := deliveries } := by
  intro document hdocument
  simp [h] at hdocument

theorem reached_start {documents : DocumentStore} (h : documents.stored? uri = none) :
    Reached uri deliveries [] { documents, waiting := deliveries } where
  all := .refl _
  newest document := by simp [h, not_isNewest_nil]
  untold := by simp
  told := by simp
  noticed := isNoticed_start h

theorem isNewest_iff_of_distinct (hdistinct : (deliveries.map (·.version)).Nodup)
    (hperm : stored.Perm deliveries) : document.IsNewest (stored.map Delivery.document) ↔
      ∃ delivery ∈ deliveries, delivery.document = document ∧
        ∀ other ∈ deliveries, other.version ≤ delivery.version := by
  have hversions {first second : Delivery} (hfirst : first ∈ deliveries)
      (hsecond : second ∈ deliveries) (h : first.version = second.version) : first = second :=
    List.inj_on_of_nodup_map hdistinct hfirst hsecond h
  constructor
  · intro h
    obtain ⟨delivery, hmem, rfl⟩ := List.mem_map.mp h.mem
    refine ⟨delivery, hperm.mem_iff.mp hmem, rfl, fun other hother => ?_⟩
    exact h.le (List.mem_map_of_mem (hperm.mem_iff.mpr hother))
  · rintro ⟨delivery, hmem, rfl, hle⟩
    -- The newest has the greatest version, and no other delivery has it too.
    have hstored := List.mem_map_of_mem (f := Delivery.document) (hperm.mem_iff.mpr hmem)
    obtain ⟨newest, hnewest⟩ := exists_isNewest (List.ne_nil_of_mem hstored)
    obtain ⟨found, hfound, rfl⟩ := List.mem_map.mp hnewest.mem
    have hsame := Int.le_antisymm (hle found (hperm.mem_iff.mp hfound)) (hnewest.le hstored)
    rwa [hversions (hperm.mem_iff.mp hfound) hmem hsame] at hnewest

-- In whatever order handlers act, the newest text is stored in the end and has
-- been told of. It is told of last where texts are told of in the order in
-- which they were stored.
theorem newest_told_of_finished {documents : DocumentStore} {last : Handlers}
    (hnone : documents.stored? uri = none) (hdistinct : (deliveries.map (·.version)).Nodup)
    (hrun : run? uri { documents, waiting := deliveries } moves = some last)
    (hfinished : last.isFinished) :
    (∀ document, last.documents.stored? uri = some document ↔
      ∃ delivery ∈ deliveries, delivery.document = document ∧
        ∀ other ∈ deliveries, other.version ≤ delivery.version) ∧
    (∀ notice ∈ last.notices, ∃ delivery ∈ deliveries, notice = delivery.notice uri) ∧
    ∀ delivery ∈ deliveries, last.documents.stored? uri = some delivery.document →
      delivery.notice uri ∈ last.notices ∧
      ((∀ index, .tell index ∈ moves → index = 0) →
        last.notices.getLast? = some (delivery.notice uri)) := by
  rw [isFinished, Bool.and_eq_true, List.isEmpty_iff, List.isEmpty_iff] at hfinished
  obtain ⟨hwaiting, huntold⟩ := hfinished
  obtain ⟨all, hall, hlast⟩ := (reached_start hnone).run? hrun
  have hperm : all.Perm deliveries := by simpa [hwaiting] using hall.all
  refine ⟨fun document => ?_, fun notice hnotice => ?_, fun delivery hdelivery hstored => ?_⟩
  · rw [hall.newest, isNewest_iff_of_distinct hdistinct hperm]
  · obtain ⟨delivery, hmem, hsame⟩ := hall.told notice hnotice
    exact ⟨delivery, hperm.mem_iff.mp hmem, hsame⟩
  · -- Versions tell deliveries apart, so the one noticed is this one.
    have hthis {other : Delivery} (hother : other ∈ all)
        (hsame : other.document = delivery.document) : other = delivery :=
      List.inj_on_of_nodup_map hdistinct (hperm.mem_iff.mp hother) hdelivery
        (congrArg StoredDocument.version hsame)
    have hsaid : last.said uri = last.notices := by simp [said, huntold]
    constructor
    · obtain ⟨other, hother, hsame, hnotice⟩ := hall.noticed _ hstored
      rw [hsaid] at hnotice
      exact hthis hother hsame ▸ hnotice
    · intro horder
      obtain ⟨other, hother, hsame, hnotice⟩ := hlast horder (isNoticed_start hnone) _ hstored
      rw [hsaid] at hnotice
      exact hthis hother hsame ▸ hnotice

theorem newest_told_of_finished_inOrder :
    let first : Delivery := ⟨1, "db.", ⟨⟨0, 0⟩, ⟨0⟩⟩⟩
    let second : Delivery := ⟨2, "db.a.find()", ⟨⟨0, 0⟩, ⟨0⟩⟩⟩
    ∃ last, run? "file:///pad" { documents := .empty, waiting := [second, first] }
        [.store 1, .store 0, .tell 0, .tell 0] = some last ∧
      last.notices.getLast? = some (second.notice "file:///pad") := by
  intro first second
  let last : Handlers := {
    documents := ⟨[("file:///pad", second.document)]⟩, waiting := []
    notices := [first.notice "file:///pad", second.notice "file:///pad"] }
  have hrun : run? "file:///pad" { documents := .empty, waiting := [second, first] }
      [.store 1, .store 0, .tell 0, .tell 0] = some last := rfl
  have hnone : DocumentStore.empty.stored? "file:///pad" = none := rfl
  have hlast := newest_told_of_finished hnone (by decide) hrun rfl
  exact ⟨last, hrun, (hlast.2.2 second (by simp) rfl).2 (by simp)⟩

-- The text stored first is told of last.
theorem exists_finished_outdated : ¬ ∀ (deliveries : List Delivery) (moves : List HandlerMove)
    (last : Handlers), (deliveries.map (·.version)).Nodup →
    run? "file:///pad" { documents := .empty, waiting := deliveries } moves = some last →
    last.isFinished → ∀ delivery ∈ deliveries,
      last.documents.stored? "file:///pad" = some delivery.document →
      last.notices.getLast? = some (delivery.notice "file:///pad") := by
  intro h
  let first : Delivery := ⟨1, "db.", ⟨⟨0, 0⟩, ⟨0⟩⟩⟩
  let second : Delivery := ⟨2, "db.a.find()", ⟨⟨0, 0⟩, ⟨0⟩⟩⟩
  have hlast := h [first, second] [.store 0, .store 0, .tell 1, .tell 0] _ (by decide) rfl rfl
    second (by simp) rfl
  have hsame : first.notice "file:///pad" = second.notice "file:///pad" := Option.some.inj hlast
  rw [Delivery.notice, Delivery.notice, Notice.diagnostics.injEq] at hsame
  have hne : (Pad.ofText first.text).diagnostics first.occasion ≠
      (Pad.ofText second.text).diagnostics second.occasion := by decide +kernel
  exact hne hsame.2

end Handlers

end QueryPad
