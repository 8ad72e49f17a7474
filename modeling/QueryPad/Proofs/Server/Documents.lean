import Mathlib.Data.Int.Order.Basic
import Mathlib.Data.List.DropRight
import QueryPad.Proofs.Json.Value
import QueryPad.Server.Documents

-- What a run of updates and removals leaves in a store, told from the steps of
-- the run alone: of each document the newest text since it was last removed.
namespace QueryPad

-- Where an item stands in a list that has one more behind it.
theorem concat_eq_split_iff {α : Type} {items before after : List α} {item last : α} :
    items ++ [last] = before ++ item :: after ↔
      after = [] ∧ items = before ∧ last = item ∨
        ∃ rest, after = rest ++ [last] ∧ items = before ++ item :: rest := by
  constructor
  · intro h
    obtain rfl | ⟨rest, final, rfl⟩ := after.eq_nil_or_concat
    · obtain ⟨hitems, hlast⟩ := List.append_inj' h rfl
      exact .inl ⟨rfl, hitems, List.singleton_inj.mp hlast⟩
    · rw [List.concat_eq_append, ← List.cons_append, ← List.append_assoc] at h
      obtain ⟨hitems, hlast⟩ := List.append_inj' h rfl
      obtain rfl := List.singleton_inj.mp hlast
      exact .inr ⟨rest, List.concat_eq_append .., hitems⟩
  · rintro (⟨rfl, rfl, rfl⟩ | ⟨rest, rfl, rfl⟩)
    · rfl
    · rw [List.append_assoc, List.cons_append]

inductive StoreStep where
  | update (uri : String) (version : Int) (text : String)
  | remove (uri : String)
  deriving DecidableEq

namespace StoreStep

def uri : StoreStep → String
  | update uri _ _ => uri
  | remove uri => uri

-- What a step brings for a document.
def offer? (uri : String) : StoreStep → Option StoredDocument
  | update other version text => if other = uri then some ⟨version, text⟩ else none
  | remove _ => none

end StoreStep

namespace StoredDocument

-- The last among those of the greatest version.
def IsNewest (newest : StoredDocument) (offers : List StoredDocument) : Prop :=
  ∃ before after, offers = before ++ newest :: after ∧
    (∀ other ∈ before, other.version ≤ newest.version) ∧
    ∀ other ∈ after, other.version < newest.version

variable {newest other last : StoredDocument} {offers more others : List StoredDocument}

theorem isNewest_concat : newest.IsNewest (offers ++ [last]) ↔
    (newest = last ∧ ∀ other ∈ offers, other.version ≤ last.version) ∨
      newest.IsNewest offers ∧ last.version < newest.version := by
  constructor
  · rintro ⟨before, after, hoffers, hbefore, hafter⟩
    obtain ⟨-, rfl, rfl⟩ | ⟨rest, rfl, rfl⟩ := concat_eq_split_iff.mp hoffers
    · exact .inl ⟨rfl, hbefore⟩
    · rw [List.forall_mem_append, List.forall_mem_singleton] at hafter
      exact .inr ⟨⟨before, rest, rfl, hbefore, hafter.1⟩, hafter.2⟩
  · rintro (⟨rfl, hoffers⟩ | ⟨⟨before, after, rfl, hbefore, hafter⟩, hlast⟩)
    · exact ⟨offers, [], rfl, hoffers, by simp⟩
    · refine ⟨before, after ++ [last], by simp, hbefore, ?_⟩
      exact List.forall_mem_append.mpr ⟨hafter, List.forall_mem_singleton.mpr hlast⟩

theorem not_isNewest_nil : ¬ newest.IsNewest [] := by
  rintro ⟨before, after, h, -⟩
  simp at h

namespace IsNewest

theorem mem (h : newest.IsNewest offers) : newest ∈ offers := by
  obtain ⟨before, after, rfl, -⟩ := h
  exact List.mem_append_right _ List.mem_cons_self

theorem le (h : newest.IsNewest offers) (hother : other ∈ offers) :
    other.version ≤ newest.version := by
  obtain ⟨before, after, rfl, hbefore, hafter⟩ := h
  rw [List.mem_append, List.mem_cons] at hother
  obtain hmem | rfl | hmem := hother
  · exact hbefore other hmem
  · exact Int.le_refl _
  · exact Int.le_of_lt (hafter other hmem)

theorem mem_or_of_append (h : newest.IsNewest (offers ++ more)) :
    newest ∈ more ∨ newest.IsNewest offers ∧ ∀ other ∈ more, other.version < newest.version := by
  obtain ⟨before, after, hsplit, hbefore, hafter⟩ := h
  obtain ⟨behind, rfl, rfl⟩ | ⟨behind, rfl, hmore⟩ := List.append_eq_append_iff.mp hsplit
  · exact .inl (by simp)
  · cases behind with
    | nil =>
      rw [List.nil_append] at hmore
      exact .inl (hmore ▸ List.mem_cons_self)
    | cons first behind =>
      rw [List.cons_append, List.cons.injEq] at hmore
      obtain ⟨rfl, rfl⟩ := hmore
      rw [List.forall_mem_append] at hafter
      exact .inr ⟨⟨before, behind, rfl, hbefore, hafter.1⟩, hafter.2⟩

-- Where no two of the last offers have one version, their order is of no
-- account.
theorem append_perm (h : newest.IsNewest (offers ++ more)) (hperm : more.Perm others)
    (hdistinct : more.Pairwise (·.version ≠ ·.version)) :
    newest.IsNewest (offers ++ others) := by
  have hle {other : StoredDocument} (hmem : other ∈ offers ++ others) :
      other.version ≤ newest.version :=
    h.le ((hperm.append_left offers).mem_iff.mpr hmem)
  obtain hmem | ⟨⟨before, after, rfl, hbefore, hafter⟩, hlt⟩ := h.mem_or_of_append
  · obtain ⟨front, rest, rfl⟩ := List.append_of_mem (hperm.subset hmem)
    have hpairs := (hperm.pairwise_iff fun hne => Ne.symm hne).mp hdistinct
    have hrest := (List.pairwise_cons.mp (List.pairwise_append.mp hpairs).2.1).1
    refine ⟨offers ++ front, rest, by simp, fun other hother => hle ?_, fun other hother => ?_⟩
    · rw [← List.append_assoc]
      exact List.mem_append_left _ hother
    · have hmem : other ∈ offers ++ (front ++ newest :: rest) := by simp [hother]
      exact lt_of_le_of_ne (hle hmem) (Ne.symm (hrest other hother))
  · refine ⟨before, after ++ others, by simp, hbefore, ?_⟩
    exact List.forall_mem_append.mpr ⟨hafter, fun other hmem => hlt other (hperm.mem_iff.mpr hmem)⟩

end IsNewest

theorem exists_isNewest (h : offers ≠ []) : ∃ newest : StoredDocument, newest.IsNewest offers := by
  induction offers using List.reverseRecOn with
  | nil => exact (h rfl).elim
  | append_singleton offers last ih =>
    by_cases hle : ∀ other ∈ offers, other.version ≤ last.version
    · exact ⟨last, isNewest_concat.mpr (.inl ⟨rfl, hle⟩)⟩
    · push Not at hle
      obtain ⟨other, hmem, hlt⟩ := hle
      obtain ⟨newest, hnewest⟩ := ih (List.ne_nil_of_mem hmem)
      exact ⟨newest, isNewest_concat.mpr
        (.inr ⟨hnewest, Int.lt_of_lt_of_le hlt (hnewest.le hmem)⟩)⟩

end StoredDocument

namespace DocumentStore

open StoredDocument

def step (store : DocumentStore) : StoreStep → DocumentStore
  | .update uri version text => (store.update uri version text).1
  | .remove uri => store.remove uri

def after (steps : List StoreStep) : DocumentStore := steps.foldl step empty

-- What was brought for a document since it was last removed.
def offered (uri : String) (steps : List StoreStep) : List StoredDocument :=
  (steps.rtakeWhile (· ≠ .remove uri)).filterMap (·.offer? uri)

-- It was not only brought but taken in, and has not been removed since.
def WasStored (uri : String) (document : StoredDocument) (steps : List StoreStep) : Prop :=
  ∃ before rest, steps = before ++ .update uri document.version document.text :: rest ∧
    ((after before).update uri document.version document.text).2 ∧ .remove uri ∉ rest

variable {store : DocumentStore} {uri text : String} {version : Int} {document : StoredDocument}
  {offers : List StoredDocument} {steps updates : List StoreStep}

theorem stored?_remove (store : DocumentStore) (uri other : String) :
    (store.remove other).stored? uri = if uri = other then none else store.stored? uri := by
  rw [stored?, remove, stored?]
  induction store.entries with
  | nil => simp
  | cons entry entries ih =>
    by_cases hentry : entry.1 = other
    · rw [List.filter_cons_of_neg (by simpa using hentry), ih, lookup_cons_ite, hentry]
      by_cases huri : uri = other
      · rw [if_pos huri, if_pos huri]
      · rw [if_neg huri, if_neg huri, if_neg huri]
    · rw [List.filter_cons_of_pos (by simpa using hentry), lookup_cons_ite, lookup_cons_ite, ih]
      by_cases huri : uri = other
      · rw [if_pos huri, if_pos huri, if_neg fun h => hentry (h.symm.trans huri)]
      · rw [if_neg huri, if_neg huri]

theorem stored?_update (store : DocumentStore) (uri other : String) (version : Int)
    (text : String) :
    (store.update other version text).1.stored? uri =
      if uri = other ∧ store.accepts uri version then some ⟨version, text⟩
      else store.stored? uri := by
  unfold update
  by_cases haccepts : store.accepts other version
  · rw [if_pos haccepts, stored?, lookup_cons_ite, ← stored?, stored?_remove]
    by_cases huri : uri = other
    · rw [if_pos huri, if_pos ⟨huri, huri ▸ haccepts⟩]
    · rw [if_neg huri, if_neg huri, if_neg fun h => huri h.1]
  · rw [if_neg haccepts, if_neg]
    rintro ⟨rfl, h⟩
    exact haccepts h

theorem update_snd (store : DocumentStore) (uri : String) (version : Int) (text : String) :
    (store.update uri version text).2 = store.accepts uri version := by
  unfold update
  split
  · next h => exact h.symm
  · next h => exact (Bool.eq_false_iff.mpr h).symm

theorem stored?_step_of_ne {step : StoreStep} (h : step.uri ≠ uri) :
    (store.step step).stored? uri = store.stored? uri := by
  cases step with
  | update other version text =>
    exact (stored?_update ..).trans (if_neg fun hboth => h hboth.1.symm)
  | remove other => exact (stored?_remove ..).trans (if_neg (Ne.symm h))

theorem after_concat (steps : List StoreStep) (step : StoreStep) :
    after (steps ++ [step]) = (after steps).step step := List.foldl_concat ..

theorem offer?_eq_some_iff {step : StoreStep} :
    step.offer? uri = some document ↔ step = .update uri document.version document.text := by
  cases step with
  | update other version text =>
    rw [StoreStep.offer?, StoreStep.update.injEq]
    split
    · next h =>
      cases document
      simp [h]
    · next h => simp [h]
  | remove other => simp [StoreStep.offer?]

theorem offered_concat (uri : String) (steps : List StoreStep) (step : StoreStep) :
    offered uri (steps ++ [step]) =
      if step = .remove uri then [] else offered uri steps ++ (step.offer? uri).toList := by
  unfold offered
  split
  · next h => rw [List.rtakeWhile_concat_neg _ _ _ (by simpa using h), List.filterMap_nil]
  · next h =>
    rw [List.rtakeWhile_concat_pos _ _ _ (by simpa using h), List.filterMap_append]
    cases hoffer : step.offer? uri <;> simp [hoffer]

theorem offered_update (uri : String) (steps : List StoreStep) (version : Int) (text : String) :
    offered uri (steps ++ [.update uri version text]) =
      offered uri steps ++ [⟨version, text⟩] := by
  have hne : StoreStep.update uri version text ≠ .remove uri := by simp
  rw [offered_concat, if_neg hne, StoreStep.offer?, if_pos rfl, Option.toList_some]

theorem offered_concat_of_ne {step : StoreStep} (h : step.uri ≠ uri) :
    offered uri (steps ++ [step]) = offered uri steps := by
  rw [offered_concat]
  cases step with
  | update other version text =>
    have hother : other ≠ uri := h
    simp [StoreStep.offer?, hother]
  | remove other =>
    have hother : other ≠ uri := h
    simp [StoreStep.offer?, hother]

theorem offered_append (h : .remove uri ∉ updates) :
    offered uri (steps ++ updates) = offered uri steps ++ updates.filterMap (·.offer? uri) := by
  induction updates using List.reverseRecOn with
  | nil => simp
  | append_singleton updates step ih =>
    rw [List.mem_append, List.mem_singleton, not_or] at h
    rw [← List.append_assoc, offered_concat, if_neg fun hstep => h.2 hstep.symm, ih h.1,
      List.filterMap_append, List.append_assoc]
    cases hoffer : step.offer? uri <;> simp [hoffer]

theorem accepts_iff_of_stored?
    (h : ∀ document, store.stored? uri = some document ↔ document.IsNewest offers) :
    store.accepts uri version ↔ ∀ other ∈ offers, other.version ≤ version := by
  rw [accepts]
  cases hstored : store.stored? uri with
  | none =>
    have hoffers : offers = [] := by
      by_contra hne
      obtain ⟨newest, hnewest⟩ := exists_isNewest hne
      simp [(h newest).mpr hnewest] at hstored
    simp [hoffers]
  | some newest =>
    have hnewest := (h newest).mp hstored
    rw [Option.all_some, decide_eq_true_iff]
    exact ⟨fun hle other hmem => (hnewest.le hmem).trans hle, fun hle => hle newest hnewest.mem⟩

-- An update keeps the newest of what was brought.
theorem stored?_update_iff
    (h : ∀ document, store.stored? uri = some document ↔ document.IsNewest offers) :
    (store.update uri version text).1.stored? uri = some document ↔
      document.IsNewest (offers ++ [⟨version, text⟩]) := by
  rw [stored?_update, isNewest_concat]
  have haccepts : store.accepts uri version ↔ ∀ other ∈ offers, other.version ≤ version :=
    accepts_iff_of_stored? h
  by_cases hle : ∀ other ∈ offers, other.version ≤ version
  · rw [if_pos ⟨rfl, haccepts.mpr hle⟩, Option.some.injEq]
    constructor
    · rintro rfl
      exact .inl ⟨rfl, hle⟩
    · rintro (⟨rfl, -⟩ | ⟨hnewest, hlt⟩)
      · rfl
      · exact (Int.not_lt.mpr (hle document hnewest.mem) hlt).elim
  · rw [if_neg fun hnew => hle (haccepts.mp hnew.2), h]
    constructor
    · intro hnewest
      push Not at hle
      obtain ⟨other, hmem, hlt⟩ := hle
      exact .inr ⟨hnewest, hlt.trans_le (hnewest.le hmem)⟩
    · rintro (⟨-, hall⟩ | ⟨hnewest, -⟩)
      · exact (hle hall).elim
      · exact hnewest

theorem stored?_after_iff (steps : List StoreStep) (uri : String) (document : StoredDocument) :
    (after steps).stored? uri = some document ↔ document.IsNewest (offered uri steps) := by
  induction steps using List.reverseRecOn generalizing document with
  | nil => simp [after, empty, stored?, offered, not_isNewest_nil]
  | append_singleton steps step ih =>
    rw [after_concat]
    -- A step about another document changes neither side.
    by_cases huri : step.uri = uri
    · cases step with
      | update other version text =>
        obtain rfl : other = uri := huri
        rw [offered_update]
        exact stored?_update_iff ih
      | remove other =>
        obtain rfl : other = uri := huri
        rw [DocumentStore.step, stored?_remove, if_pos rfl, offered_concat, if_pos rfl]
        simp [not_isNewest_nil]
    · rw [stored?_step_of_ne huri, offered_concat_of_ne huri]
      exact ih document

theorem accepts_after_iff : (after steps).accepts uri version ↔
    ∀ other ∈ offered uri steps, other.version ≤ version :=
  accepts_iff_of_stored? (stored?_after_iff steps uri)

theorem stored?_after_eq_none_iff : (after steps).stored? uri = none ↔ offered uri steps = [] := by
  constructor
  · intro hstored
    by_contra hne
    obtain ⟨newest, hnewest⟩ := exists_isNewest hne
    rw [(stored?_after_iff ..).mpr hnewest] at hstored
    simp at hstored
  · intro hoffered
    by_contra hne
    obtain ⟨newest, hnewest⟩ := Option.ne_none_iff_exists'.mp hne
    rw [stored?_after_iff, hoffered] at hnewest
    exact not_isNewest_nil hnewest

theorem WasStored.mem_offered (h : WasStored uri document steps) :
    document ∈ offered uri steps := by
  obtain ⟨before, rest, rfl, -, hrest⟩ := h
  rw [offered_append (by simpa using hrest)]
  apply List.mem_append_right
  rw [List.filterMap_cons_some (offer?_eq_some_iff.mpr rfl)]
  exact List.mem_cons_self

theorem WasStored.concat (h : WasStored uri document steps) {step : StoreStep}
    (hstep : step ≠ .remove uri) : WasStored uri document (steps ++ [step]) := by
  obtain ⟨before, rest, rfl, htaken, hrest⟩ := h
  exact ⟨before, rest ++ [step], by simp, htaken, by simp [hrest, Ne.symm hstep]⟩

theorem wasStored_of_stored? (h : (after steps).stored? uri = some document) :
    WasStored uri document steps := by
  induction steps using List.reverseRecOn with
  | nil => simp [after, empty, stored?] at h
  | append_singleton steps step ih =>
    rw [after_concat] at h
    cases step with
    | update other version text =>
      rw [DocumentStore.step, stored?_update] at h
      split at h
      · next hnew =>
        obtain ⟨rfl, htaken⟩ := hnew
        obtain rfl := Option.some.inj h
        exact ⟨steps, [], rfl, (update_snd ..).trans htaken, by simp⟩
      · exact (ih h).concat (by simp)
    | remove other =>
      rw [DocumentStore.step, stored?_remove] at h
      split at h
      · simp at h
      · next hne => exact (ih h).concat (by simpa using Ne.symm hne)

theorem update_after_iff : ((after steps).update uri version text).2 ↔
    ∀ document, WasStored uri document steps → document.version ≤ version := by
  rw [update_snd]
  constructor
  · intro haccepts document hdocument
    exact accepts_after_iff.mp haccepts document hdocument.mem_offered
  · intro hle
    rw [accepts]
    cases hstored : (after steps).stored? uri with
    | none => rfl
    | some document => simpa using hle document (wasStored_of_stored? hstored)

theorem offered_filter (uri : String) (steps : List StoreStep) :
    offered uri (steps.filter (·.uri = uri)) = offered uri steps := by
  induction steps using List.reverseRecOn with
  | nil => rfl
  | append_singleton steps step ih =>
    rw [List.filter_append]
    by_cases huri : step.uri = uri
    · rw [List.filter_cons_of_pos (by simpa using huri), List.filter_nil, offered_concat,
        offered_concat, ih]
    · rw [List.filter_cons_of_neg (by simpa using huri), List.filter_nil, List.append_nil, ih,
        offered_concat_of_ne huri]

theorem stored?_after_congr {others : List StoreStep}
    (h : ∀ document : StoredDocument,
      document.IsNewest (offered uri steps) ↔ document.IsNewest (offered uri others)) :
    (after steps).stored? uri = (after others).stored? uri := by
  ext document
  rw [stored?_after_iff, stored?_after_iff, h]

-- The newest text stays, in whatever order the texts come in, and what is done
-- about other documents is of no account.
theorem after_keeps_newest (steps : List StoreStep) (uri : String) :
    (∀ text, (after steps).get? uri = some text ↔
      ∃ version, IsNewest ⟨version, text⟩ (offered uri steps)) ∧
    ((after steps).get? uri = none ↔ offered uri steps = []) ∧
    (∀ version text, ((after steps).update uri version text).2 ↔
      ∀ document, WasStored uri document steps → document.version ≤ version) ∧
    (after (steps.filter (·.uri = uri))).stored? uri = (after steps).stored? uri ∧
    ∀ updates others : List StoreStep, updates.Perm others → .remove uri ∉ updates →
      (updates.filterMap (·.offer? uri)).Pairwise (·.version ≠ ·.version) →
      (after (steps ++ updates)).get? uri = (after (steps ++ others)).get? uri := by
  refine ⟨fun text => ?_, ?_, fun version text => update_after_iff, ?_,
    fun updates others hperm hremove hdistinct => ?_⟩
  · rw [get?, Option.map_eq_some_iff]
    constructor
    · rintro ⟨⟨version, text⟩, hstored, rfl⟩
      exact ⟨version, (stored?_after_iff ..).mp hstored⟩
    · rintro ⟨version, hnewest⟩
      exact ⟨⟨version, text⟩, (stored?_after_iff ..).mpr hnewest, rfl⟩
  · rw [get?, Option.map_eq_none_iff, stored?_after_eq_none_iff]
  · apply stored?_after_congr
    simp [offered_filter]
  · have hoffers := hperm.filterMap (·.offer? uri)
    have hothers : .remove uri ∉ others := fun hmem => hremove (hperm.mem_iff.mpr hmem)
    have hagain := (hoffers.pairwise_iff fun hne => Ne.symm hne).mp hdistinct
    rw [get?, get?, stored?_after_congr]
    intro document
    rw [offered_append hremove, offered_append hothers]
    exact ⟨fun h => h.append_perm hoffers hdistinct, fun h => h.append_perm hoffers.symm hagain⟩

theorem after_keeps_newest_reordered :
    let history := [StoreStep.update "pad" 6 "db", .remove "pad", .update "pad" 1 "db."]
    (after (history ++ [.update "pad" 3 "db.a", .update "pad" 2 "db.b", .remove "other"])).get?
      "pad" = some "db.a" ∧
    (after (history ++ [.update "pad" 2 "db.b", .remove "other", .update "pad" 3 "db.a"])).get?
      "pad" = some "db.a" := by
  intro history
  have hsame := (after_keeps_newest history "pad").2.2.2.2
    [.update "pad" 3 "db.a", .update "pad" 2 "db.b", .remove "other"]
    [.update "pad" 2 "db.b", .remove "other", .update "pad" 3 "db.a"]
    (by decide) (by decide) (by decide)
  have hfirst : (after (history ++ [.update "pad" 3 "db.a", .update "pad" 2 "db.b",
      .remove "other"])).get? "pad" = some "db.a" := by decide +kernel
  exact ⟨hfirst, hsame ▸ hfirst⟩

end DocumentStore

end QueryPad
