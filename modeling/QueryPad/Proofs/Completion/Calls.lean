import QueryPad.Completion.Calls

-- Names that a call finds in the cache were written since the cache was last
-- invalidated. They need not have been asked for since: a call whose answer is
-- still on its way then writes it down all the same.
namespace QueryPad

namespace CallStage

theorem isBeforeFetch_or_isFetching {stage : CallStage} (h : ¬ stage.isFinished) :
    stage.isBeforeFetch ∨ stage.isFetching := by
  cases stage with
  | idle | named | missed => exact .inl rfl
  | asking | told => exact .inr rfl
  | served | kept | failed | nameless => exact (h rfl).elim

end CallStage

theorem NameCache.fetched_of_isFresh {cache : NameCache} {database : String} {now : Nat}
    (h : cache.isFresh database now) : cache.fetched.isSome := by
  rw [isFresh, Bool.and_eq_true] at h
  cases hfetched : cache.fetched with
  | none => simp [hfetched] at h
  | some moment => rfl

namespace Calls

-- What holds since the cache was invalidated, with the calls as they were then.
structure Since (old calls : Calls) : Prop where
  cached : calls.cache.fetched.isSome →
    calls.stages calls.keeper = .kept calls.cache.names ∧ ¬ (old.stages calls.keeper).isFinished
  served : ∀ call names keeper, calls.stages call = .served names keeper →
    old.stages call = .served names keeper ∨
      calls.stages keeper = .kept names ∧ ¬ (old.stages keeper).isFinished
  unfinished : ∀ call, ¬ (calls.stages call).isFinished → ¬ (old.stages call).isFinished

variable {old calls next last : Calls} {call now keeper : Nat} {stage : CallStage}
  {names : List String} {act : CallAct} {acts : List CallAct}

theorem set_stages_self (calls : Calls) (call : Nat) (stage : CallStage) :
    (calls.set call stage).stages call = stage := if_pos rfl

theorem set_stages_of_ne {other : Nat} (h : other ≠ call) :
    (calls.set call stage).stages other = calls.stages other := if_neg h

theorem since_invalidate (calls : Calls) :
    Since calls { calls with cache := calls.cache.invalidate } where
  cached h := by simp [NameCache.invalidate] at h
  served call names keeper h := .inl h
  unfinished call h := h

-- A call that has written names down takes no further step.
theorem kept_set (hcall : ¬ (calls.stages call).isFinished)
    (h : calls.stages keeper = .kept names) :
    (calls.set call stage).stages keeper = .kept names := by
  rw [set_stages_of_ne, h]
  rintro rfl
  exact hcall (by rw [h]; rfl)

theorem Since.set (h : Since old calls) (hcall : ¬ (calls.stages call).isFinished)
    (hserved : ∀ names keeper, stage = .served names keeper →
      calls.stages keeper = .kept names ∧ ¬ (old.stages keeper).isFinished) :
    Since old (calls.set call stage) where
  cached hcached := by
    obtain ⟨hkept, hold⟩ := h.cached hcached
    exact ⟨kept_set hcall hkept, hold⟩
  served other names keeper hother := by
    by_cases hsame : other = call
    · subst hsame
      rw [set_stages_self] at hother
      obtain ⟨hkept, hold⟩ := hserved names keeper hother
      exact .inr ⟨kept_set hcall hkept, hold⟩
    · rw [set_stages_of_ne hsame] at hother
      exact (h.served other names keeper hother).imp_right fun hkept =>
        ⟨kept_set hcall hkept.1, hkept.2⟩
  unfinished other hother := by
    by_cases hsame : other = call
    · exact hsame ▸ h.unfinished call hcall
    · rw [set_stages_of_ne hsame] at hother
      exact h.unfinished other hother

theorem unfinished_of_advance? (h : calls.advance? call now = some next) :
    ¬ (calls.stages call).isFinished := by
  cases hstage : calls.stages call with
  | served | kept | failed | nameless => simp [Calls.advance?, hstage] at h
  | idle | named | missed | asking | told => exact Bool.false_ne_true

theorem Since.advance? (h : Since old calls) (hnext : calls.advance? call now = some next) :
    Since old next := by
  have hcall := unfinished_of_advance? hnext
  unfold Calls.advance? at hnext
  split at hnext
  · obtain rfl := Option.some.inj hnext
    refine h.set hcall fun names keeper => ?_
    cases calls.source.database <;> simp
  · obtain rfl := Option.some.inj hnext
    refine h.set hcall fun names keeper => ?_
    split
    · next hfresh =>
      rintro ⟨⟩
      exact h.cached (NameCache.fetched_of_isFresh hfresh)
    · simp
  · obtain rfl := Option.some.inj hnext
    exact h.set hcall (by simp)
  · obtain rfl := Option.some.inj hnext
    refine h.set hcall fun names keeper => ?_
    cases calls.source.names <;> simp
  · next database names _ =>
    obtain rfl := Option.some.inj hnext
    -- The one step that fills the cache, by a call that had not finished before.
    have hset : Since old (calls.set call (.kept names)) := h.set hcall (by simp)
    exact ⟨fun _ => ⟨set_stages_self .., h.unfinished call hcall⟩, hset.served, hset.unfinished⟩
  all_goals simp at hnext

theorem Since.act? (h : Since old calls) (hnext : calls.act? act = some next) :
    Since old next := by
  cases act with
  | advance call now => exact h.advance? hnext
  | invalidate =>
    obtain rfl := Option.some.inj hnext
    exact ⟨by simp [NameCache.invalidate], h.served, h.unfinished⟩
  | change source =>
    obtain rfl := Option.some.inj hnext
    exact ⟨h.cached, h.served, h.unfinished⟩

theorem Since.run? (h : Since old calls) (hrun : calls.run? acts = some last) :
    Since old last := by
  induction acts generalizing calls with
  | nil =>
    obtain rfl := Option.some.inj hrun
    exact h
  | cons act acts ih =>
    obtain ⟨next, hnext, hrest⟩ := Option.bind_eq_some_iff.mp hrun
    exact ih (h.act? hnext) hrest

-- A call that nothing comes in between is a fetch.
theorem exists_run?_eq_fetch (h : calls.stages call = .idle) (now : Nat) : ∃ count,
    (calls.run? (List.replicate count (.advance call now))).map
        (fun last => (last.cache, (last.stages call).answer?)) =
      some ((calls.cache.fetch calls.source now).cache,
        some (calls.cache.fetch calls.source now).names) := by
  cases hdatabase : calls.source.database with
  | none =>
    refine ⟨1, ?_⟩
    simp [run?, act?, Calls.advance?, set, h, hdatabase, NameCache.fetch, CallStage.answer?]
  | some database =>
    by_cases hfresh : calls.cache.isFresh database now
    · refine ⟨2, ?_⟩
      simp [run?, act?, Calls.advance?, set, h, hdatabase, hfresh, NameCache.fetch,
        CallStage.answer?, List.replicate]
    · cases hnames : calls.source.names with
      | error error =>
        refine ⟨4, ?_⟩
        simp [run?, act?, Calls.advance?, set, h, hdatabase, hfresh, hnames, NameCache.fetch,
          CallStage.answer?, List.replicate]
      | ok names =>
        refine ⟨5, ?_⟩
        simp [run?, act?, Calls.advance?, set, h, hdatabase, hfresh, hnames, NameCache.fetch,
          CallStage.answer?, List.replicate]

-- What a call finds in the cache was written behind the last invalidation. It
-- was asked for behind it too, if the call that wrote it was not waiting for
-- its answer then.
theorem served_since_invalidate (hrun : calls.run? (.invalidate :: acts) = some last)
    (hidle : calls.stages call = .idle) (hserved : last.stages call = .served names keeper) :
    last.stages keeper = .kept names ∧
      ((calls.stages keeper).isBeforeFetch ∨ (calls.stages keeper).isFetching) := by
  obtain hold | ⟨hkept, hunfinished⟩ :=
    ((since_invalidate calls).run? hrun).served call names keeper hserved
  · simp [hidle] at hold
  · exact ⟨hkept, CallStage.isBeforeFetch_or_isFetching hunfinished⟩

theorem served_since_invalidate_twice :
    let calls : Calls := { cache := .empty 1000, source := ⟨some "shop", .ok ["users"]⟩ }
    let acts : List CallAct := List.replicate 5 (.advance 0 0) ++ List.replicate 2 (.advance 1 0)
    ∃ last, calls.run? (.invalidate :: acts) = some last ∧ last.stages 1 = .served ["users"] 0 ∧
      last.stages 0 = .kept ["users"] := by
  intro calls acts
  have hrun : ∃ last, calls.run? (.invalidate :: acts) = some last ∧
      last.stages 1 = .served ["users"] 0 := ⟨_, rfl, rfl⟩
  obtain ⟨last, hlast, hserved⟩ := hrun
  exact ⟨last, hlast, hserved, (served_since_invalidate hlast rfl hserved).1⟩

-- An answer that was on its way when the cache was invalidated is written down
-- behind it, and the next call takes it from there.
theorem exists_served_outdated : ¬ ∀ (lifetime : Nat) (source : CollectionSource)
    (front acts : List CallAct) (calls last : Calls) (call keeper : Nat) (names : List String),
    Calls.run? { cache := .empty lifetime, source } front = some calls →
    calls.run? (.invalidate :: acts) = some last →
    calls.stages call = .idle → last.stages call = .served names keeper →
    (calls.stages keeper).isBeforeFetch := by
  intro h
  have hbefore := h 1000 ⟨some "shop", .ok ["users"]⟩
    (List.replicate 4 (.advance 0 0) ++ [.change ⟨some "shop", .ok ["orders"]⟩])
    [.advance 0 0, .advance 1 0, .advance 1 0] _ _ 1 0 ["users"] rfl rfl rfl rfl
  exact Bool.false_ne_true hbefore

end Calls

end QueryPad
