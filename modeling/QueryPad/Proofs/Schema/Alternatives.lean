import QueryPad.Schema.Search

-- The search for alternatives ends, whatever the references lead to, and finds
-- the schemas within reach.
namespace QueryPad.Schema

variable {root schema found : Json}

section Reach

-- Through so many references, one after another.
inductive Follows (root : Json) : Nat → Json → Json → Prop where
  | here (schema : Json) : Follows root 0 schema schema
  | hop {hops : Nat} {schema next found : Json} (htarget : target? root schema = some next)
      (h : Follows root hops next found) : Follows root (hops + 1) schema found

-- References are followed as far as they lead, but not through more than 16.
def Resolves (root schema found : Json) : Prop :=
  ∃ hops ≤ 16, Follows root hops schema found ∧ (target? root found = none ∨ hops = 16)

-- The schema is one of those that a combination joins.
def IsMember (member schema : Json) : Prop :=
  ∃ key ∈ ["allOf", "anyOf", "oneOf"], ∃ items,
    schema.field? key = some (.array items) ∧ member ∈ items

-- Through so many combinations, one inside another.
inductive Reaches (root : Json) : Nat → Json → Json → Prop where
  | here {schema found : Json} (h : Resolves root schema found) : Reaches root 0 schema found
  | member {depth : Nat} {schema joined member found : Json} (hjoined : Resolves root schema joined)
      (hmember : IsMember member joined) (h : Reaches root depth member found) :
      Reaches root (depth + 1) schema found

theorem eq_follow_iff {room : Nat} : found = follow root room schema ↔
    ∃ hops ≤ room, Follows root hops schema found ∧ (target? root found = none ∨ hops = room) := by
  induction room generalizing schema with
  | zero =>
    rw [follow]
    constructor
    · rintro rfl
      exact ⟨0, Nat.le_refl _, .here found, .inr rfl⟩
    · rintro ⟨hops, hle, h, -⟩
      obtain rfl := Nat.le_zero.mp hle
      cases h
      rfl
  | succ room ih =>
    rw [follow]
    cases htarget : target? root schema with
    | none =>
      constructor
      · rintro rfl
        exact ⟨0, Nat.zero_le _, .here _, .inl htarget⟩
      · rintro ⟨hops, hle, h, -⟩
        cases h with
        | here => rfl
        | hop hnext _ => simp [htarget] at hnext
    | some next =>
      refine ih.trans ⟨?_, ?_⟩
      · rintro ⟨hops, hle, h, hend⟩
        exact ⟨hops + 1, Nat.succ_le_succ hle, .hop htarget h, hend.imp_right (congrArg _)⟩
      · rintro ⟨hops, hle, h, hend⟩
        cases h with
        | here => simp [htarget] at hend
        | @hop hops _ other _ hnext h =>
          obtain rfl := Option.some.inj (htarget.symm.trans hnext)
          exact ⟨hops, Nat.le_of_succ_le_succ hle, h, hend.imp_right Nat.succ.inj⟩

theorem eq_resolve_iff : found = resolve root schema ↔ Resolves root schema found := eq_follow_iff

theorem resolves_resolve (root schema : Json) : Resolves root schema (resolve root schema) :=
  eq_resolve_iff.mp rfl

theorem mem_members_iff {member : Json} : member ∈ members schema ↔ IsMember member schema := by
  rw [members, List.mem_flatMap]
  refine exists_congr fun key => and_congr_right fun _ => ?_
  cases schema.field? key with
  | none => simp
  | some value => cases value <;> simp [Json.items?]

theorem mem_alternatives_iff {room : Nat} :
    found ∈ alternatives root room schema ↔ ∃ depth ≤ room, Reaches root depth schema found := by
  induction room generalizing schema with
  | zero =>
    rw [alternatives, List.mem_singleton, eq_resolve_iff]
    constructor
    · exact fun h => ⟨0, Nat.le_refl _, .here h⟩
    · rintro ⟨depth, hle, h⟩
      obtain rfl := Nat.le_zero.mp hle
      cases h with
      | here h => exact h
  | succ room ih =>
    simp only [alternatives, List.mem_cons, List.mem_flatMap, List.mem_reverse, mem_members_iff, ih]
    constructor
    · rintro (h | ⟨member, hmember, depth, hle, h⟩)
      · exact ⟨0, Nat.zero_le _, .here (eq_resolve_iff.mp h)⟩
      · exact ⟨depth + 1, Nat.succ_le_succ hle, .member (resolves_resolve root schema) hmember h⟩
    · rintro ⟨depth, hle, h⟩
      cases h with
      | here h => exact .inl (eq_resolve_iff.mpr h)
      | member hjoined hmember h =>
        obtain rfl := eq_resolve_iff.mpr hjoined
        exact .inr ⟨_, hmember, _, Nat.le_of_succ_le_succ hle, h⟩

end Reach

namespace Search

theorem run?_add (root : Json) (turns more : Nat) (search : Search) :
    run? root (turns + more) search = (run? root turns search).bind (run? root more) := by
  induction turns generalizing search with
  | zero => rw [Nat.zero_add]; rfl
  | succ turns ih =>
    rw [Nat.succ_add, run?, run?, Option.bind_assoc]
    exact congrArg _ (funext ih)

-- What waits behind a schema is not touched before all its alternatives are found.
theorem run?_alternatives {room depth : Nat} (hdepth : depth + room = depthLimit)
    (found : List Json) (waiting : List (Json × Nat)) :
    run? root (alternatives root room schema).length ⟨found, (schema, depth) :: waiting⟩ =
      some ⟨found ++ alternatives root room schema, waiting⟩ := by
  induction room generalizing schema depth found waiting with
  | zero =>
    have hdeep : ¬ depth < depthLimit := by omega
    simp [alternatives, run?, next?, hdeep]
  | succ room ih =>
    have hshallow : depth < depthLimit := by omega
    -- the members wait in reverse, and each is searched to its end
    have hall : ∀ (schemas found : List Json),
        run? root (schemas.flatMap (alternatives root room)).length
            ⟨found, schemas.map (·, depth + 1) ++ waiting⟩ =
          some ⟨found ++ schemas.flatMap (alternatives root room), waiting⟩ := by
      intro schemas
      induction schemas with
      | nil => simp [run?]
      | cons first schemas ihall =>
        intro found
        rw [List.flatMap_cons, List.length_append, run?_add, List.map_cons, List.cons_append,
          ih (by omega), Option.bind_some, ihall, List.append_assoc]
    rw [alternatives, List.length_cons, run?, next?]
    simp only [hshallow, if_true, Option.bind_some, ← List.map_reverse, hall]
    simp

-- Every turn finds one alternative, so there are as many turns as alternatives.
theorem run?_start (root schema : Json) :
    run? root (alternatives root depthLimit schema).length (.start schema) =
      some ⟨alternatives root depthLimit schema, []⟩ :=
  run?_alternatives (Nat.zero_add depthLimit) [] []

end Search

end QueryPad.Schema
