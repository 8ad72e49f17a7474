import Mathlib.Data.List.Forall2
import QueryPad.Proofs.Json.Value
import QueryPad.Schema.Navigation
import QueryPad.Schema.Pipeline

-- A schema that is moved into another one, with its references rewritten, is
-- walked through there as it was on its own.
namespace QueryPad

namespace Json.Pointer

theorem exists_parts (chars : List Char) : ∃ part more, parts chars = part :: more := by
  induction chars with
  | nil => exact ⟨_, _, rfl⟩
  | cons c chars ih =>
    obtain ⟨part, more, h⟩ := ih
    simp only [parts, h]
    split
    · exact ⟨_, _, rfl⟩
    · exact ⟨_, _, rfl⟩

theorem parts_append {before after part : List Char} {more : List (List Char)}
    (hbefore : '/' ∉ before) (h : parts after = part :: more) :
    parts (before ++ after) = (before ++ part) :: more := by
  induction before with
  | nil => exact h
  | cons c before ih =>
    obtain ⟨hc, hbefore⟩ := not_or.mp (mt List.mem_cons.mpr hbefore)
    simp [parts, ih hbefore, Ne.symm hc]

theorem parts_slash (chars : List Char) : parts ('/' :: chars) = [] :: parts chars := by
  obtain ⟨part, more, h⟩ := exists_parts chars
  simp [parts, h]

theorem unescape_ne_nil {part : List Char} (h : part ≠ []) : unescape part ≠ [] := by
  unfold unescape
  split <;> simp_all

end Json.Pointer

namespace Schema

-- What becomes of a value of a schema that is moved below a base.
def movedField (base key : String) : Json → Json
  | .string target => .string (if key = "$ref" then movedTarget base target else target)
  | other => rebase base other

section Fields

variable {base key : String}

theorem rebase_string (text : String) : rebase base (.string text) = .string text := by
  rw [rebase]
  all_goals simp

theorem rebaseFields_eq_map (fields : List (String × Json)) :
    rebaseFields base fields = fields.map fun field => (field.1, movedField base field.1 field.2) := by
  induction fields with
  | nil => rw [rebaseFields, List.map_nil]
  | cons field fields ih =>
    obtain ⟨key, value⟩ := field
    cases value <;> simp [rebaseFields, movedField, ih]

theorem rebaseItems_eq_map (items : List Json) : rebaseItems base items = items.map (rebase base) := by
  induction items with
  | nil => rw [rebaseItems, List.map_nil]
  | cons item items ih => rw [rebaseItems, ih, List.map_cons]

theorem movedField_of_ne (hkey : key ≠ "$ref") (value : Json) :
    movedField base key value = rebase base value := by
  cases value <;> simp [movedField, hkey, rebase_string]

theorem lookup_rebaseFields (fields : List (String × Json)) :
    (rebaseFields base fields).lookup key = (fields.lookup key).map (movedField base key) := by
  rw [rebaseFields_eq_map]
  induction fields with
  | nil => rfl
  | cons field fields ih =>
    rw [List.map_cons, lookup_cons_ite, lookup_cons_ite, ih]
    by_cases h : key = field.1
    · simp [h]
    · simp [h]

theorem field?_rebase (schema : Json) (key : String) :
    (rebase base schema).field? key = (schema.field? key).map (movedField base key) := by
  cases schema with
  | object fields => simp [rebase, Json.field?, lookup_rebaseFields]
  | _ => simp [rebase, Json.field?]

theorem items?_rebase (schema : Json) :
    (rebase base schema).items? = schema.items?.map (List.map (rebase base)) := by
  cases schema with
  | array items => simp [rebase, Json.items?, rebaseItems_eq_map]
  | _ => simp [rebase, Json.items?]

theorem string?_rebase (schema : Json) : (rebase base schema).string? = schema.string? := by
  cases schema <;> simp [rebase, Json.string?]

end Fields

-- A schema and what it is after the move. What is a text need not be the same
-- text then, and has no fields.
inductive Moved (base : String) : Json → Json → Prop where
  | schema (schema : Json) : Moved base schema (rebase base schema)
  | text (text moved : String) : Moved base (.string text) (.string moved)

theorem movedField_moved (base key : String) (value : Json) :
    Moved base value (movedField base key value) := by
  cases value with
  | string text => exact .text _ _
  | _ => exact .schema _

variable {base : String} {schema moved : Json}

theorem Moved.field? (h : Moved base schema moved) (key : String) :
    moved.field? key = (schema.field? key).map (movedField base key) := by
  cases h with
  | schema => exact field?_rebase schema key
  | text => rfl

theorem Moved.field?_of_ne (h : Moved base schema moved) (key : String) (hkey : key ≠ "$ref") :
    moved.field? key = (schema.field? key).map (rebase base) := by
  rw [h.field?, funext (movedField_of_ne hkey)]

section Relations

variable {α β γ δ ι : Type} {R : α → β → Prop} {S : γ → δ → Prop}

theorem rel_map {f : α → β} (h : ∀ x, R x (f x)) (found : Option α) :
    Option.Rel R found (found.map f) := by
  cases found with
  | none => exact .none
  | some x => exact .some (h x)

theorem rel_bind {found : Option α} {other : Option β} {f : α → Option γ} {g : β → Option δ}
    (h : Option.Rel R found other) (hstep : ∀ {x y}, R x y → Option.Rel S (f x) (g y)) :
    Option.Rel S (found.bind f) (other.bind g) := by
  cases h with
  | none => exact .none
  | some h => exact hstep h

theorem rel_foldlM {f : α → ι → Option α} {g : β → ι → Option β}
    (hstep : ∀ i {x y}, R x y → Option.Rel R (f x i) (g y i)) (is : List ι) {x : α} {y : β}
    (h : R x y) : Option.Rel R (is.foldlM f x) (is.foldlM g y) := by
  induction is generalizing x y with
  | nil => exact .some h
  | cons i is ih => exact rel_bind (hstep i h) ih

theorem rel_findSome? {f : α → Option γ} {g : β → Option δ}
    (hstep : ∀ {x y}, R x y → Option.Rel S (f x) (g y)) {xs : List α} {ys : List β}
    (h : List.Forall₂ R xs ys) : Option.Rel S (xs.findSome? f) (ys.findSome? g) := by
  induction h with
  | nil => exact .none
  | cons h _ ih =>
    have hfirst := hstep h
    rw [List.findSome?_cons, List.findSome?_cons]
    generalize f _ = found at hfirst
    generalize g _ = other at hfirst
    cases hfirst with
    | none => exact ih
    | some h => exact .some h

end Relations

-- A pointer leads to the same place in a schema that is moved as it is.
theorem Moved.step? (part : List Char) (h : Moved base schema moved) :
    Option.Rel (Moved base) (Json.Pointer.step? schema part) (Json.Pointer.step? moved part) := by
  cases h with
  | text => exact .none
  | schema =>
    cases schema with
    | object fields =>
      simp only [rebase, Json.Pointer.step?, lookup_rebaseFields]
      exact rel_map (movedField_moved base _) _
    | array items =>
      simp only [rebase, Json.Pointer.step?, rebaseItems_eq_map]
      cases Json.Pointer.index? part with
      | none => exact .none
      | some index =>
        simp only [Option.bind_eq_bind, Option.bind_some, List.getElem?_map]
        exact rel_map .schema _
    | _ => exact rebase.eq_def base _ ▸ .none

theorem at?_rebase (schema : Json) (pointer : List Char) :
    Option.Rel (Moved base) (schema.at? pointer) ((rebase base schema).at? pointer) := by
  cases pointer with
  | nil => exact .some (.schema schema)
  | cons c rest =>
    by_cases hc : c = '/'
    · subst hc
      exact rel_foldlM (fun part _ _ h => h.step? part) _ (.schema schema)
    · simp [Json.at?, hc]

-- A root, and another one in which it stands below a base.
def StandsBelow (base : String) (root whole : Json) : Prop :=
  ∀ pointer, Option.Rel (Moved base) (root.at? pointer) (whole.at? (base.toList ++ pointer))

theorem toList_movedTarget {target : String} {pointer : List Char}
    (h : target.toList = '#' :: pointer) :
    (movedTarget base target).toList = '#' :: (base.toList ++ pointer) := by
  simp [movedTarget, h]

theorem movedTarget_of_other {target : String} (h : ∀ pointer, target.toList ≠ '#' :: pointer) :
    movedTarget base target = target := by
  rw [movedTarget]
  split
  · next pointer htarget => exact absurd htarget (h pointer)
  · rfl

section Walk

variable {root whole : Json} (hroots : StandsBelow base root whole)

include hroots

theorem Moved.target? (h : Moved base schema moved) :
    Option.Rel (Moved base) (target? root schema) (target? whole moved) := by
  simp only [Schema.target?, h.field?]
  cases hvalue : schema.field? "$ref" with
  | none => exact .none
  | some value =>
    cases value with
    | string target =>
      simp only [Option.map_some, movedField, if_true, Json.string?, Option.bind_eq_bind,
        Option.bind_some]
      split
      · next pointer htarget =>
        rw [toList_movedTarget htarget]
        exact hroots pointer
      · next hother =>
        rw [movedTarget_of_other hother]
        split
        · next pointer htarget => exact absurd htarget (hother pointer)
        · exact .none
    | _ => simp [movedField, rebase, Json.string?]

theorem Moved.follow (room : Nat) (h : Moved base schema moved) :
    Moved base (follow root room schema) (follow whole room moved) := by
  induction room generalizing schema moved with
  | zero => exact h
  | succ room ih =>
    rw [Schema.follow, Schema.follow]
    have htarget := h.target? hroots
    generalize Schema.target? root schema = found at htarget
    generalize Schema.target? whole moved = other at htarget
    cases htarget with
    | none => exact h
    | some h => exact ih h

theorem Moved.resolve (h : Moved base schema moved) :
    Moved base (resolve root schema) (resolve whole moved) :=
  h.follow hroots depthLimit

omit hroots in
theorem Moved.members (h : Moved base schema moved) :
    members moved = (members schema).map (rebase base) := by
  have hmember (key : String) (hkey : key ≠ "$ref") : ((moved.field? key).bind Json.items?).getD [] =
      (((schema.field? key).bind Json.items?).getD []).map (rebase base) := by
    rw [h.field?_of_ne key hkey]
    cases schema.field? key with
    | none => rfl
    | some value =>
      simp only [Option.map_some, Option.bind_some, items?_rebase]
      cases value.items? <;> rfl
  simp [Schema.members, hmember]

theorem Moved.alternatives (room : Nat) (h : Moved base schema moved) :
    List.Forall₂ (Moved base) (alternatives root room schema) (alternatives whole room moved) := by
  induction room generalizing schema moved with
  | zero => exact .cons (h.resolve hroots) .nil
  | succ room ih =>
    rw [Schema.alternatives, Schema.alternatives, (h.resolve hroots).members, ← List.map_reverse]
    refine .cons (h.resolve hroots) (List.rel_flatMap (R := Moved base) ?_ fun _ _ => ih)
    exact List.forall₂_map_right_iff.mpr (List.forall₂_same.mpr fun member _ => .schema member)

omit hroots in
theorem Moved.stepInto? (step : Step) (h : Moved base schema moved) :
    Option.Rel (Moved base) (stepInto? schema step) (stepInto? moved step) := by
  cases step with
  | key name =>
    simp only [Schema.stepInto?, h.field?_of_ne "properties" (by decide)]
    cases schema.field? "properties" with
    | none => exact .none
    | some value =>
      simp only [Option.map_some, Option.bind_eq_bind, Option.bind_some, field?_rebase]
      exact rel_map (movedField_moved base name) _
  | item =>
    simp only [Schema.stepInto?, h.field?_of_ne "items" (by decide)]
    cases schema.field? "items" with
    | none => exact .none
    | some value =>
      cases value with
      | array items =>
        simp only [Option.map_some, rebase, rebaseItems_eq_map, List.head?_map]
        exact rel_map .schema _
      | _ => exact .some (.schema _)

theorem Moved.child? (step : Step) (h : Moved base schema moved) :
    Option.Rel (Moved base) (child? root schema step) (child? whole moved step) := by
  have hfound := rel_findSome? (fun h => Moved.stepInto? step h) (h.alternatives hroots depthLimit)
  rw [Schema.child?, Schema.child?, Option.map_eq_bind, Option.map_eq_bind]
  exact rel_bind hfound fun h => .some (h.resolve hroots)

theorem Moved.along? (path : List Step) (h : Moved base schema moved) :
    Option.Rel (Moved base) (path.foldlM (Schema.child? root) schema)
      (path.foldlM (Schema.child? whole) moved) :=
  rel_foldlM (fun step _ _ h => h.child? hroots step) path h

end Walk

section Pipeline

open Json.Pointer

theorem at?_definitions (query : Json) {pointer part : List Char} {more : List (List Char)}
    (h : parts pointer = part :: more) :
    (pipelineOf query).at? (queryPointer.toList ++ pointer) =
      ((("query".toList ++ part) :: more).map unescape).foldlM step?
        (.object [("query", rebase queryPointer query)]) := by
  have hparts : parts ("definitions".toList ++ '/' :: ("query".toList ++ pointer)) =
      "definitions".toList :: ("query".toList ++ part) :: more := by
    rw [parts_append (by decide) (parts_slash _), parts_append (by decide) h, List.append_nil]
  change ((parts ("definitions".toList ++ '/' :: ("query".toList ++ pointer))).map
    unescape).foldlM step? (pipelineOf query) = _
  rw [hparts, List.map_cons, List.foldlM_cons]
  rfl

-- What only begins with the name of the definition is not there.
theorem at?_beside (query : Json) {c : Char} (hc : c ≠ '/') (rest : List Char) :
    (pipelineOf query).at? (queryPointer.toList ++ c :: rest) = none := by
  obtain ⟨part, more, hrest⟩ := exists_parts rest
  have hparts : parts (c :: rest) = (c :: part) :: more := by simp [parts, hrest, hc]
  have hname : (String.ofList ("query".toList ++ unescape (c :: part)) == "query") = false := by
    rw [beq_eq_false_iff_ne]
    intro h
    have hchars := congrArg String.toList h
    rw [String.toList_ofList] at hchars
    exact unescape_ne_nil (List.cons_ne_nil c part) (List.append_right_eq_self.mp hchars)
  rw [at?_definitions query hparts, List.map_cons, List.foldlM_cons]
  change Option.bind (List.lookup (String.ofList ("query".toList ++ unescape (c :: part)))
    [("query", rebase queryPointer query)]) _ = none
  rw [List.lookup_cons, hname]
  rfl

-- In the schema of a pipeline, that of the queries stands under its pointer.
theorem standsBelow_pipelineOf (query : Json) :
    StandsBelow queryPointer query (pipelineOf query) := by
  intro pointer
  cases pointer with
  | nil =>
    have hparts : parts [] = [[]] := rfl
    rw [at?_definitions query hparts]
    exact .some (.schema query)
  | cons c rest =>
    by_cases hc : c = '/'
    · subst hc
      rw [at?_definitions query (parts_slash rest)]
      exact at?_rebase query ('/' :: rest)
    · have hnone : query.at? (c :: rest) = none := by simp [Json.at?, hc]
      rw [hnone, at?_beside query hc]
      exact .none

theorem resolve_of_plain {root schema : Json} (h : schema.field? "$ref" = none) :
    resolve root schema = schema := by
  simp [resolve, depthLimit, follow, target?, h]

theorem resolve_of_target? {root schema found : Json} (h : target? root schema = some found)
    (hplain : found.field? "$ref" = none) : resolve root schema = found := by
  have hend : target? root found = none := by simp [target?, hplain]
  simp [resolve, depthLimit, follow, h, hend]

theorem child?_of_plain {root schema : Json} (h : schema.field? "$ref" = none)
    (hmembers : members schema = []) (step : Step) :
    child? root schema step = (stepInto? schema step).map (resolve root) := by
  simp [child?, alternatives, depthLimit, resolve_of_plain h, hmembers]

-- A stage that filters documents leads to the schema of the queries.
theorem along?_match (query : Json) (hplain : query.field? "$ref" = none) (path : List Step) :
    along? (pipelineOf query) (.item :: .key "$match" :: path) =
      path.foldlM (child? (pipelineOf query)) (rebase queryPointer query) := by
  obtain ⟨stage, hstage, hmatch⟩ : ∃ stage,
      child? (pipelineOf query) (pipelineOf query) .item = some stage ∧
        child? (pipelineOf query) stage (.key "$match") =
          some (rebase queryPointer query) := by
    refine ⟨_, (child?_of_plain rfl rfl .item).trans rfl, ?_⟩
    have hmoved : (rebase queryPointer query).field? "$ref" = none := by
      rw [field?_rebase, hplain, Option.map_none]
    exact (child?_of_plain rfl rfl _).trans (congrArg some (resolve_of_target? rfl hmoved))
  rw [along?, List.foldlM_cons, hstage, Option.bind_eq_bind, Option.bind_some, List.foldlM_cons,
    hmatch, Option.bind_eq_bind, Option.bind_some]

end Pipeline

end Schema

end QueryPad
