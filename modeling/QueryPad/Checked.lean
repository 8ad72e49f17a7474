import QueryPad.Text.Width

-- Computations that stop at the first number, difference or cut that is out
-- of range, in place of going on with some value.
namespace QueryPad

open Text

inductive Breach where
  -- A number that names no item of a list.
  | index
  -- A difference below zero.
  | difference
  -- A cut past the end of a text, turned round, or inside a character.
  | cut
  -- More calls inside each other than there are nodes.
  | depth
  deriving DecidableEq

abbrev Checked := Except Breach

namespace Checked

variable {α β γ δ : Type}

def item (list : List α) (index : Nat) : Checked α :=
  match list[index]? with
  | some a => .ok a
  | none => .error .index

def minus (a b : Nat) : Checked Nat := if b ≤ a then .ok (a - b) else .error .difference

-- The characters between two byte offsets.
def cut (text : List Char) (start stop : Nat) : Checked (List Char) :=
  match slice? text start stop with
  | some inside => .ok inside
  | none => .error .cut

-- The items from one number to another, the last one included.
def part (list : List α) (first last : Nat) : Checked (List α) :=
  if first ≤ last + 1 ∧ last < list.length then .ok ((list.take (last + 1)).drop first)
  else .error .index

-- So many items from the front.
def front (list : List α) (count : Nat) : Checked (List α) :=
  if count ≤ list.length then .ok (list.take count) else .error .index

def modify (list : List α) (index : Nat) (change : α → α) : Checked (List α) :=
  if index < list.length then .ok (list.modify index change) else .error .index

-- A new item may also stand behind all others.
def insert (list : List α) (index : Nat) (a : α) : Checked (List α) :=
  if index ≤ list.length then .ok (list.take index ++ a :: list.drop index) else .error .index

@[simp] theorem pure_eq (a : α) : (pure a : Checked α) = .ok a := rfl

@[simp] theorem ok_bind (a : α) (next : α → Checked β) : (Except.ok a >>= next) = next a := rfl

@[simp] theorem map_ok (f : α → β) (a : α) : (f <$> (Except.ok a : Checked α)) = .ok (f a) := rfl

theorem item_eq {list : List α} {index : Nat} {a : α} (h : list[index]? = some a) :
    item list index = .ok a := by
  rw [item, h]

theorem minus_eq {a b : Nat} (h : b ≤ a) : minus a b = .ok (a - b) := if_pos h

theorem cut_eq {text inside : List Char} {start stop : Nat}
    (h : slice? text start stop = some inside) : cut text start stop = .ok inside := by
  rw [cut, h]

theorem part_eq {list : List α} {first last : Nat} (h : first ≤ last + 1)
    (hlast : last < list.length) :
    part list first last = .ok ((list.take (last + 1)).drop first) := if_pos ⟨h, hlast⟩

theorem front_eq {list : List α} {count : Nat} (h : count ≤ list.length) :
    front list count = .ok (list.take count) := if_pos h

theorem modify_eq {list : List α} {index : Nat} (h : index < list.length) (change : α → α) :
    modify list index change = .ok (list.modify index change) := if_pos h

theorem insert_eq {list : List α} {index : Nat} (h : index ≤ list.length) (a : α) :
    insert list index a = .ok (list.take index ++ a :: list.drop index) := if_pos h

-- Going through a list, or through the names of its items, breaks nothing if
-- no step does.
section Lists

variable {list : List α}

variable {name : α → β}

theorem mapM_map {step : β → Checked γ} {f : α → γ} (h : ∀ a ∈ list, step (name a) = .ok (f a)) :
    (list.map name).mapM step = .ok (list.map f) := by
  induction list with
  | nil => rfl
  | cons a list ih =>
    obtain ⟨ha, hmore⟩ := List.forall_mem_cons.mp h
    rw [List.map_cons, List.mapM_cons, ha, ok_bind, ih hmore]
    rfl

theorem mapM_eq {step : α → Checked γ} {f : α → γ} (h : ∀ a ∈ list, step a = .ok (f a)) :
    list.mapM step = .ok (list.map f) := by
  have hmap := @mapM_map _ _ _ list id step f h
  rwa [List.map_id] at hmap

theorem findM?_map {step : β → Checked Bool} {p : α → Bool}
    (h : ∀ a ∈ list, step (name a) = .ok (p a)) :
    (list.map name).findM? step = .ok ((list.find? p).map name) := by
  induction list with
  | nil => rfl
  | cons a list ih =>
    obtain ⟨ha, hmore⟩ := List.forall_mem_cons.mp h
    rw [List.map_cons, List.findM?, ha, ok_bind, List.find?_cons]
    cases p a with
    | true => rfl
    | false => exact ih hmore

theorem findSomeM?_map {step : β → Checked (Option γ)} {f : α → Option γ}
    (h : ∀ a ∈ list, step (name a) = .ok (f a)) :
    (list.map name).findSomeM? step = .ok (list.findSome? f) := by
  induction list with
  | nil => rfl
  | cons a list ih =>
    obtain ⟨ha, hmore⟩ := List.forall_mem_cons.mp h
    rw [List.map_cons, List.findSomeM?, ha, ok_bind, List.findSome?_cons]
    cases f a with
    | some c => rfl
    | none => exact ih hmore

theorem filterAuxM_map {step : β → Checked Bool} {p : α → Bool}
    (h : ∀ a ∈ list, step (name a) = .ok (p a)) (kept : List β) :
    (list.map name).filterAuxM step kept =
      .ok (((list.filter p).map name).reverse ++ kept) := by
  induction list generalizing kept with
  | nil => rfl
  | cons a list ih =>
    obtain ⟨ha, hmore⟩ := List.forall_mem_cons.mp h
    rw [List.map_cons, List.filterAuxM, ha, ok_bind, ih hmore, List.filter_cons]
    cases p a <;> simp

theorem filterM_map {step : β → Checked Bool} {p : α → Bool}
    (h : ∀ a ∈ list, step (name a) = .ok (p a)) :
    (list.map name).filterM step = .ok ((list.filter p).map name) := by
  rw [List.filterM, filterAuxM_map h, ok_bind]
  simp

-- The same for a fold, whose states have names too, as long as each state
-- is one that the steps are right for.
theorem foldlM_hom {state : δ → γ} {step : γ → β → Checked γ} {f : δ → α → δ} {holds : δ → Prop}
    (h : ∀ a ∈ list, ∀ d, holds d → step (state d) (name a) = .ok (state (f d a)) ∧ holds (f d a))
    {d : δ} (hd : holds d) :
    (list.map name).foldlM step (state d) = .ok (state (list.foldl f d)) ∧
      holds (list.foldl f d) := by
  induction list generalizing d with
  | nil => exact ⟨rfl, hd⟩
  | cons a list ih =>
    obtain ⟨ha, hmore⟩ := List.forall_mem_cons.mp h
    obtain ⟨hstep, hnext⟩ := ha d hd
    rw [List.map_cons, List.foldlM_cons, hstep, ok_bind, List.foldl_cons]
    exact ih hmore hnext

theorem foldlM_eq {step : γ → α → Checked γ} {f : γ → α → γ} {holds : γ → Prop}
    (h : ∀ a ∈ list, ∀ c, holds c → step c a = .ok (f c a) ∧ holds (f c a))
    {c : γ} (hc : holds c) :
    list.foldlM step c = .ok (list.foldl f c) ∧ holds (list.foldl f c) := by
  have hmap := @foldlM_hom _ _ _ _ list id id step f holds h c hc
  rwa [List.map_id] at hmap

end Lists

end Checked

end QueryPad
