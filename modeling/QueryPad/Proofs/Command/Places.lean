import Mathlib
import QueryPad.Proofs.Command.Denotation
import QueryPad.Proofs.Json.Storing

-- The places of an argument, and what is found at them in its value.
namespace QueryPad

open Json

-- One step into a value.
inductive PathStep where
  | key (name : String)
  | index (place : Nat)

namespace Bson

def at? : List PathStep → Bson → Option Bson
  | [], value => some value
  | .key name :: path, .object fields => (fields.lookup name).bind (at? path)
  | .index place :: path, .array items => items[place]?.bind (at? path)
  | _ :: _, _ => none

-- A value found at a place, unless the place lies inside a date: an object
-- with the key of a date holds its moment, and whatever else it was written with
-- is gone.
def Finds (value : Bson) (path : List PathStep) (found : Bson) : Prop :=
  value.at? path = some found ∨
    ∃ above millis, above <+: path ∧ value.at? above = some (.date millis)

variable {path : List PathStep} {value found : Bson}

theorem Finds.date (millis : Int) (path : List PathStep) (found : Bson) :
    (Bson.date millis).Finds path found :=
  .inr ⟨[], millis, List.nil_prefix, rfl⟩

theorem Finds.key (h : value.Finds path found) {fields : List (String × Bson)} {name : String}
    (hlookup : fields.lookup name = some value) :
    (Bson.object fields).Finds (.key name :: path) found := by
  rcases h with hfound | ⟨above, millis, habove, hdate⟩
  · exact .inl (by simpa [at?, hlookup] using hfound)
  · refine .inr ⟨.key name :: above, millis, List.cons_prefix_cons.mpr ⟨rfl, habove⟩, ?_⟩
    simpa [at?, hlookup] using hdate

theorem Finds.index (h : value.Finds path found) {items : List Bson} {place : Nat}
    (hitem : items[place]? = some value) :
    (Bson.array items).Finds (.index place :: path) found := by
  rcases h with hfound | ⟨above, millis, habove, hdate⟩
  · exact .inl (by simpa [at?, hitem] using hfound)
  · refine .inr ⟨.index place :: above, millis, List.cons_prefix_cons.mpr ⟨rfl, habove⟩, ?_⟩
    simpa [at?, hitem] using hdate

end Bson

namespace Tree

-- The properties of an object as they are stored, where keys that differ in
-- doubled escapes only are one key.
def storedProperties (trees : List Tree) : List (String × Option Tree) :=
  mergeFields ((mergeFields (properties trees)).map fun property =>
    (thinText property.1, property.2))

def at? : List PathStep → Tree → Option Tree
  | [], tree => some tree
  | .key name :: path, .node .objectLiteral _ children =>
    ((storedProperties children).lookup name).join.bind (at? path)
  | .index place :: path, .node .arrayLiteral _ children =>
    (elements children)[place]?.join.bind (at? path)
  | _ :: _, _ => none

-- The value that stands at a place of an argument.
def heldAt? (argument : Tree) (path : List PathStep) : Option Tree :=
  (held? argument.children).bind (at? path)

variable {occasion : Occasion} {stored? : Tree → Option Bson}

-- What is shown of a value whose text is read back: some trees have a value of
-- their own, and it is found where they stand.
def Keeps (occasion : Occasion) (stored? : Tree → Option Bson) (path : List PathStep)
    (tree : Tree) : Prop :=
  ∀ room read value found, (tree.convert occasion).reports = [] →
    (tree.at? path).bind stored? = some found →
    (tree.convert occasion).value.thinned.reread? room = some read → Bson.ofJson read = .ok value →
    (∀ text, read ≠ .string text) ∧ value.Finds path found

section Object

variable (occasion) (start : Nat) (children : List Tree)

theorem thinned_objectLiteral :
    ((node .objectLiteral start children).convert occasion).value.thinned =
      .object (((mergeFields (properties children)).map fun property =>
        (thinText property.1, property.2)).map fun property =>
          (property.1, (conversionOf occasion property.2).value.thinned)) := by
  have hfields : fieldsOf (propertyConversions occasion children) =
      (properties children).map fun property =>
        (property.1, (conversionOf occasion property.2).value) := by
    rw [fieldsOf, propertyConversions, List.map_map]
    rfl
  rw [convert_objectLiteral, hfields,
    mergeFields_map fun held => (conversionOf occasion held).value, thinned, thinnedFields_eq,
    List.map_map, List.map_map]
  rfl

theorem exists_property {name : String} {held : Option Tree}
    (h : (storedProperties children).lookup name = some held) :
    ∃ property ∈ properties children, property.2 = held := by
  obtain ⟨before, after, hlist, _⟩ := List.lookup_eq_some_iff.mp h
  have hmem : (name, held) ∈ storedProperties children := by simp [hlist]
  obtain ⟨property, hproperty, heq⟩ := List.mem_map.mp (mem_of_mem_mergeFields hmem)
  exact ⟨property, mem_of_mem_mergeFields hproperty, (Prod.mk.inj heq).2⟩

end Object

theorem keeps_key {name : String} {path : List PathStep}
    (ih : ∀ tree : Tree, Keeps occasion stored? path tree) (start : Nat) (children : List Tree) :
    Keeps occasion stored? (.key name :: path) (node .objectLiteral start children) := by
  intro room read value found hquiet hstored hread hvalue
  rw [at?, Option.bind_assoc] at hstored
  obtain ⟨tree, hjoin, hstored⟩ := Option.bind_eq_some_iff.mp hstored
  have hlookup := Option.join_eq_some_iff.mp hjoin
  obtain ⟨property, hproperty, hheld⟩ := exists_property children hlookup
  have hinner : (tree.convert occasion).reports = [] := by
    rw [convert_objectLiteral] at hquiet
    have hall := List.flatMap_eq_nil_iff.mp hquiet _ (List.mem_map_of_mem hproperty)
    rwa [hheld] at hall
  rw [thinned_objectLiteral] at hread
  cases room with
  | zero => contradiction
  | succ room =>
    obtain ⟨fields, hfields, rfl⟩ := Option.map_eq_some_iff.mp hread
    have hmatch : FieldsMatch (fun held value =>
        (conversionOf occasion held).value.thinned.reread? room = some value)
          (storedProperties children) (mergeFields fields) :=
      .mergeFields (List.forall₂_map_left_iff.mp (rereadFields?_eq_some_iff.mp hfields))
    obtain ⟨json, hjson, hreread⟩ := hmatch.lookup hlookup
    refine ⟨by simp, ?_⟩
    rw [Bson.ofJson] at hvalue
    split at hvalue
    · next result hwrapped =>
      rcases Bson.readWrapped?_cases hwrapped with hstrings | ⟨moment, _, rfl⟩
      · -- no string is read back of a value with a place in it
        obtain ⟨before, after, hlist, _⟩ := List.lookup_eq_some_iff.mp hjson
        obtain ⟨text, rfl⟩ := hstrings (name, json) (by simp [hlist])
        exact absurd rfl ((ih tree room _ _ found hinner hstored hreread rfl).1 text)
      · obtain ⟨millis, rfl⟩ := Bson.eq_date_of_readDate hvalue
        exact .date millis _ _
    · cases hvalues : Bson.fieldsOfJson (mergeFields fields) with
      | error => simp [hvalues, Except.map] at hvalue
      | ok values =>
        obtain rfl : Bson.object values = value := by simpa [hvalues, Except.map] using hvalue
        obtain ⟨inner, hlookup, hinnerValue⟩ :=
          (Bson.fieldsOfJson_eq_ok_iff.mp hvalues).lookup hjson
        have hfound := (ih tree room json inner found hinner hstored hreread hinnerValue).2
        exact hfound.key hlookup

theorem keeps_index {place : Nat} {path : List PathStep}
    (ih : ∀ tree : Tree, Keeps occasion stored? path tree) (start : Nat) (children : List Tree) :
    Keeps occasion stored? (.index place :: path) (node .arrayLiteral start children) := by
  intro room read value found hquiet hstored hread hvalue
  rw [at?, Option.bind_assoc] at hstored
  obtain ⟨tree, hjoin, hstored⟩ := Option.bind_eq_some_iff.mp hstored
  have helement := Option.join_eq_some_iff.mp hjoin
  rw [convert_arrayLiteral] at hquiet hread
  have hinner : (tree.convert occasion).reports = [] :=
    List.flatMap_eq_nil_iff.mp hquiet _
      (List.mem_map_of_mem (List.mem_of_getElem? helement))
  rw [thinned, thinnedItems_eq, elementConversions, List.map_map, List.map_map] at hread
  cases room with
  | zero => contradiction
  | succ room =>
    obtain ⟨items, hitems, rfl⟩ := Option.map_eq_some_iff.mp hread
    refine ⟨by simp, ?_⟩
    rw [Bson.ofJson] at hvalue
    cases hvalues : Bson.itemsOfJson items with
    | error => simp [hvalues, Except.map] at hvalue
    | ok values =>
      obtain rfl : Bson.array values = value := by simpa [hvalues, Except.map] using hvalue
      have hread := List.forall₂_map_left_iff.mp (rereadItems?_eq_some_iff.mp hitems)
      obtain ⟨json, hjson, hreread⟩ := forall₂_getElem? hread helement
      obtain ⟨inner, hitem, hinnerValue⟩ :=
        forall₂_getElem? (Bson.itemsOfJson_eq_ok_iff.mp hvalues) hjson
      exact (ih tree room json inner found hinner hstored hreread hinnerValue).2.index hitem

-- What is shown of the trees themselves holds at every place.
theorem keeps (hleaf : ∀ tree : Tree, Keeps occasion stored? [] tree) (path : List PathStep)
    (tree : Tree) : Keeps occasion stored? path tree := by
  induction path generalizing tree with
  | nil => exact hleaf tree
  | cons step path ih =>
    intro room read value found hquiet hstored
    obtain ⟨leaf, hplace, _⟩ := Option.bind_eq_some_iff.mp hstored
    unfold at? at hplace
    split at hplace
    · contradiction
    · next hpath =>
      obtain ⟨rfl, rfl⟩ := List.cons.inj hpath
      exact keeps_key ih _ _ room read value found hquiet hstored
    · next hpath =>
      obtain ⟨rfl, rfl⟩ := List.cons.inj hpath
      exact keeps_index ih _ _ room read value found hquiet hstored
    · contradiction

end Tree

namespace Argument

variable {occasion : Occasion} {start : Nat} {children : List Tree}

-- An argument without anything to report was read back.
theorem exists_reread {tree : Tree} (hquiet : (ofTree occasion tree).2 = []) :
    (tree.convert occasion).reports = [] ∧
      ∃ read, (tree.convert occasion).value.thinned.reread? JsonReader.levels = some read ∧
        Bson.ofJson read = .ok (ofTree occasion tree).1.value := by
  rw [ofTree] at hquiet ⊢
  split at hquiet
  · next value hvalue =>
    refine ⟨hquiet, ?_⟩
    rw [halveEscapes_render, String.ofList_toList, Bson.ofExtendedText] at hvalue
    have hread := ofText_render (tree.convert occasion).value.thinned
    cases hjson : Json.ofText (tree.convert occasion).value.thinned.render with
    | error fault => simp [hjson] at hvalue
    | ok read =>
      rw [hjson] at hread hvalue
      exact ⟨read, hread.symm, hvalue⟩
  · contradiction

theorem convert_held {tree : Tree} (h : Tree.held? children = some tree) :
    (Tree.node .argument start children).convert occasion = tree.convert occasion := by
  rw [Tree.convert_carrier occasion start children (.inl rfl), h]
  rfl

theorem finds {stored? : Tree → Option Bson} {path : List PathStep} {tree : Tree} {found : Bson}
    (hleaf : ∀ tree : Tree, Tree.Keeps occasion stored? [] tree)
    (hquiet : (ofTree occasion (.node .argument start children)).2 = [])
    (hheld : (Tree.node .argument start children).heldAt? path = some tree)
    (hstored : stored? tree = some found) :
    (ofTree occasion (.node .argument start children)).1.value.Finds path found := by
  obtain ⟨top, htop, hplace⟩ := Option.bind_eq_some_iff.mp hheld
  have htop : Tree.held? children = some top := htop
  obtain ⟨hreports, read, hread, hvalue⟩ := exists_reread hquiet
  rw [convert_held htop] at hreports hread
  have hfound : (top.at? path).bind stored? = some found := by rw [hplace, Option.bind_some, hstored]
  exact (Tree.keeps hleaf path top JsonReader.levels read _ found hreports hfound hread hvalue).2

end Argument

-- The arguments that a command keeps.
def Tree.recordedArguments (command : Tree) : List Tree :=
  (command.calls.take 1).flatMap Tree.argumentsOf

theorem Tree.exists_argument {command argument : Tree} (h : argument ∈ command.recordedArguments) :
    ∃ start children, argument = .node .argument start children := by
  obtain ⟨call, _, hargument⟩ := List.mem_flatMap.mp h
  obtain ⟨list, _, hargument⟩ := List.mem_flatMap.mp hargument
  exact Tree.is_iff.mp (List.mem_filter.mp hargument).2

end QueryPad
