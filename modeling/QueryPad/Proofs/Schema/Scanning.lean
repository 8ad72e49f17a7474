import QueryPad.Proofs.Schema.Inside

-- The scan for the fields inside a field ends, and so do all those that it waits for.
-- Each has then come to what is inside its field and to nothing else.
namespace QueryPad.Schema

open FieldMap

variable {fields : FieldMap}

section Passage

variable {path name : FieldPath} {kinds : List BsonKind}

-- A bound on the turns in which these fields inside another are passed, with a scan
-- of its own for each that is directly inside.
def passage (fields : FieldMap) (path : FieldPath) (found : FieldMap) : Nat :=
  found.length +
    ((direct path found).map fun child => ((fields.inside child.1).length + 1) ^ 2).sum

theorem passage_cons_of_mem (hname : '.' ∈ name) (found : FieldMap) :
    passage fields path ((path ++ ['.'] ++ name, kinds) :: found) =
      passage fields path found + 1 := by
  rw [passage, direct_cons_of_mem hname, List.length_cons, passage, Nat.add_right_comm]

theorem passage_cons_of_notMem (hname : '.' ∉ name) (found : FieldMap) :
    passage fields path ((path ++ ['.'] ++ name, kinds) :: found) =
      ((fields.inside (path ++ ['.'] ++ name)).length + 1) ^ 2 + 1 + passage fields path found := by
  rw [passage, direct_cons_of_notMem hname, List.length_cons, List.map_cons, List.sum_cons, passage]
  dsimp only
  omega

theorem sum_sq_le (sizes : List Nat) : (sizes.map (· ^ 2)).sum ≤ sizes.sum ^ 2 := by
  induction sizes with
  | nil => simp
  | cons size sizes ih =>
    have hsquare : (size + sizes.sum) ^ 2 = size ^ 2 + 2 * (size * sizes.sum) + sizes.sum ^ 2 := by
      ring
    rw [List.map_cons, List.sum_cons, List.sum_cons, hsquare]
    omega

theorem passage_inside_lt (hsorted : fields.IsSorted) (path : FieldPath) :
    passage fields path (fields.inside path) < ((fields.inside path).length + 1) ^ 2 := by
  have hsum : ((direct path (fields.inside path)).map fun child =>
      ((fields.inside child.1).length + 1) ^ 2).sum ≤ (fields.inside path).length ^ 2 := by
    have hsquares := sum_sq_le ((direct path (fields.inside path)).map fun child =>
      (fields.inside child.1).length + 1)
    rw [List.map_map] at hsquares
    exact hsquares.trans (Nat.pow_le_pow_left (sum_direct_le hsorted path) 2)
  have hsquare : ((fields.inside path).length + 1) ^ 2 =
      (fields.inside path).length ^ 2 + 2 * (fields.inside path).length + 1 := by
    ring
  rw [passage]
  omega

end Passage

-- The scan came to all that is inside its field and to nothing else, and entered
-- what is directly inside.
structure FieldScan.IsComplete (fields : FieldMap) (scan : FieldScan) : Prop where
  visited : scan.visited = (fields.inside scan.path).map (·.1)
  added : scan.added = fields.schemasIn scan.path (direct scan.path (fields.inside scan.path))

theorem FieldScan.IsComplete.schema_eq {scan : FieldScan} (h : scan.IsComplete fields)
    (hsorted : fields.IsSorted) : scan.schema = fieldSchema scan.path scan.kinds fields := by
  rw [FieldScan.schema, h.added, fieldSchema_eq hsorted]

namespace FieldScan

variable {scan : FieldScan} {name : FieldPath} {kinds : List BsonKind} {found rest : FieldMap}

theorem next?_of_not_prefix (h : ∀ field ∈ scan.ahead, ¬ scan.path ++ ['.'] <+: field.1) :
    scan.next? = none := by
  rw [next?]
  split
  · rfl
  · next field rest hahead =>
    rw [after?_eq_none_iff.mpr (h field (hahead ▸ List.mem_cons_self)), Option.map_none]

theorem next?_of_ahead (h : scan.ahead = (scan.path ++ ['.'] ++ name, kinds) :: rest) :
    scan.next? = some (name, scan.path ++ ['.'] ++ name, kinds) := by
  rw [next?, h]
  dsimp only
  rw [after?_append, Option.map_some]

-- What a scan has collected when it has passed these fields.
def through (fields : FieldMap) (scan : FieldScan) (found rest : FieldMap) : FieldScan :=
  { scan with
    visited := scan.visited ++ found.map (·.1)
    added := scan.added ++ fields.schemasIn scan.path (direct scan.path found)
    ahead := rest }

theorem through_nil (h : scan.ahead = rest) : scan.through fields [] rest = scan := by
  subst h
  simp [through, direct, schemasIn]

theorem through_pass (hname : '.' ∈ name) :
    (scan.pass (scan.path ++ ['.'] ++ name)).through fields found rest =
      scan.through fields ((scan.path ++ ['.'] ++ name, kinds) :: found) rest := by
  rw [through, through, direct_cons_of_mem hname, List.map_cons, List.append_cons scan.visited]
  rfl

theorem through_add (hname : '.' ∉ name) :
    ((scan.pass (scan.path ++ ['.'] ++ name)).add (.ofList name)
        (fieldSchema (scan.path ++ ['.'] ++ name) kinds fields)).through fields found rest =
      scan.through fields ((scan.path ++ ['.'] ++ name, kinds) :: found) rest := by
  rw [through, through, direct_cons_of_notMem hname, schemasIn_cons, List.map_cons,
    List.append_cons scan.visited, List.append_cons scan.added]
  rfl

end FieldScan

namespace Scanning

theorem run?_add (turns more : Nat) (state : Scanning) :
    run? fields (turns + more) state = (run? fields turns state).bind (run? fields more) := by
  induction turns generalizing state with
  | zero => rw [Nat.zero_add]; rfl
  | succ turns ih =>
    rw [Nat.succ_add, run?, run?, Option.bind_assoc]
    exact congrArg _ (funext ih)

section Turns

variable {scan : FieldScan} {name path : FieldPath} {kinds : List BsonKind}

theorem next?_finish (h : scan.next? = none) (waiting ended : List FieldScan) :
    next? fields ⟨scan :: waiting, ended⟩ = some (finish scan waiting ended) := by
  rw [next?]
  simp only [h]

theorem next?_pass (h : scan.next? = some (name, path, kinds)) (hname : '.' ∈ name)
    (waiting ended : List FieldScan) :
    next? fields ⟨scan :: waiting, ended⟩ = some ⟨scan.pass path :: waiting, ended⟩ := by
  rw [next?]
  simp only [h, List.contains_iff_mem.mpr hname, if_true]

theorem next?_enter (h : scan.next? = some (name, path, kinds)) (hname : '.' ∉ name)
    (waiting ended : List FieldScan) :
    next? fields ⟨scan :: waiting, ended⟩ =
      some ⟨.start fields (.ofList name) path kinds :: scan.pass path :: waiting, ended⟩ := by
  rw [next?]
  simp only [h, if_neg (mt List.contains_iff_mem.mp hname)]

end Turns

-- Whatever waits for it, the scan for a path ends, and so do all those it waits for.
def Ends (fields : FieldMap) (path : FieldPath) : Prop :=
  ∀ name kinds waiting ended, ∃ turns ≤ ((fields.inside path).length + 1) ^ 2, ∃ inner scan,
    run? fields turns ⟨.start fields name path kinds :: waiting, ended⟩ =
        some (finish scan waiting (ended ++ inner)) ∧
      (scan.name = name ∧ scan.path = path ∧ scan.kinds = kinds) ∧
      ∀ other ∈ inner ++ [scan], other.IsComplete fields

-- A field directly inside is scanned to its end, and then its schema is entered.
theorem run?_child {scan : FieldScan} {name path : FieldPath} {kinds : List BsonKind}
    (hsorted : fields.IsSorted) (hnext : scan.next? = some (name, path, kinds))
    (hname : '.' ∉ name) (hends : Ends fields path) (waiting ended : List FieldScan) :
    ∃ turns ≤ ((fields.inside path).length + 1) ^ 2 + 1, ∃ inner,
      run? fields turns ⟨scan :: waiting, ended⟩ =
          some ⟨(scan.pass path).add (.ofList name) (fieldSchema path kinds fields) :: waiting,
            ended ++ inner⟩ ∧
        ∀ other ∈ inner, other.IsComplete fields := by
  obtain ⟨turns, hturns, inner, child, hrun, ⟨hchild, hpath, hkinds⟩, hcomplete⟩ :=
    hends (.ofList name) kinds (scan.pass path :: waiting) ended
  have hschema : child.schema = fieldSchema path kinds fields := by
    rw [(hcomplete child (by simp)).schema_eq hsorted, hpath, hkinds]
  refine ⟨turns + 1, by omega, inner ++ [child], ?_, hcomplete⟩
  rw [run?, next?_enter hnext hname, Option.bind_some, hrun, finish, List.modifyHead_cons, hchild,
    hschema, List.append_assoc]

-- The induction is on the fields still inside the one that is scanned.
theorem run?_scan (hsorted : fields.IsSorted) {path : FieldPath} {found rest : FieldMap}
    (scan : FieldScan) (waiting ended : List FieldScan) (hpath : scan.path = path)
    (hahead : scan.ahead = found ++ rest) (hfound : ∀ field ∈ found, path ++ ['.'] <+: field.1)
    (hrest : ∀ field ∈ rest, ¬ path ++ ['.'] <+: field.1)
    (hends : ∀ field ∈ direct path found, Ends fields field.1) :
    ∃ turns ≤ passage fields path found + 1, ∃ inner,
      run? fields turns ⟨scan :: waiting, ended⟩ =
          some (finish (scan.through fields found rest) waiting (ended ++ inner)) ∧
        ∀ other ∈ inner, other.IsComplete fields := by
  subst hpath
  induction found generalizing scan ended with
  | nil =>
    rw [List.nil_append] at hahead
    have hnext : scan.next? = none := FieldScan.next?_of_not_prefix (hahead.symm ▸ hrest)
    refine ⟨1, by simp, [], ?_, by simp⟩
    rw [FieldScan.through_nil hahead, List.append_nil, run?, next?_finish hnext]
    rfl
  | cons field found ih =>
    obtain ⟨child, kinds⟩ := field
    obtain ⟨⟨name, rfl⟩, htail⟩ := List.forall_mem_cons.mp hfound
    have hnext := FieldScan.next?_of_ahead hahead
    have hpassed : (scan.pass (scan.path ++ ['.'] ++ name)).ahead = found ++ rest := by
      rw [FieldScan.pass, hahead]
      rfl
    by_cases hname : '.' ∈ name
    · rw [direct_cons_of_mem hname] at hends
      obtain ⟨turns, hturns, inner, hrun, hinner⟩ := ih _ ended hpassed htail hrest hends
      rw [passage_cons_of_mem hname]
      refine ⟨turns + 1, Nat.succ_le_succ hturns, inner, ?_, hinner⟩
      rw [run?, next?_pass hnext hname, Option.bind_some, hrun, FieldScan.through_pass hname]
    · rw [direct_cons_of_notMem hname] at hends
      obtain ⟨hchild, hothers⟩ := List.forall_mem_cons.mp hends
      obtain ⟨first, hfirst, deeper, hrunFirst, hdeeper⟩ :=
        run?_child hsorted hnext hname hchild waiting ended
      obtain ⟨turns, hturns, inner, hrun, hinner⟩ :=
        ih ((scan.pass (scan.path ++ ['.'] ++ name)).add (.ofList name) _) (ended ++ deeper)
          hpassed htail hrest hothers
      rw [passage_cons_of_notMem hname]
      have hboth := Nat.add_le_add hfirst hturns
      refine ⟨first + turns, hboth, deeper ++ inner, ?_,
        List.forall_mem_append.mpr ⟨hdeeper, hinner⟩⟩
      rw [run?_add, hrunFirst, Option.bind_some, hrun, FieldScan.through_add hname,
        List.append_assoc ended]

-- Each scan ends, since less is inside a field directly inside than inside the field.
theorem ends (hsorted : fields.IsSorted) (path : FieldPath) : Ends fields path := by
  induction hsize : (fields.inside path).length using Nat.strong_induction_on
    generalizing path with
  | _ size ih =>
    subst hsize
    intro name kinds waiting ended
    obtain ⟨_, rest, _, hstart, hrest⟩ := startingAt_split hsorted path
    have hinside : ∀ field ∈ fields.inside path, path ++ ['.'] <+: field.1 :=
      fun _ hfield => (mem_inside_iff.mp hfield).2
    have hends : ∀ child ∈ direct path (fields.inside path), Ends fields child.1 :=
      fun child hchild => ih _ (length_inside_lt hsorted hchild) child.1 rfl
    obtain ⟨turns, hturns, inner, hrun, hinner⟩ := run?_scan hsorted
      (.start fields name path kinds) waiting ended rfl hstart hinside hrest hends
    exact ⟨turns, hturns.trans (passage_inside_lt hsorted path), inner, _, hrun, ⟨rfl, rfl, rfl⟩,
      List.forall_mem_append.mpr ⟨hinner, List.forall_mem_singleton.mpr ⟨rfl, rfl⟩⟩⟩

end Scanning

section Depth

variable {path : FieldPath}

-- A scan that so many others wait for: its path has as many points more than that
-- of the outermost one.
structure FieldScan.IsAt (fields : FieldMap) (path : FieldPath) (depth : Nat) (scan : FieldScan) :
    Prop where
  known : scan.path = path ∨ scan.path ∈ fields.map (·.1)
  points : scan.path.count '.' = path.count '.' + depth
  ahead : scan.ahead ⊆ fields

namespace FieldScan

variable {scan : FieldScan} {depth : Nat}

theorem mem_ahead_of_next? {name child : FieldPath} {kinds : List BsonKind}
    (h : scan.next? = some (name, child, kinds)) :
    child = scan.path ++ ['.'] ++ name ∧ (child, kinds) ∈ scan.ahead := by
  rw [next?] at h
  split at h
  · contradiction
  · next field rest hahead =>
    obtain ⟨found, hfound, hfield⟩ := Option.map_eq_some_iff.mp h
    obtain ⟨rfl, rfl⟩ := Prod.mk.inj hfield
    exact ⟨after?_eq_some_iff.mp hfound, hahead ▸ List.mem_cons_self⟩

theorem IsAt.pass (h : scan.IsAt fields path depth) (child : FieldPath) :
    (scan.pass child).IsAt fields path depth :=
  ⟨h.known, h.points, fun _ hfield => h.ahead (List.mem_of_mem_tail hfield)⟩

theorem IsAt.add (h : scan.IsAt fields path depth) (name : String) (schema : Json) :
    (scan.add name schema).IsAt fields path depth :=
  ⟨h.known, h.points, h.ahead⟩

theorem IsAt.enter (h : scan.IsAt fields path depth) {name child : FieldPath}
    {kinds : List BsonKind} (hnext : scan.next? = some (name, child, kinds)) (hname : '.' ∉ name)
    (entered : String) : (start fields entered child kinds).IsAt fields path (depth + 1) := by
  obtain ⟨rfl, hchild⟩ := mem_ahead_of_next? hnext
  refine ⟨.inr (List.mem_map_of_mem (h.ahead hchild)), ?_, (List.dropWhile_sublist _).subset⟩
  have hpoints := h.points
  rw [start, List.count_append, List.count_append, List.count_eq_zero.mpr hname]
  simp only [List.count_singleton_self]
  omega

end FieldScan

namespace Scanning

-- Each scan is inside the one that waits for it.
def Nested (fields : FieldMap) (path : FieldPath) : List FieldScan → Prop
  | [] => True
  | scan :: waiting => scan.IsAt fields path waiting.length ∧ Nested fields path waiting

theorem next?_nested {state state' : Scanning} (h : state.next? fields = some state')
    (hnested : Nested fields path state.pending) : Nested fields path state'.pending := by
  obtain ⟨pending, ended⟩ := state
  cases pending with
  | nil => contradiction
  | cons scan waiting =>
    obtain ⟨hscan, hwaiting⟩ := hnested
    cases hnext : scan.next? with
    | none =>
      obtain rfl := Option.some.inj ((next?_finish hnext waiting ended).symm.trans h)
      cases waiting with
      | nil => trivial
      | cons outer waiting => exact ⟨hwaiting.1.add _ _, hwaiting.2⟩
    | some found =>
      obtain ⟨name, child, kinds⟩ := found
      by_cases hname : '.' ∈ name
      · obtain rfl := Option.some.inj ((next?_pass hnext hname waiting ended).symm.trans h)
        exact ⟨hscan.pass child, hwaiting⟩
      · obtain rfl := Option.some.inj ((next?_enter hnext hname waiting ended).symm.trans h)
        exact ⟨hscan.enter hnext hname _, hscan.pass child, hwaiting⟩

theorem run?_nested {turns : Nat} {state state' : Scanning}
    (h : run? fields turns state = some state') (hnested : Nested fields path state.pending) :
    Nested fields path state'.pending := by
  induction turns generalizing state with
  | zero =>
    obtain rfl := Option.some.inj h
    exact hnested
  | succ turns ih =>
    obtain ⟨mid, hmid, hrun⟩ := Option.bind_eq_some_iff.mp h
    exact ih hrun (next?_nested hmid hnested)

theorem nested_start (fields : FieldMap) (path : FieldPath) (kinds : List BsonKind) :
    Nested fields path (start fields path kinds).pending :=
  ⟨⟨.inl rfl, rfl, (List.dropWhile_sublist _).subset⟩, trivial⟩

end Scanning

end Depth

-- The schema of each field is what the scan for it over the whole map gives. For
-- whatever path, the scan ends. It and each scan it waits for come to what is inside
-- their fields and to nothing else, and enter what is directly inside. As many scans
-- wait as the path scanned has points more than the outermost one.
theorem fieldSchemas_scanned (hordered : fields.IsOrdered) :
    (fieldSchemas fields =
      fields.map fun field => (.ofList field.1, fieldSchema field.1 field.2 fields)) ∧
    ∀ path kinds,
      (∃ turns ≤ ((fields.inside path).length + 1) ^ 2, ∃ inner scan,
        Scanning.run? fields turns (.start fields path kinds) = some ⟨[], inner ++ [scan]⟩ ∧
          scan.path = path ∧ scan.schema = fieldSchema path kinds fields ∧
          ∀ other ∈ inner ++ [scan], other.IsComplete fields) ∧
      ∀ turns state scan waiting,
        Scanning.run? fields turns (.start fields path kinds) = some state →
          state.pending = scan :: waiting → (scan.path = path ∨ scan.path ∈ fields.map (·.1)) ∧
            scan.path.count '.' = path.count '.' + waiting.length := by
  have hsorted := isOrdered_iff.mp hordered
  refine ⟨fieldSchemas_eq hsorted, fun path kinds => ⟨?_, ?_⟩⟩
  · obtain ⟨turns, hturns, inner, scan, hrun, ⟨-, hpath, hkinds⟩, hcomplete⟩ :=
      Scanning.ends hsorted path (.ofList path) kinds [] []
    refine ⟨turns, hturns, inner, scan, hrun, hpath, ?_, hcomplete⟩
    rw [(hcomplete scan (by simp)).schema_eq hsorted, hpath, hkinds]
  · intro turns state scan waiting hrun hpending
    have hnested := Scanning.run?_nested hrun (Scanning.nested_start fields path kinds)
    rw [hpending] at hnested
    exact ⟨hnested.1.known, hnested.1.points⟩

-- Paths with empty names in them, and with characters on both sides of the point.
def pointedSample : List (String × Bson) :=
  [("a", .object [("é", .object [("b", .int 1)]), ("é!", .bool true), ("", .object [("", .null)])]),
    ("a/", .null), ("a-", .null)]

theorem fieldSchemas_scanned_pointed :
    (FieldMap.ofDocuments [pointedSample]).IsOrdered ∧
      ∃ turns ≤ 36, ∃ inner scan,
        Scanning.run? (.ofDocuments [pointedSample]) turns
            (.start (.ofDocuments [pointedSample]) ['a'] [.object]) = some ⟨[], inner ++ [scan]⟩ ∧
          scan.visited = [['a', '.'], ['a', '.', '.'], ['a', '.', 'é'], ['a', '.', 'é', '!'],
            ['a', '.', 'é', '.', 'b']] ∧
          scan.added.map (·.1) = ["", "é", "é!"] := by
  have hordered := isOrdered_ofDocuments [pointedSample]
  obtain ⟨-, hscans⟩ := fieldSchemas_scanned hordered
  obtain ⟨⟨turns, hturns, inner, scan, hrun, hpath, -, hcomplete⟩, -⟩ := hscans ['a'] [.object]
  obtain ⟨hvisited, hadded⟩ := hcomplete scan (by simp)
  rw [hpath] at hvisited hadded
  have hlength : ((FieldMap.ofDocuments [pointedSample]).inside ['a']).length = 5 := by decide
  rw [hlength] at hturns
  refine ⟨hordered, turns, hturns, inner, scan, hrun, ?_, ?_⟩
  · rw [hvisited]
    decide
  · rw [hadded, FieldMap.schemasIn, List.map_map]
    decide

end QueryPad.Schema
