import QueryPad.Proofs.Completion.Leaves
import QueryPad.Proofs.Syntax.OpenText

-- While a name is typed behind a point, collections or methods are offered for
-- it, whatever stands before the command and whatever command follows.
namespace QueryPad

open Text

namespace CompletionContext

-- Behind the word for the database a member is typed, else a method.
def ofTyped (dots : List Token) (range : Range) : CompletionContext :=
  if dots.isEmpty then members range else methods range

variable {cursor : Cursor} {db point : Token} {dots later : List Token} {name : Option Token}
  {above : List (Tree × Nat)} {start begin finish : Nat} {closing : List Tree}

theorem decides_typed (hdb : db.kind = .db)
    (htyped : IsTyped dots point name later start cursor.offset)
    (hclosing : ∀ token ∈ Tree.tokensOf closing, ¬ Focus.endsBy token cursor.offset) :
    Decides cursor above
      (.node .command begin (.terminal db :: ((Syntax.members
        ⟨dots ++ point :: (name.toList ++ (later ++ [.atEnd finish])), false⟩ true).trees ++
          closing)))
      (ofTyped dots (cursor.rangeFrom start)) := by
  have hopen := htyped.isOpen finish
  cases htyped.dotted with
  | nil =>
    have hmembers : ofTyped [] (cursor.rangeFrom start) =
        afterDot (.root (.terminal db)) (cursor.rangeFrom start) := by
      simp [ofTyped, afterDot, Focus.root, Tree.isTerminal, hdb]
    rw [List.nil_append, Syntax.members_open_first hopen]
    cases name with
    | none =>
      rw [hmembers, htyped.start_eq rfl]
      exact @decides_point cursor point (.terminal db) above begin [] closing hopen.point
        (htyped.point_stop.trans (htyped.start_eq rfl)) hclosing
    | some token =>
      obtain ⟨hstart, hstop⟩ := htyped.name_span token rfl
      rw [← hstart]
      exact @decides_collection cursor token above begin [.terminal db, .terminal point] closing
        (hopen.name token rfl) hstop hclosing
  | @cons dot part tokens hdot hpart htokens =>
    rw [List.cons_append, List.cons_append, Syntax.members_dotted hdot hpart htokens hopen]
    cases name with
    | none =>
      rw [htyped.start_eq rfl]
      exact @decides_point cursor point _ above begin [.terminal db, .terminal dot] closing
        hopen.point (htyped.point_stop.trans (htyped.start_eq rfl)) hclosing
    | some token =>
      obtain ⟨hstart, hstop⟩ := htyped.name_span token rfl
      rw [← hstart]
      exact @decides_call cursor point token _ _ above begin _ [.terminal db, .terminal dot] closing
        hopen.point (hopen.name token rfl) hstop rfl hclosing

end CompletionContext

namespace Pad

variable {text before : String} {p : Position} {db point : Token} {dots later : List Token}
  {name : Option Token} {start : Nat}

theorem contextAt_of_isTyped (hbefore : IsClosed before.toList) (hdb : db.kind = .db)
    (htokens : (lex text.toList).tokens = (lex before.toList).tokens ++
      db :: (dots ++ point :: (name.toList ++ later)))
    (htyped : IsTyped dots point name later start ((ofText text).cursorAt p).offset) :
    (ofText text).contextAt p =
      CompletionContext.ofTyped dots (((ofText text).cursorAt p).rangeFrom start) := by
  have hspread := areSpread_lex text.toList
  rw [htokens] at hspread
  have hlater : ∀ token ∈ later, ¬ Focus.endsBy token ((ofText text).cursorAt p).offset := by
    intro token htoken
    have hfilled := hspread.filled token (by simp [htoken])
    have hstart := htyped.stop_le token htoken
    simp only [Focus.endsBy, Bool.and_eq_true, decide_eq_true_eq, not_and]
    intro _
    omega
  generalize hstop : Token.atEnd (lex text.toList).stop = finish
  have hassoc : dots ++ point :: (name.toList ++ (later ++ [finish])) =
      (dots ++ point :: name.toList) ++ (later ++ [finish]) := by simp
  have hall : (lex text.toList).all = (lex before.toList).tokens ++
      db :: ((dots ++ point :: name.toList) ++ (later ++ [finish])) := by
    rw [Lexed.all, htokens, hstop]
    simp
  have hkinds : ∀ token ∈ db :: ((dots ++ point :: name.toList) ++ later),
      token.kind ≠ .endOfText := by
    intro token htoken
    apply hspread.inside
    rw [List.append_assoc, List.cons_append] at htoken
    exact List.mem_append_right _ htoken
  have hmembers := @Syntax.tokensOf_members _ _ _ _ _ _ (lex text.toList).stop htyped
  rw [hstop, hassoc] at hmembers
  obtain ⟨items, hitems⟩ := Syntax.exists_trees_append hbefore
    (db :: ((dots ++ point :: name.toList) ++ (later ++ [finish])))
  obtain ⟨closing, more, hcommand, hrest⟩ :=
    @Syntax.exists_command_of_members _ _ false _ _ hdb hkinds (hstop ▸ rfl) hmembers
  rw [← hall, hcommand] at hitems
  refine contextAt_of_decides hitems (fun token htoken => ?_) fun above => ?_
  · exact hlater token (hrest ▸ List.mem_append_right _ htoken)
  · rw [← hassoc, ← hstop]
    apply CompletionContext.decides_typed hdb htyped
    intro token htoken
    exact hlater token (hrest ▸ List.mem_append_left _ htoken)

end Pad

section Line

variable {front name after : List Char}

-- The end of a name that stands behind a point is no place inside a line end.
theorem isBoundary_behind (hname : ∀ c ∈ name, c ≠ '\n' ∧ c ≠ '\r')
    (hfront : front.getLast? = some '.') :
    IsBoundary (front ++ (name ++ after)) (byteSize (front ++ name)) := by
  refine ⟨front ++ name, after, (List.append_assoc _ _ _).symm, rfl, ?_⟩
  rintro ⟨hlast, _⟩
  rw [List.getLast?_append, Option.or_eq_some_iff, hfront] at hlast
  rcases hlast with hlast | ⟨_, hpoint⟩
  · exact (hname _ (List.mem_of_getLast? hlast)).2 rfl
  · contradiction

-- Back to the start of a name on its line the range is the name.
theorem Cursor.rangeFrom_eq {cursor : Cursor}
    (hindex : cursor.index = .ofChars (front ++ (name ++ after)))
    (hposition : cursor.position = cursor.index.positionAt (byteSize (front ++ name)))
    (hname : ∀ c ∈ name, c ≠ '\n' ∧ c ≠ '\r') :
    cursor.rangeFrom (byteSize front) =
      cursor.index.range ⟨byteSize front, byteSize (front ++ name)⟩ := by
  have hline := @LineIndex.line_positionAt_append front after _ name rfl hname
  rw [← hindex] at hline
  rw [rangeFrom, hposition, hline, if_neg (Nat.lt_irrefl _)]
  rfl

end Line

namespace Pad

-- What can be completed at the end of what is typed before the rest of a text.
def contextBehind (typed after : String) : CompletionContext :=
  (ofText (typed ++ after)).contextAt
    ((ofText (typed ++ after)).index.positionAt (byteSize typed.toList))

-- Where a name stands between two parts of a text.
def rangeBetween (before name after : String) : Range :=
  (ofText (before ++ name ++ after)).index.range
    ⟨byteSize before.toList, byteSize (before ++ name).toList⟩

variable {before front name after : String} {parts : List String}

-- The cursor behind a name that has been typed behind a point.
theorem cursorAt_behind {text : String} {front name after : List Char}
    (htext : text.toList = front ++ (name ++ after)) (hname : ∀ c ∈ name, c ≠ '\n' ∧ c ≠ '\r')
    (hfront : front.getLast? = some '.') {p : Position}
    (hp : (ofText text).index.positionAt (byteSize (front ++ name)) = p) :
    ((ofText text).cursorAt p).offset = byteSize (front ++ name) ∧
      ((ofText text).cursorAt p).rangeFrom (byteSize front) =
        (ofText text).index.range ⟨byteSize front, byteSize (front ++ name)⟩ := by
  have hindex : (ofText text).index = .ofChars (front ++ (name ++ after)) :=
    congrArg LineIndex.ofChars htext
  constructor
  · have hback := LineIndex.offsetAt_positionAt (@isBoundary_behind _ _ after hname hfront)
    rw [← hindex, hp] at hback
    exact hback
  · exact @Cursor.rangeFrom_eq _ _ _ ((ofText text).cursorAt p) hindex hp.symm hname

theorem contextBehind_eq (hbefore : IsClosed before.toList)
    (hparts : ∀ part ∈ parts, IsIdentifier part) (hname : name = "" ∨ IsIdentifier name)
    (hafter : BeginsCommand after.toList)
    (hfront : front.toList = before.toList ++ (['d', 'b'] ++ (dottedChars parts ++ ['.']))) :
    contextBehind (front ++ name) after =
      if parts.isEmpty then .members (rangeBetween front name after)
      else .methods (rangeBetween front name after) := by
  have htext : (front ++ name ++ after).toList = front.toList ++ (name.toList ++ after.toList) := by
    simp
  have hplain : ∀ c ∈ name.toList, c ≠ '\n' ∧ c ≠ '\r' := fun c hc =>
    (of_mem_typed hparts hname c (by simp [hc])).2
  have hpoint : front.toList.getLast? = some '.' := by
    simp [hfront, List.getLast?_cons]
  obtain ⟨hoffset, hrange⟩ := cursorAt_behind htext hplain hpoint rfl
  obtain ⟨db, dots, point, named, later, hdb, hempty, htokens, htyped⟩ :=
    exists_lex_typed hbefore hparts hname hafter hfront
  rw [← htext] at htokens
  rw [← hoffset] at htyped
  have hcontext := contextAt_of_isTyped hbefore hdb htokens htyped
  rw [hrange, CompletionContext.ofTyped, hempty] at hcontext
  rw [contextBehind, rangeBetween, String.toList_append]
  exact hcontext

-- Behind the point of a collection its methods are offered for the name, and
-- behind that of the database what the database has, in place of just the name.
theorem contextBehind_point (before after name : String) (parts : List String)
    (hbefore : IsClosed before.toList) (hafter : BeginsCommand after.toList)
    (hne : parts ≠ []) (hparts : ∀ part ∈ parts, IsIdentifier part)
    (hname : name = "" ∨ IsIdentifier name) :
    contextBehind (before ++ "db." ++ ".".intercalate parts ++ "." ++ name) after =
        .methods (rangeBetween (before ++ "db." ++ ".".intercalate parts ++ ".") name after) ∧
      contextBehind (before ++ "db." ++ name) after =
        .members (rangeBetween (before ++ "db.") name after) := by
  constructor
  · have hfront : (before ++ "db." ++ ".".intercalate parts ++ ".").toList =
        before.toList ++ (['d', 'b'] ++ (dottedChars parts ++ ['.'])) := by
      rw [dottedChars_eq hne]
      simp [String.toList_intercalate]
    rw [contextBehind_eq hbefore hparts hname hafter hfront, if_neg (by simp [hne])]
  · have hfront : (before ++ "db.").toList =
        before.toList ++ (['d', 'b'] ++ (dottedChars [] ++ ['.'])) := by
      simp [dottedChars]
    rw [contextBehind_eq hbefore (by simp) hname hafter hfront]
    rfl

-- Behind a query that is closed by nothing but a semicolon, before another command.
theorem contextBehind_point_find :
    contextBehind "db.c.find(;db.a.b.fin" "\n\ndb.c" =
        .methods (rangeBetween "db.c.find(;db.a.b." "fin" "\n\ndb.c") ∧
      contextBehind "db.c.find(;db.fin" "\n\ndb.c" =
        .members (rangeBetween "db.c.find(;db." "fin" "\n\ndb.c") := by
  have hbefore : IsClosed "db.c.find(;".toList :=
    .inr ⟨⟨.semicolon, 10, [';']⟩, by decide +kernel, rfl, rfl⟩
  have hafter : BeginsCommand "\n\ndb.c".toList :=
    .inr ⟨'\n', "\ndb.c".toList, rfl, rfl, ⟨.db, 1, ['d', 'b']⟩, by decide +kernel, .inl rfl⟩
  have hparts : ∀ part ∈ ["a", "b"], IsIdentifier part := by
    intro part hpart
    rcases List.mem_pair.mp hpart with rfl | rfl
    · exact ⟨⟨'a', [], rfl, by decide, by simp⟩, by decide⟩
    · exact ⟨⟨'b', [], rfl, by decide, by simp⟩, by decide⟩
  have hname : IsIdentifier "fin" :=
    ⟨⟨'f', ['i', 'n'], rfl, by decide, List.all_eq_true.mp (by decide)⟩, by decide⟩
  exact contextBehind_point "db.c.find(;" "\n\ndb.c" "fin" ["a", "b"] hbefore hafter (by simp)
    hparts (.inr hname)

end Pad

end QueryPad
