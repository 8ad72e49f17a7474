import QueryPad.Completion.Property
import QueryPad.Proofs.Token.Neighbours
import QueryPad.Syntax.Grammar

-- A key that is written for a property, and what the grammar reads it as. Names
-- are put between double quotes as they stand, and nothing undoes an escape.
namespace QueryPad

open Text

namespace Completion

-- Whether a string between two of these quotes ends with the second one.
def isQuotable (quote : Char) : List Char → Bool
  | [] => true
  | ['\\'] => false
  | '\\' :: _ :: rest => isQuotable quote rest
  | c :: rest => c ≠ quote && !isLineTerminator c && isQuotable quote rest

-- A text that is the name of a property and nothing else.
structure ReadsAs (text name : String) : Prop where
  reports : (lex text.toList).reports = []
  token : ∃ token, (lex text.toList).tokens = [token] ∧ token.kind ∈ Syntax.nameStart ∧
    Literal.unquote token.chars = name.toList

section Quotes

variable {quote : Char} {cs taken after body : List Char}

theorem ne_of_isQuote (h : Literal.isQuote quote) :
    quote ≠ '\\' ∧ isLineTerminator quote = false ∧ (quote = '\'' ∨ quote = '"') := by
  simp only [Literal.isQuote, Bool.or_eq_true, decide_eq_true_eq] at h
  rcases h with rfl | rfl <;> decide

theorem quoted_of_isQuotable (hquote : Literal.isQuote quote) (h : isQuotable quote body)
    (rest : List Char) :
    Scan.quoted quote (body ++ quote :: rest) = (true, body ++ [quote], rest) := by
  have hescape := (ne_of_isQuote hquote).1
  fun_induction isQuotable quote body with
  | case1 =>
    unfold Scan.quoted
    simp
  | case2 => contradiction
  | case3 c tail ih =>
    have hread := ih h
    have hline : isLineTerminator '\\' = false := by decide
    unfold Scan.quoted
    simp only [List.cons_append, hescape.symm, hline, hread, if_false, if_true,
      Bool.false_eq_true]
  | case4 c tail hlast hpair ih =>
    simp only [Bool.and_eq_true, decide_eq_true_eq, Bool.not_eq_true'] at h
    obtain ⟨⟨hne, hline⟩, htail⟩ := h
    have hplain : c ≠ '\\' := by
      rintro rfl
      cases tail with
      | nil => exact hlast rfl rfl
      | cons d tail => exact hpair d tail rfl rfl
    unfold Scan.quoted
    simp only [List.cons_append, hne, hline, hplain, ih htail, if_false, Bool.false_eq_true]

theorem isQuotable_of_quoted (h : Scan.quoted quote cs = (true, taken, after)) :
    ∃ body, taken = body ++ [quote] ∧ isQuotable quote body := by
  fun_induction Scan.quoted quote cs generalizing taken after with
  | case2 tail =>
    obtain ⟨rfl, -⟩ : [quote] = taken ∧ tail = after := by simpa using h
    exact ⟨[], rfl, rfl⟩
  | case5 c tail closed inner after' hinner hquote hline ih =>
    obtain ⟨rfl, rfl, rfl⟩ : closed = true ∧ '\\' :: c :: inner = taken ∧ after' = after := by
      simpa using h
    obtain ⟨body, rfl, hbody⟩ := ih hinner
    refine ⟨'\\' :: c :: body, rfl, ?_⟩
    rwa [isQuotable]
  | case6 c tail hquote hline hescape closed inner after' hinner ih =>
    obtain ⟨rfl, rfl, rfl⟩ : closed = true ∧ c :: inner = taken ∧ after' = after := by
      simpa using h
    obtain ⟨body, rfl, hbody⟩ := ih hinner
    refine ⟨c :: body, rfl, ?_⟩
    rw [isQuotable]
    · simp [hquote, hline, hbody]
    · exact fun heq _ => hescape heq
    · exact fun _ _ heq _ => hescape heq
  | _ => simp at h

theorem unquote_quoted (hquote : Literal.isQuote quote) (body : List Char) :
    Literal.unquote (quote :: (body ++ [quote])) = body := by
  simp [Literal.unquote, hquote]

end Quotes

section Names

variable {name : List Char}

theorem isPlainName_iff : isPlainName name ↔
    ∃ c more, name = c :: more ∧ Scan.isWordStart c ∧ ∀ d ∈ more, Scan.isWordPart d := by
  cases name with
  | nil => simp [isPlainName]
  | cons c more =>
    rw [isPlainName, Bool.and_eq_true, List.all_eq_true]
    constructor
    · rintro ⟨hc, hmore⟩
      exact ⟨c, more, rfl, hc, hmore⟩
    · rintro ⟨_, _, heq, hc, hmore⟩
      obtain ⟨rfl, rfl⟩ := List.cons.inj heq
      exact ⟨hc, hmore⟩

theorem isQuotable_of_isWordPart {quote : Char} (hquote : Literal.isQuote quote)
    (h : ∀ c ∈ name, Scan.isWordPart c) : isQuotable quote name := by
  have hword : ∀ c, Scan.isWordPart c → c ≠ quote ∧ c ≠ '\\' ∧ isLineTerminator c = false := by
    have hends : (Scan.isWordPart '"' = false ∧ Scan.isWordPart '\'' = false ∧
        Scan.isWordPart '\\' = false) ∧ Scan.isWordPart '\n' = false ∧
        Scan.isWordPart '\r' = false ∧ Scan.isWordPart '\u2028' = false ∧
        Scan.isWordPart '\u2029' = false := by decide +kernel
    intro c hc
    refine ⟨?_, ?_, ?_⟩
    · rintro rfl
      rcases (ne_of_isQuote hquote).2.2 with rfl | rfl <;> simp [hends] at hc
    · rintro rfl
      simp [hends] at hc
    · by_contra hline
      simp only [isLineTerminator, Bool.not_eq_false, Bool.or_eq_true, decide_eq_true_eq] at hline
      rcases hline with ((rfl | rfl) | rfl) | rfl <;> simp [hends] at hc
  induction name with
  | nil => rfl
  | cons c rest ih =>
    obtain ⟨hc, hrest⟩ := List.forall_mem_cons.mp h
    obtain ⟨hne, hescape, hline⟩ := hword c hc
    rw [isQuotable]
    · simp [hne, hline, ih hrest]
    · exact fun heq _ => hescape heq
    · exact fun _ _ heq _ => hescape heq

theorem isWordPart_of_isPlainName (h : isPlainName name) : ∀ c ∈ name, Scan.isWordPart c := by
  obtain ⟨c, more, rfl, hc, hmore⟩ := isPlainName_iff.mp h
  exact List.forall_mem_cons.mpr ⟨Scan.isWordPart_of_isWordStart hc, hmore⟩

theorem unquote_of_isPlainName (h : isPlainName name) : Literal.unquote name = name := by
  obtain ⟨c, more, rfl, hc, -⟩ := isPlainName_iff.mp h
  have hquote : ¬ Literal.isQuote c := by
    intro hquote
    have hstarts : Scan.isWordStart '\'' = false ∧ Scan.isWordStart '"' = false := by decide +kernel
    rcases (ne_of_isQuote hquote).2.2 with rfl | rfl <;> simp [hstarts] at hc
  simp [Literal.unquote, hquote]

theorem wordKind_mem_nameStart (chars : List Char) : Piece.wordKind chars ∈ Syntax.nameStart := by
  fun_cases Piece.wordKind chars <;> simp [Syntax.nameStart]

end Names

section Written

variable {text name : String}

theorem ReadsAs.of_isWord {kind : TokenKind} (hword : IsWord kind text.toList)
    (hkind : kind ∈ Syntax.nameStart) (hname : Literal.unquote text.toList = name.toList) :
    ReadsAs text name := by
  have hspells : Spells [(kind, text.toList)] text.toList := by
    have hends : kind.Ends [] := by simp [TokenKind.Ends]
    have htext := Spells.word hword hends .done
    rwa [List.append_nil] at htext
  obtain ⟨hwords, hreports⟩ := hspells.lex
  obtain ⟨token, htokens, htoken⟩ := List.map_eq_singleton_iff.mp hwords
  obtain ⟨hkind', hchars⟩ := Prod.mk.inj htoken
  refine ⟨hreports, token, htokens, hkind' ▸ hkind, ?_⟩
  rwa [hchars]

-- Between quotes that it does not end, a name stands for itself.
theorem readsAs_of_isQuotable {quote : Char} (hquote : Literal.isQuote quote)
    (h : isQuotable quote name.toList) :
    ReadsAs (.ofList (quote :: (name.toList ++ [quote]))) name := by
  have hword : IsWord .string (quote :: (name.toList ++ [quote])) :=
    isWord_quoted (ne_of_isQuote hquote).2.2 (quoted_of_isQuotable hquote h [])
  refine @ReadsAs.of_isWord _ _ .string ?_ (by simp [Syntax.nameStart]) ?_
  · rwa [String.toList_ofList]
  · rw [String.toList_ofList]
    exact unquote_quoted hquote _

-- Any text that is read as a name tells how the name may be quoted.
theorem ReadsAs.isQuotable (h : ReadsAs text name) :
    isQuotable '"' name.toList ∨ isQuotable '\'' name.toList := by
  obtain ⟨-, token, htokens, hkind, hname⟩ := h
  have hmem : token ∈ (lex text.toList).tokens := htokens ▸ List.mem_singleton_self token
  obtain ⟨c, rest, hnext, hchars⟩ := exists_next_of_mem_lex hmem
  rw [← hname, hchars]
  have hread := Piece.reads_next c rest
  generalize Piece.next c rest = piece at hread hnext ⊢
  cases hread with
  | blank | lineComment | blockComment | openComment | openString | slash | stray => contradiction
  | number | regex =>
    rw [← PieceKind.token.inj hnext] at hkind
    simp [Syntax.nameStart] at hkind
  | mark _ hmark =>
    obtain rfl := PieceKind.token.inj hnext
    have hnone : ∀ kind ∈ Syntax.nameStart, kind.isMark = false := by decide
    have hself := (Piece.of_markKind hmark).1
    rw [hnone _ hkind] at hself
    contradiction
  | string hquote hbody =>
    obtain ⟨body, rfl, hquotable⟩ := isQuotable_of_quoted hbody
    have hself : Literal.isQuote c := by simpa [Literal.isQuote, or_comm] using hquote
    dsimp only
    rw [unquote_quoted hself]
    rcases hquote with rfl | rfl
    · exact .inr hquotable
    · exact .inl hquotable
  | word _ hstart =>
    have hplain : isPlainName (c :: rest.takeWhile Scan.isWordPart) :=
      isPlainName_iff.mpr ⟨c, _, rfl, hstart, fun _ hd => List.mem_takeWhile_imp hd⟩
    rw [unquote_of_isPlainName hplain]
    exact .inl (isQuotable_of_isWordPart rfl (isWordPart_of_isPlainName hplain))

-- Which names can be written as a key at all.
theorem exists_readsAs_iff : (∃ text, ReadsAs text name) ↔
    isQuotable '"' name.toList ∨ isQuotable '\'' name.toList := by
  constructor
  · exact fun ⟨_, h⟩ => h.isQuotable
  · rintro (h | h)
    · exact ⟨_, readsAs_of_isQuotable rfl h⟩
    · exact ⟨_, readsAs_of_isQuotable rfl h⟩

theorem next_quoted (rest : List Char) : Piece.next '"' rest =
    (if (Scan.quoted '"' rest).1 then .token .string else .openString,
      '"' :: (Scan.quoted '"' rest).2.1, (Scan.quoted '"' rest).2.2) := by
  cases hbody : Scan.quoted '"' rest with
  | mk closed parts =>
    obtain ⟨taken, after⟩ := parts
    cases closed with
    | false => exact (Piece.Reads.openString (.inr rfl) hbody).next_eq
    | true => exact (Piece.Reads.string (.inr rfl) hbody).next_eq

-- A quote inside the name that no escape covers ends the key.
theorem isQuotable_of_readsAs_quoted
    (h : ReadsAs (.ofList ('"' :: (name.toList ++ ['"']))) name) : isQuotable '"' name.toList := by
  obtain ⟨hreports, token, htokens, -, hname⟩ := h
  rw [String.toList_ofList, lex, piecesFrom, next_quoted] at hreports htokens
  cases hread : Scan.quoted '"' (name.toList ++ ['"']) with
  | mk closed parts =>
    obtain ⟨taken, after⟩ := parts
    rw [hread] at hreports htokens
    cases closed with
    | false => contradiction
    | true =>
      obtain ⟨body, rfl, hbody⟩ := isQuotable_of_quoted hread
      obtain ⟨rfl, -⟩ := List.cons.inj htokens
      rw [unquote_quoted rfl] at hname
      rwa [← hname]

theorem readsAs_writtenKey_iff (quoted : Bool) :
    ReadsAs (writtenKey quoted name) name ↔ isQuotable '"' name.toList := by
  have hwritten : "\"" ++ name ++ "\"" = .ofList ('"' :: (name.toList ++ ['"'])) := by
    rw [← String.toList_inj]
    simp [String.toList_append]
  rw [writtenKey, hwritten]
  by_cases hplain : quoted || !isPlainName name.toList
  · rw [if_pos hplain]
    exact ⟨isQuotable_of_readsAs_quoted, readsAs_of_isQuotable rfl⟩
  · rw [if_neg hplain]
    have hname : isPlainName name.toList := by
      simp only [Bool.or_eq_true, Bool.not_eq_true', not_or, Bool.not_eq_false] at hplain
      exact hplain.2
    obtain ⟨c, more, heq, hc, hmore⟩ := isPlainName_iff.mp hname
    refine iff_of_true (ReadsAs.of_isWord (heq ▸ isWord_word hc hmore)
      (wordKind_mem_nameStart _) (unquote_of_isPlainName hname)) ?_
    exact isQuotable_of_isWordPart rfl (isWordPart_of_isPlainName hname)

end Written

section Items

variable {root schema : Json} {range : Range} {quoted : Bool} {item : CompletionItem}

-- What is inserted for a property is read as its name exactly if the name can
-- stand between double quotes as it is.
theorem propertyItems_read_back (h : item ∈ propertyItems root schema range quoted) :
    ∃ text, item.edit = some (.replace range text) ∧
      (ReadsAs text item.label ↔ isQuotable '"' item.label.toList) := by
  obtain ⟨⟨name, property⟩, -, rfl⟩ := List.mem_map.mp h
  exact ⟨writtenKey quoted name, rfl, readsAs_writtenKey_iff quoted⟩

-- Of two names the one with a blank in it.
theorem propertyItems_read_back_blank :
    ∃ item ∈ propertyItems
        (.object [("properties", .object [("db", .null), ("first name", .object [])])])
        (.object [("properties", .object [("db", .null), ("first name", .object [])])])
        ⟨⟨0, 1⟩, ⟨0, 3⟩⟩ false,
      item.label = "first name" ∧
      item.edit = some (.replace ⟨⟨0, 1⟩, ⟨0, 3⟩⟩ "\"first name\"") ∧
      ReadsAs "\"first name\"" item.label := by
  refine ⟨_, List.mem_cons_of_mem _ List.mem_cons_self, rfl, rfl, ?_⟩
  obtain ⟨text, hedit, hread⟩ := @propertyItems_read_back
    (.object [("properties", .object [("db", .null), ("first name", .object [])])])
    (.object [("properties", .object [("db", .null), ("first name", .object [])])])
    ⟨⟨0, 1⟩, ⟨0, 3⟩⟩ false _ (List.mem_cons_of_mem _ List.mem_cons_self)
  obtain ⟨-, rfl⟩ := ItemEdit.replace.inj (Option.some.inj hedit)
  exact hread.mpr (by decide)

-- A double quote in the name is not escaped, though between single quotes the
-- name could stand.
theorem exists_propertyItem_misread :
    ∃ item ∈ propertyItems (.object [("properties", .object [("a\"b", .object [])])])
        (.object [("properties", .object [("a\"b", .object [])])]) ⟨⟨0, 1⟩, ⟨0, 1⟩⟩ false,
      item.label = "a\"b" ∧
      item.edit = some (.replace ⟨⟨0, 1⟩, ⟨0, 1⟩⟩ "\"a\"b\"") ∧
      ¬ ReadsAs "\"a\"b\"" "a\"b" ∧ ReadsAs "'a\"b'" "a\"b" := by
  refine ⟨_, List.mem_cons_self, rfl, rfl, fun hread => ?_, ?_⟩
  · have hquotable := (@readsAs_writtenKey_iff "a\"b" true).mp hread
    contradiction
  · exact @readsAs_of_isQuotable "a\"b" '\'' rfl (by decide)

end Items

end Completion

end QueryPad
