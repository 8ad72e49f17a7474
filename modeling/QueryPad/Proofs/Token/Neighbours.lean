import Mathlib.Data.List.Chain
import QueryPad.Proofs.Token.Words

-- Which tokens may stand one right behind the other.
namespace QueryPad

open Text

namespace TokenKind

def isMark : TokenKind → Bool
  | dot | openParen | closeParen | openBrace | closeBrace | openBracket | closeBracket
  | comma | colon | semicolon => true
  | _ => false

-- Whether tokens of two kinds stay two when nothing is between them.
def apart (before after : TokenKind) : Bool :=
  match before with
  | db | identifier | boolean | null | regex => after.isMark
  | number => after.isMark && after ≠ dot
  | dot => after ≠ number
  | _ => true

end TokenKind

namespace Piece

variable {c : Char} {rest : List Char} {kind : TokenKind}

theorem of_markKind (h : markKind c = some kind) :
    kind.isMark ∧ Scan.isWordPart c = false ∧ (kind ≠ .dot → isNumberPart c = false) := by
  unfold markKind at h
  split at h
  case h_11 => contradiction
  all_goals
    obtain rfl := Option.some.inj h
    decide

theorem of_wordKind (chars : List Char) :
    (wordKind chars).isMark = false ∧ wordKind chars ≠ .number := by
  fun_cases wordKind chars <;> simp [TokenKind.isMark]

-- What tells from the first characters which kind of token begins.
inductive Begins (c : Char) (rest : List Char) : TokenKind → Prop where
  | number (h : beginsNumber c rest) : Begins c rest .number
  | mark {kind : TokenKind} (h : markKind c = some kind) : Begins c rest kind
  | string (h : c = '\'' || c = '"') : Begins c rest .string
  | regex (h : c = '/') : Begins c rest .regex
  | word (h : Scan.isWordStart c) (chars : List Char) : Begins c rest (wordKind chars)

theorem begins_of_next (h : (next c rest).1 = .token kind) : Begins c rest kind := by
  have hread := reads_next c rest
  generalize next c rest = piece at hread h
  cases hread with
  | blank | lineComment | blockComment | openComment | openString | slash | stray => contradiction
  | number hbegins => exact PieceKind.token.inj h ▸ .number hbegins
  | mark _ hmark => exact PieceKind.token.inj h ▸ .mark hmark
  | string hquote => exact PieceKind.token.inj h ▸ .string (by simpa using hquote)
  | regex => exact PieceKind.token.inj h ▸ .regex rfl
  | word _ hstart => exact PieceKind.token.inj h ▸ .word hstart _

theorem next_of_beginsNumber (h : beginsNumber c rest) :
    next c rest = (.token .number, Scan.number (c :: rest)) := (Reads.number h).next_eq

theorem kind_of_isDigit (hc : c.isDigit) (h : (next c rest).1 = .token kind) : kind = .number := by
  have hnumber : beginsNumber c rest := by simp [beginsNumber, hc]
  rw [next_of_beginsNumber hnumber] at h
  exact (PieceKind.token.inj h).symm

theorem markKind_of_isMark (hmark : kind.isMark) (h : (next c rest).1 = .token kind) :
    markKind c = some kind := by
  cases begins_of_next h with
  | mark hkind => exact hkind
  | word _ chars =>
    rw [(of_wordKind chars).1] at hmark
    contradiction
  | _ => contradiction

theorem begins_sign (h : (next '-' rest).1 = .token kind) :
    kind = .number ∧ beginsNumber '-' rest := by
  cases begins_of_next h with
  | number hnumber => exact ⟨rfl, hnumber⟩
  | mark hmark => contradiction
  | string hquote => simp at hquote
  | regex hslash => simp at hslash
  | word hstart => exact absurd hstart (by decide)

end Piece

theorem IsWord.exists_next {kind : TokenKind} {chars : List Char} (h : IsWord kind chars) :
    ∃ c more, chars = c :: more ∧ (Piece.next c more).1 = .token kind := by
  obtain ⟨c, more, hchars, hnext⟩ := h [] (by simp [TokenKind.Ends])
  rw [List.append_nil] at hnext
  exact ⟨c, more, hchars, by rw [hnext]⟩

namespace TokenKind

variable {before after : TokenKind} {chars : List Char}

theorem ends_of_apart (h : before.apart after) (hword : IsWord after chars) (rest : List Char) :
    before.Ends (chars ++ rest) := by
  obtain ⟨c, more, rfl, hnext⟩ := hword.exists_next
  have hmark : after.isMark → Scan.isWordPart c = false ∧ (after ≠ .dot → isNumberPart c = false) :=
    fun hmark => (Piece.of_markKind (Piece.markKind_of_isMark hmark hnext)).2
  intro d hd
  obtain rfl : c = d := Option.some.inj hd
  cases before with
  | number =>
    obtain ⟨hafter, hdot⟩ : after.isMark ∧ after ≠ .dot := by simpa [apart] using h
    simp [takes, (hmark hafter).2 hdot]
  | dot =>
    intro hdigit
    have hnumber : after ≠ .number := by simpa [apart] using h
    exact hnumber (Piece.kind_of_isDigit hdigit hnext)
  | db | identifier | boolean | null | regex =>
    simp [takes, (hmark h).1]
  | _ => simp [takes]

end TokenKind

-- A word ends where a blank or a word apart from it stands.
theorem Spells.ends {kind : TokenKind} {words : List (TokenKind × List Char)} {text : List Char}
    (h : Spells words text) (hapart : ∀ word ∈ words.head?, kind.apart word.1) :
    kind.Ends text := by
  cases h with
  | done => simp [TokenKind.Ends]
  | blank hc tail =>
    intro c hhead
    obtain rfl := Option.some.inj hhead
    simp [kind.takes_of_isBlank hc]
  | word hword _ _ => exact TokenKind.ends_of_apart (hapart _ rfl) hword _

namespace Piece

variable {c : Char} {rest : List Char} {kind : TokenKind}

-- Behind a sign that no number follows stands a point.
theorem next_sign (hkind : (next c rest).1 = .token kind) (hsign : (next c rest).2.1 = ['-']) :
    kind = .number ∧
      ∃ after, (next c rest).2.2 = '.' :: after ∧ (next '.' after).1 = .token .dot := by
  have hjoin := next_append c rest
  rw [hsign] at hjoin
  obtain ⟨rfl, hrest⟩ : '-' = c ∧ (next c rest).2.2 = rest := List.cons.inj hjoin
  obtain ⟨rfl, hnumber⟩ := begins_sign hkind
  rw [next_of_beginsNumber hnumber] at hsign
  refine ⟨rfl, ?_⟩
  rw [hrest]
  cases rest with
  | nil => contradiction
  | cons d rest =>
    simp only [beginsNumber, List.headD_cons, Bool.or_eq_true, Bool.and_eq_true,
      decide_eq_true_eq] at hnumber
    rcases hnumber with (hdigit | ⟨heq, _⟩) | ⟨_, hdigit | hpoint⟩
    · contradiction
    · simp at heq
    · simp [Scan.number, Scan.optionalChar, Scan.digits, hdigit] at hsign
    · obtain rfl := of_decide_eq_true hpoint
      refine ⟨rest, rfl, ?_⟩
      have hpoint : ¬ beginsNumber '.' rest := by
        intro hfraction
        cases rest with
        | nil => contradiction
        | cons e rest =>
          have he : e.isDigit := by simpa [beginsNumber] using hfraction
          simp [Scan.number, Scan.optionalChar, Scan.digits, Scan.fraction, he] at hsign
      rw [(Reads.mark hpoint rfl).next_eq]

end Piece

theorem exists_mark_of_mem_lex {text : List Char} {token : Token} (h : token ∈ (lex text).tokens)
    (hmark : token.kind.isMark) :
    ∃ c more, token.chars = c :: more ∧ Piece.markKind c = some token.kind := by
  obtain ⟨c, following, hnext, hchars⟩ := exists_next_of_mem_lex h
  have hjoin := Piece.next_append c following
  obtain ⟨d, more, htaken⟩ := List.exists_cons_of_ne_nil (Piece.next_taken_ne_nil c following)
  rw [htaken, List.cons_append] at hjoin
  obtain rfl : d = c := (List.cons.inj hjoin).1
  exact ⟨d, more, hchars.trans htaken, Piece.markKind_of_isMark hmark hnext⟩

section Chains

-- A sign without a number has a point right behind it.
def SignPointed (before after : Token) : Prop :=
  before.chars = ['-'] → before.kind = .number ∧ after.kind = .dot

theorem lex_signPointed (text : List Char) : (lex text).all.IsChain SignPointed := by
  have hpieces : ∀ (start : Nat) (text : List Char) (finish : Token),
      ((piecesFrom start text).filterMap Piece.token? ++ [finish]).IsChain SignPointed := by
    intro start text finish
    fun_induction piecesFrom start text with
    | case1 => exact .singleton _
    | case2 start c rest ih =>
      cases hkind : (Piece.next c rest).1 with
      | token kind =>
        refine List.isChain_cons.mpr ⟨fun after hafter hchars => ?_, ih⟩
        obtain ⟨hnumber, more, hmore, hdot⟩ := Piece.next_sign hkind hchars
        rw [hmore, piecesFrom, hdot] at hafter
        obtain rfl := Option.some.inj hafter
        exact ⟨hnumber, rfl⟩
      | _ => exact ih
  exact hpieces 0 text _

theorem isWord_of_mem_lex {text : List Char}
    (hapart : (lex text).all.IsChain fun before after => before.kind.apart after.kind) :
    ∀ token ∈ (lex text).tokens, IsWord token.kind token.chars := by
  intro token htoken
  obtain ⟨c, rest, hkind, hchars⟩ := exists_next_of_mem_lex htoken
  rw [hchars]
  refine isWord_of_next hkind fun hsign => ?_
  obtain ⟨before, behind, hsplit⟩ := List.append_of_mem htoken
  have hall : (lex text).all = before ++ (token :: (behind ++ [Token.atEnd (lex text).stop])) := by
    rw [Lexed.all, hsplit, List.append_assoc, List.cons_append]
  obtain ⟨after, hafter⟩ :
      ∃ after, (behind ++ [Token.atEnd (lex text).stop]).head? = some after := by
    cases behind <;> exact ⟨_, rfl⟩
  have hnext : ∀ {related : Token → Token → Prop}, (lex text).all.IsChain related →
      related token after := by
    intro related hchain
    rw [hall] at hchain
    exact (List.isChain_cons.mp hchain.right_of_append).1 after hafter
  obtain ⟨hnumber, hpoint⟩ := hnext (lex_signPointed text) (hchars.trans hsign)
  have hkept := hnext hapart
  rw [hnumber, hpoint] at hkept
  contradiction

theorem spells_of_apart {tokens : List Token}
    (hwords : ∀ token ∈ tokens, IsWord token.kind token.chars)
    (hapart : tokens.IsChain fun before after => before.kind.apart after.kind) :
    Spells (tokens.map Token.word) (tokens.flatMap Token.chars) := by
  induction tokens with
  | nil => exact .done
  | cons token tokens ih =>
    obtain ⟨hword, hwords⟩ := List.forall_mem_cons.mp hwords
    obtain ⟨hnext, htail⟩ := List.isChain_cons.mp hapart
    have hspells := ih hwords htail
    refine .word hword (hspells.ends fun word hhead => ?_) hspells
    rw [List.head?_map] at hhead
    obtain ⟨after, hafter, rfl⟩ := Option.map_eq_some_iff.mp hhead
    exact hnext after hafter

end Chains

end QueryPad
