import Mathlib.Data.List.DropRight
import QueryPad.Completion.Key

-- The brackets that are open behind some tokens, and the tokens that stand in
-- the innermost of them and in no bracket inside it. Either closing bracket
-- closes either opening one, and parentheses are no brackets here.
namespace QueryPad

namespace TokenKind

def opensFrame : TokenKind → Bool
  | openBrace | openBracket => true
  | _ => false

def closesFrame : TokenKind → Bool
  | closeBrace | closeBracket => true
  | _ => false

def isPlain (kind : TokenKind) : Bool := !kind.opensFrame && !kind.closesFrame

end TokenKind

namespace Completion

-- Tokens with all their brackets closed, and those of them in no bracket.
inductive Closed : List Token → List Token → Prop where
  | nil : Closed [] []
  | token {token : Token} {tokens own : List Token} (hplain : token.kind.isPlain)
      (tail : Closed tokens own) : Closed (token :: tokens) (token :: own)
  | group {opening closing : Token} {inside inner tokens own : List Token}
      (hopening : opening.kind.opensFrame) (body : Closed inside inner)
      (hclosing : closing.kind.closesFrame) (tail : Closed tokens own) :
      Closed (opening :: (inside ++ closing :: tokens)) own

namespace Closed

variable {tokens more own own' inside inner : List Token} {opening closing token : Token}

theorem append (h : Closed tokens own) (hmore : Closed more own') :
    Closed (tokens ++ more) (own ++ own') := by
  induction h with
  | nil => exact hmore
  | token hplain _ ih => exact .token hplain ih
  | group hopening body hclosing _ _ ih =>
    rw [List.cons_append, List.append_assoc, List.cons_append]
    exact .group hopening body hclosing ih

theorem singleton (hplain : token.kind.isPlain) : Closed [token] [token] := .token hplain .nil

-- Where no bracket is, none is open.
theorem of_plain (h : ∀ token ∈ tokens, token.kind.isPlain) : Closed tokens tokens := by
  induction tokens with
  | nil => exact .nil
  | cons token tokens ih =>
    obtain ⟨hhere, hmore⟩ := List.forall_mem_cons.mp h
    exact .token hhere (ih hmore)

theorem bracketed (hopening : opening.kind.opensFrame) (body : Closed inside inner)
    (hclosing : closing.kind.closesFrame) : Closed (opening :: (inside ++ [closing])) [] :=
  .group hopening body hclosing .nil

end Closed

namespace Frame

-- No name is awaited in it.
def isSettled : Frame → Bool
  | object _ expectsKey => !expectsKey
  | array => true

-- What a bracket opens.
def ofBracket (bracket : Token) : Frame :=
  if bracket.kind = .openBracket then array else object none true

-- What has become of a bracket after the tokens in it.
def after (frame : Frame) (own : List Token) : Frame :=
  own.foldl (fun frame token => frame.next token) frame

theorem after_concat (frame : Frame) (own : List Token) (token : Token) :
    frame.after (own ++ [token]) = (frame.after own).next token := by
  rw [after, List.foldl_append]
  rfl

section Next

variable {token : Token}

theorem next_comma (hcomma : token.kind = .comma) (key : Option String) (expectsKey : Bool) :
    (object key expectsKey).next token = object none true := by
  rw [next, hcomma]

theorem next_colon (hcolon : token.kind = .colon) (key : Option String) (expectsKey : Bool) :
    (object key expectsKey).next token = object key false := by
  rw [next, hcolon]

theorem next_name (hname : isName token.kind) (key : Option String) :
    (object key true).next token =
      object (some (.ofList (Literal.unquote token.chars))) false := by
  rw [next]
  cases hkind : token.kind <;> simp [hkind, isName] at hname ⊢

-- Other tokens leave an object that awaits a name awaiting it.
theorem next_awaiting (hname : ¬ isName token.kind) (hcomma : token.kind ≠ .comma)
    (hcolon : token.kind ≠ .colon) (key : Option String) :
    (object key true).next token = object key true := by
  rw [next]
  cases hkind : token.kind <;> simp [hkind, isName] at hname hcomma hcolon ⊢

theorem next_of_isSettled {frame : Frame} (h : frame.isSettled) (hcomma : token.kind ≠ .comma) :
    frame.next token = frame := by
  cases frame with
  | array => rfl
  | object key expectsKey =>
    cases expectsKey with
    | true => contradiction
    | false =>
      rw [next]
      cases hkind : token.kind <;> simp [hkind] at hcomma ⊢

end Next

section Read

variable {token : Token} {frame : Frame} {open_ outer : List Frame}

theorem read_opening (h : token.kind.opensFrame) (open_ : List Frame) :
    read open_ token = ofBracket token :: open_ := by
  rw [read.eq_def, ofBracket]
  cases hkind : token.kind <;> simp [TokenKind.opensFrame, hkind] at h ⊢

theorem read_closing (h : token.kind.closesFrame) (open_ : List Frame) :
    read open_ token = open_.tail := by
  rw [read.eq_def]
  cases hkind : token.kind <;> simp [TokenKind.closesFrame, hkind] at h ⊢

theorem read_plain_nil (h : token.kind.isPlain) : read [] token = [] := by
  rw [read.eq_def]
  cases hkind : token.kind <;>
    simp [TokenKind.isPlain, TokenKind.opensFrame, TokenKind.closesFrame, hkind] at h ⊢

theorem read_plain (h : token.kind.isPlain) :
    read (frame :: outer) token = frame.next token :: outer := by
  rw [read.eq_def]
  cases hkind : token.kind <;>
    simp [TokenKind.isPlain, TokenKind.opensFrame, TokenKind.closesFrame, hkind] at h ⊢

end Read

end Frame

section Closed

variable {tokens own : List Token}

-- Closed brackets leave the brackets around them open.
theorem Closed.read (h : Closed tokens own) (frame : Frame) (outer : List Frame) :
    tokens.foldl Frame.read (frame :: outer) = frame.after own :: outer := by
  induction h generalizing frame outer with
  | nil => rfl
  | token hplain _ ih =>
    rw [List.foldl_cons, Frame.read_plain hplain, ih]
    rfl
  | group hopening _ hclosing _ ihbody ihtail =>
    rw [List.foldl_cons, Frame.read_opening hopening, List.foldl_append, ihbody, List.foldl_cons,
      Frame.read_closing hclosing, List.tail_cons, ihtail]

theorem Closed.read_nil (h : Closed tokens own) : tokens.foldl Frame.read [] = [] := by
  induction h with
  | nil => rfl
  | token hplain _ ih => rw [List.foldl_cons, Frame.read_plain_nil hplain, ih]
  | group hopening body hclosing _ _ ihtail =>
    rw [List.foldl_cons, Frame.read_opening hopening, List.foldl_append, body.read,
      List.foldl_cons, Frame.read_closing hclosing, List.tail_cons, ihtail]

-- The innermost open bracket, the tokens before it and those in it.
structure Innermost (tokens : List Token) (bracket : Token) (before own : List Token) : Prop where
  opens : bracket.kind.opensFrame
  inside : ∃ inside, tokens = before ++ bracket :: inside ∧ Closed inside own

variable {bracket : Token} {before : List Token}

theorem Innermost.read (h : Innermost tokens bracket before own) :
    tokens.foldl Frame.read [] =
      (Frame.ofBracket bracket).after own :: before.foldl Frame.read [] := by
  obtain ⟨inside, rfl, hinside⟩ := h.inside
  rw [List.foldl_append, List.foldl_cons, Frame.read_opening h.opens, hinside.read]

-- A bracket that is open was opened by a token, and all brackets behind that
-- token are closed again.
theorem exists_innermost {frame : Frame} {outer : List Frame}
    (h : tokens.foldl Frame.read [] = frame :: outer) :
    ∃ bracket before own, Innermost tokens bracket before own ∧
      frame = (Frame.ofBracket bracket).after own ∧ before.foldl Frame.read [] = outer := by
  induction hlength : tokens.length using Nat.strongRecOn generalizing tokens frame outer with
  | ind length ih =>
    obtain rfl | ⟨front, token, rfl⟩ := tokens.eq_nil_or_concat'
    · contradiction
    · rw [List.foldl_append, List.foldl_cons, List.foldl_nil] at h
      rw [List.length_append, List.length_singleton] at hlength
      by_cases hopens : token.kind.opensFrame
      · rw [Frame.read_opening hopens] at h
        obtain ⟨rfl, hfront⟩ := List.cons.inj h
        exact ⟨token, front, [], ⟨hopens, [], rfl, .nil⟩, rfl, hfront⟩
      · by_cases hcloses : token.kind.closesFrame
        · rw [Frame.read_closing hcloses] at h
          cases hopen : front.foldl Frame.read [] with
          | nil => simp [hopen] at h
          | cons closed rest =>
            -- what is closed here was opened inside the bracket that is left
            rw [hopen, List.tail_cons] at h
            obtain ⟨inner, middle, _, hinner, -, hmiddle⟩ := ih _ (by omega) hopen rfl
            obtain ⟨inside', rfl, hinside'⟩ := hinner.inside
            rw [List.length_append, List.length_cons] at hlength
            obtain ⟨bracket, before, own, hself, hframe, hbefore⟩ :=
              ih _ (by omega) (hmiddle.trans h) rfl
            obtain ⟨inside, rfl, hinside⟩ := hself.inside
            have hmore := hinside.append (.bracketed hinner.opens hinside' hcloses)
            rw [List.append_nil] at hmore
            exact ⟨bracket, before, own, ⟨hself.opens, _, by simp, hmore⟩, hframe, hbefore⟩
        · have hplain : token.kind.isPlain := by simp [TokenKind.isPlain, hopens, hcloses]
          cases hopen : front.foldl Frame.read [] with
          | nil =>
            rw [hopen, Frame.read_plain_nil hplain] at h
            contradiction
          | cons last rest =>
            rw [hopen, Frame.read_plain hplain] at h
            obtain ⟨rfl, rfl⟩ := List.cons.inj h
            obtain ⟨bracket, before, own, hself, rfl, hbefore⟩ := ih _ (by omega) hopen rfl
            obtain ⟨inside, rfl, hinside⟩ := hself.inside
            refine ⟨bracket, before, own ++ [token], ⟨hself.opens, inside ++ [token], by simp,
              hinside.append (.singleton hplain)⟩, ?_, hbefore⟩
            rw [Frame.after_concat]

end Closed

-- What an object has had since its last comma.
def currentItem (own : List Token) : List Token := own.rtakeWhile (·.kind ≠ .comma)

-- Neither a name nor a colon was there yet.
def AwaitsName (own : List Token) : Prop :=
  ∀ token ∈ currentItem own, token.kind ≠ .colon ∧ ¬ Frame.isName token.kind

section Items

variable {own : List Token} {token : Token}

theorem currentItem_comma (h : token.kind = .comma) : currentItem (own ++ [token]) = [] :=
  List.rtakeWhile_concat_neg _ _ _ (by simpa using h)

theorem currentItem_concat (h : token.kind ≠ .comma) :
    currentItem (own ++ [token]) = currentItem own ++ [token] :=
  List.rtakeWhile_concat_pos _ _ _ (by simpa using h)

theorem Frame.after_array (own : List Token) : Frame.array.after own = .array := by
  induction own using List.reverseRecOn with
  | nil => rfl
  | append_singleton own token ih =>
    rw [after_concat, ih]
    rfl

theorem Frame.after_object (own : List Token) : ∃ key expectsKey,
    (Frame.object none true).after own = .object key expectsKey ∧
      (expectsKey = true ↔ AwaitsName own) := by
  induction own using List.reverseRecOn with
  | nil => exact ⟨none, true, rfl, iff_of_true rfl (by simp [AwaitsName, currentItem])⟩
  | append_singleton own token ih =>
    obtain ⟨key, expectsKey, hafter, hexpects⟩ := ih
    rw [after_concat, hafter, AwaitsName]
    by_cases hcomma : token.kind = .comma
    · rw [currentItem_comma hcomma]
      exact ⟨none, true, next_comma hcomma _ _, by simp⟩
    · rw [currentItem_concat hcomma, List.forall_mem_append, List.forall_mem_singleton,
        ← AwaitsName, ← hexpects]
      by_cases hcolon : token.kind = .colon
      · exact ⟨key, false, next_colon hcolon _ _, by simp [hcolon]⟩
      · cases expectsKey with
        | false => exact ⟨key, false, next_of_isSettled rfl hcomma, by simp⟩
        | true =>
          by_cases hname : isName token.kind
          · exact ⟨_, false, next_name hname key, by simp [hname]⟩
          · exact ⟨key, true, next_awaiting hname hcomma hcolon key, by simp [hname, hcolon]⟩

end Items

end Completion

end QueryPad
