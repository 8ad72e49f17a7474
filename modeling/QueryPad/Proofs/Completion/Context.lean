import QueryPad.Completion.Context
import QueryPad.Proofs.Syntax.Contents
import QueryPad.Proofs.Syntax.LastLeaf
import QueryPad.Proofs.Text.Galois
import QueryPad.Proofs.Text.Lines

-- From the last leaf before a cursor upwards: what the nodes above it decide,
-- and where their ranges lie.
namespace QueryPad

open Text

namespace Cursor

variable {cursor : Cursor} {start : Nat}

-- A range that ends at the cursor and stays on its line.
structure Reaches (cursor : Cursor) (range : Range) : Prop where
  stop : range.stop = cursor.position
  line : range.start.line = cursor.position.line
  start_le : range.start ≤ cursor.position

theorem here_reaches (cursor : Cursor) : cursor.Reaches cursor.here :=
  ⟨rfl, rfl, Position.le_refl _⟩

section Place

variable (hplace : cursor.index.positionAt cursor.offset = cursor.position)

include hplace

theorem rangeFrom_reaches (hle : start ≤ cursor.offset) :
    cursor.Reaches (cursor.rangeFrom start) := by
  have hmono : cursor.index.positionAt start ≤ cursor.position :=
    hplace ▸ LineIndex.positionAt_mono cursor.index hle
  rw [rangeFrom]
  split
  · refine ⟨rfl, rfl, ?_⟩
    rw [Position.le_iff]
    dsimp only
    omega
  · next hline =>
    have hbelow := Position.line_le hmono
    exact ⟨rfl, by dsimp only; omega, hmono⟩

theorem rangeOf_reaches {focus : Focus} (h : focus.tree.start ≤ cursor.offset) :
    cursor.Reaches (cursor.rangeOf focus) := rangeFrom_reaches hplace h

-- What is skipped behind a node lies before the cursor.
theorem rangeAfter_reaches (focus : Focus) : cursor.Reaches (cursor.rangeAfter focus) := by
  rw [rangeAfter]
  apply rangeFrom_reaches hplace
  split
  · generalize hstop : min focus.tree.span.stop cursor.offset = stop
    cases hslice : slice? cursor.index.text stop cursor.offset with
    | none =>
      simp only [Option.getD_none, List.takeWhile_nil, byteSize_nil]
      omega
    | some between =>
      obtain ⟨before, after, _, hbefore, hoffset⟩ := slice?_eq_some_iff.mp hslice
      have hblanks := byteSize_le_of_prefix (List.takeWhile_prefix isBlank (l := between))
      rw [byteSize_append] at hoffset
      rw [Option.getD_some]
      omega
  · exact Nat.le_refl _

end Place

end Cursor

namespace CompletionContext

-- Whether the items are those of a document of its own.
def isEmbedded : CompletionContext → Bool
  | query .. | pipeline .. => true
  | _ => false

-- A span that begins with the bracket of a literal, ended before the cursor,
-- and that holds the cursor.
def SpansLiteral (cursor : Cursor) (tokens : List Token) (span : Span) : Prop :=
  ∃ first ∈ tokens, ∃ last ∈ tokens,
    (first.kind = .openBrace ∨ first.kind = .openBracket) ∧ span.start = first.start ∧
      first.stop ≤ cursor.offset ∧ span.stop = max last.stop cursor.offset

-- What may be said at a cursor among some tokens.
def Fits (cursor : Cursor) (tokens : List Token) : CompletionContext → Prop
  | keyword range | members range | methods range => cursor.Reaches range
  | query _ span | pipeline _ span => SpansLiteral cursor tokens span
  | nothing => True

section Upwards

variable {cursor : Cursor} {outer found : Focus} {motive : CompletionContext → Prop}
  (houter : (decidedAt? cursor outer).isSome)
  (hdecided : ∀ focus, Focus.Under outer focus → Focus.Under focus found →
    ∀ context ∈ decidedAt? cursor focus, motive context)

include houter hdecided

-- The nodes from a leaf upwards are asked one after the other, until one decides.
theorem upwards_from (above : List (Tree × Nat)) (tree : Tree)
    (hunder : Focus.Under outer ⟨tree, above⟩) (hfound : Focus.Under ⟨tree, above⟩ found) :
    motive (upwards cursor tree above) := by
  induction above generalizing tree with
  | nil =>
    cases hunder with
    | refl =>
      obtain ⟨context, hcontext⟩ := Option.isSome_iff_exists.mp houter
      rw [upwards, hcontext]
      exact hdecided _ .refl hfound context hcontext
  | cons parent above ih =>
    obtain ⟨parent, index⟩ := parent
    rw [upwards]
    split
    · next context hcontext => exact hdecided _ hunder hfound context hcontext
    · next hnone =>
      rcases hunder.climb with rfl | ⟨hparent, hchild⟩
      · rw [hnone] at houter
        contradiction
      · have hstep : Focus.Under ⟨parent, above⟩ ⟨tree, (parent, index) :: above⟩ :=
          Focus.Under.refl.child hchild
        exact ih parent hparent (hstep.trans hfound)

theorem upwards_induct (hunder : Focus.Under outer found) :
    motive (upwards cursor found.tree found.above) :=
  upwards_from houter hdecided found.above found.tree hunder .refl

end Upwards

section Fits

variable {cursor : Cursor} {tokens : List Token}

theorem afterDot_fits {before : Focus} {range : Range} (h : cursor.Reaches range) :
    (afterDot before range).Fits cursor tokens := by
  rw [afterDot]
  split
  · exact h
  · split
    · exact h
    · trivial

variable (hplace : cursor.index.positionAt cursor.offset = cursor.position)

include hplace

theorem ofLeaf_fits {leaf : Focus}
    (h : leaf.tree.isTerminal .dot ∨ leaf.tree.start ≤ cursor.offset) :
    (ofLeaf cursor leaf).Fits cursor tokens := by
  rw [ofLeaf]
  split
  · trivial
  · next token htoken =>
    split
    · next hkind =>
      apply Cursor.rangeOf_reaches hplace
      rcases h with hdot | hstart
      · cases hleaf : leaf.tree <;> simp_all [Tree.isTerminal, Tree.token?]
      · exact hstart
    · exact Cursor.rangeAfter_reaches hplace leaf
    · split
      · exact afterDot_fits (Cursor.rangeAfter_reaches hplace leaf)
      · trivial
    · trivial

theorem ofLeaf_lastLeaf_fits {focus leaf : Focus}
    (hleaf : focus.lastLeafBefore? cursor.offset = some leaf) :
    (ofLeaf cursor leaf).Fits cursor tokens := by
  obtain ⟨_, token, htoken, hbefore⟩ := Focus.lastLeafIn?_under hleaf
  have hspan := Tree.span_of_token? htoken
  have hstart : leaf.tree.start = token.start := congrArg Span.start hspan
  have hstop : token.stop ≤ cursor.offset := by simp [Focus.endsBy] at hbefore; omega
  apply ofLeaf_fits hplace
  right
  rw [hstart]
  exact Nat.le_trans (Nat.le_add_right _ _) hstop

theorem ofCall_fits {call : Focus} (hanchored : call.tree.Anchored)
    (htokens : AreSpread call.tree.tokens) : (ofCall cursor call).Fits cursor tokens := by
  rw [ofCall]
  split
  · trivial
  · next dot hdot =>
    by_cases hpoint : dot.tree.isTerminal .dot
    · rw [if_neg (by simp [hpoint])]
      split
      · trivial
      · next name hname =>
        split
        · exact ofLeaf_fits hplace (.inl hpoint)
        · next hstop =>
          split
          · apply afterDot_fits
            obtain ⟨tree, htree, rfl⟩ := Option.map_eq_some_iff.mp hname
            have hunder : Focus.Under call ⟨tree, (call.tree, 0) :: call.above⟩ :=
              Focus.Under.refl.child htree
            have hspan := Tree.span_le (hunder.anchored hanchored)
              (htokens.sublist hunder.tokens_sublist)
            have hstart : tree.start ≤ cursor.offset := by
              change ¬ cursor.offset < tree.span.stop at hstop
              change tree.start ≤ tree.span.stop at hspan
              omega
            exact Cursor.rangeOf_reaches hplace hstart
          · trivial
    · rw [if_pos (by simp [hpoint])]
      trivial

section Decided

variable {focus : Focus} {token : Token} (hanchored : focus.tree.Anchored)
  (htokens : AreSpread focus.tree.tokens) (htoken : token ∈ focus.tree.tokens)
  (hends : token.stop ≤ cursor.offset)

omit hplace

include hanchored htokens htoken hends

theorem start_le_of_mem : focus.tree.start ≤ cursor.offset := by
  have hholds := Tree.span_holds hanchored htokens htoken
  have hfilled := htokens.filled token htoken
  change focus.tree.start ≤ token.start ∧ _ at hholds
  omega

theorem openSpan_spans {rule : Rule} (hrule : focus.tree.is rule)
    (hopening : rule.opening? = some .openBrace ∨ rule.opening? = some .openBracket)
    (hopened : ∀ rule kind, focus.tree.is rule → rule.opening? = some kind →
      ∀ first ∈ focus.tree.tokens.head?, first.kind = kind)
    (hinside : ∀ token ∈ focus.tree.tokens, token ∈ tokens) :
    SpansLiteral cursor tokens (openSpan cursor focus) := by
  have hne := List.ne_nil_of_mem htoken
  have hhead := List.head?_eq_some_head hne
  obtain ⟨last, hlast, hstop⟩ := Tree.exists_last hne
  have hkind : (focus.tree.tokens.head hne).kind = .openBrace ∨
      (focus.tree.tokens.head hne).kind = .openBracket :=
    hopening.imp (hopened rule _ hrule · _ hhead) (hopened rule _ hrule · _ hhead)
  refine ⟨focus.tree.tokens.head hne, hinside _ (List.head_mem hne), last, hinside _ hlast,
    hkind, ?_, ?_, ?_⟩
  · exact Tree.start_of_head? hanchored hhead
  · exact Nat.le_trans (htokens.first_le hhead htoken).2 hends
  · rw [openSpan, hstop]

include hplace

-- What a node decides of which a token ends before the cursor.
theorem decidedAt?_fits
    (hopened : ∀ rule kind, focus.tree.is rule → rule.opening? = some kind →
      ∀ first ∈ focus.tree.tokens.head?, first.kind = kind)
    (hinside : ∀ token ∈ focus.tree.tokens, token ∈ tokens) :
    ∀ context ∈ decidedAt? cursor focus, context.Fits cursor tokens := by
  intro context hcontext
  have hstart := start_le_of_mem hanchored htokens htoken hends
  have hspans (rule : Rule) (hrule : focus.tree.is rule)
      (hopening : rule.opening? = some .openBrace ∨ rule.opening? = some .openBracket) :=
    openSpan_spans hanchored htokens htoken hends hrule hopening hopened hinside
  rw [Option.mem_def, decidedAt?] at hcontext
  split at hcontext
  · -- a token that begins no command
    split at hcontext
    · obtain rfl := Option.some.inj hcontext
      exact Cursor.rangeOf_reaches hplace hstart
    · contradiction
  · contradiction
  · next rule start children hfocus =>
    split at hcontext
    · obtain rfl := Option.some.inj hcontext
      exact Cursor.here_reaches cursor
    · obtain rfl := Option.some.inj hcontext
      exact Cursor.here_reaches cursor
    · obtain rfl := Option.some.inj hcontext
      exact Cursor.rangeAfter_reaches hplace focus
    · split at hcontext
      · next leaf hleaf =>
        obtain rfl := Option.some.inj hcontext
        exact ofLeaf_lastLeaf_fits hplace hleaf
      · obtain rfl := Option.some.inj hcontext
        exact Cursor.rangeOf_reaches hplace hstart
    · obtain rfl := Option.some.inj hcontext
      exact Cursor.rangeOf_reaches hplace hstart
    · obtain rfl := Option.some.inj hcontext
      exact ofCall_fits hplace hanchored htokens
    · split at hcontext
      · obtain rfl := Option.some.inj hcontext
        split
        · exact Cursor.rangeAfter_reaches hplace _
        · trivial
      · obtain rfl := Option.some.inj hcontext
        trivial
    · obtain ⟨collection, -, rfl⟩ := Option.map_eq_some_iff.mp hcontext
      exact hspans .objectLiteral (by simp [hfocus, Tree.is, Tree.rule?]) (.inl rfl)
    · obtain ⟨collection, -, rfl⟩ := Option.map_eq_some_iff.mp hcontext
      exact hspans .arrayLiteral (by simp [hfocus, Tree.is, Tree.rule?]) (.inr rfl)
    · contradiction

end Decided

end Fits

end CompletionContext

namespace Pad

variable (text : String) (p : Position)

-- The node of the commands of a text, at its place.
def commandsFocus (text : String) : Focus :=
  ⟨.node .commands (Syntax.startOf (lex text.toList).all)
      (Syntax.commandList ⟨(lex text.toList).all, false⟩).trees, [((ofText text).tree, 0)]⟩

theorem tree_eq : (ofText text).tree =
    Syntax.padTree (lex text.toList).all (Syntax.commandList ⟨(lex text.toList).all, false⟩).trees
      (.atEnd (lex text.toList).stop) := by
  rw [ofText, tree, parse_eq]

theorem childOf?_commands :
    (Focus.root (ofText text).tree).childOf? .commands = some (commandsFocus text) := by
  rw [commandsFocus, tree_eq]
  rfl

theorem commandsFocus_anchored : (commandsFocus text).tree.Anchored :=
  ⟨Syntax.start_of_head?, fun h => by contradiction, Syntax.commandList_anchored _⟩

theorem tokens_commandsFocus : (commandsFocus text).tree.tokens = (lex text.toList).tokens :=
  (Syntax.commandList_lex text.toList).1

theorem commandsFocus_spread : AreSpread (commandsFocus text).tree.tokens := by
  rw [tokens_commandsFocus]
  exact areSpread_lex text.toList

-- What can be completed depends on the last leaf before the cursor.
theorem contextAt_eq : (ofText text).contextAt p =
    match (commandsFocus text).lastLeafBefore? ((ofText text).cursorAt p).offset with
    | some found => .upwards ((ofText text).cursorAt p) found.tree found.above
    | none => .keyword ((ofText text).cursorAt p).here := by
  have hrun := Walk.run_nodeBefore ((ofText text).cursorAt p).offset
    (commandsFocus_anchored text) (commandsFocus_spread text)
  rw [← hrun, contextAt, childOf?_commands]
  rfl

theorem opened_of_under {focus : Focus} (h : Focus.Under (commandsFocus text) focus) (rule : Rule)
    (kind : TokenKind) (hrule : focus.tree.is rule) (hkind : rule.opening? = some kind) :
    ∀ first ∈ focus.tree.tokens.head?, first.kind = kind := by
  have hne : Rule.commands ≠ rule := by
    rintro rfl
    contradiction
  have hnode := h.mem_nodesOf hrule
  rw [commandsFocus, Tree.nodesOf, if_neg hne] at hnode
  exact Syntax.commandList_opened _ rule kind hkind _ hnode

theorem contextAt_fits {p : Position} (hplace : (ofText text).index.IsPlace p) :
    ((ofText text).contextAt p).Fits ((ofText text).cursorAt p) (lex text.toList).tokens := by
  rw [contextAt_eq]
  split
  · next found hfound =>
    obtain ⟨hunder, token, htoken, hends⟩ := Focus.lastLeafIn?_under hfound
    have hmem := Tree.mem_tokens_of_token? htoken
    have hstop : token.stop ≤ ((ofText text).cursorAt p).offset := by
      simp [Focus.endsBy] at hends
      omega
    refine CompletionContext.upwards_induct rfl (fun focus hfocus hbelow => ?_) hunder
    apply @CompletionContext.decidedAt?_fits ((ofText text).cursorAt p) _ hplace _ _
      (hfocus.anchored (commandsFocus_anchored text))
      ((commandsFocus_spread text).sublist hfocus.tokens_sublist)
      (hbelow.tokens_sublist.subset hmem) hstop
    · exact fun rule kind hrule hkind => opened_of_under text hfocus rule kind hrule hkind
    · intro token htoken
      rw [← tokens_commandsFocus]
      exact hfocus.tokens_sublist.subset htoken
  · exact Cursor.here_reaches _

end Pad

end QueryPad
