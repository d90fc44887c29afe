import Mathlib.Data.List.TakeWhile
import Mathlib.Logic.Function.Iterate
import VertexLanes.Block.Parser

/-!
# Tokens and the text between them

The pieces of a source tile it: each begins where the one before it stopped, on
a character boundary, and covers its own text. A token is spelled as the text
under its range. If nothing was reported, what stands before, between and after
the tokens is white space and complete comments. Where several symbols could be
read, the longest is.
-/

namespace VertexLanes

private theorem byteLength_cons (c : Char) (text : List Char) :
    byteLength (c :: text) = c.utf8Size + byteLength text := rfl

theorem byteLength_append (a b : List Char) :
    byteLength (a ++ b) = byteLength a + byteLength b := by
  induction a with
  | nil => simp [byteLength]
  | cons c a ih => rw [List.cons_append, byteLength_cons, byteLength_cons, ih, Nat.add_assoc]

theorem byteLength_pos {text : List Char} (h : text ≠ []) : 0 < byteLength text := by
  cases text with
  | nil => exact absurd rfl h
  | cons c text =>
    have := c.utf8Size_pos
    rw [byteLength_cons]
    omega

/-- Cutting a text after the bytes of its first part gives its parts. -/
theorem splitBytes_append (a b : List Char) : splitBytes (byteLength a) (a ++ b) = some (a, b) := by
  induction a with
  | nil => cases b <;> rfl
  | cons c a ih =>
    have hpos := c.utf8Size_pos
    obtain ⟨n, hn⟩ : ∃ n, c.utf8Size + byteLength a = n + 1 :=
      Nat.exists_eq_succ_of_ne_zero (by omega)
    have hle : c.utf8Size ≤ n + 1 := by omega
    have hrest : n + 1 - c.utf8Size = byteLength a := by omega
    rw [byteLength_cons, hn, List.cons_append, splitBytes, if_pos hle, hrest, ih]
    rfl

/-- A range covers a part of a source, which stands between two others. -/
structure Span.Covers (s : Span) (source before text after : List Char) : Prop where
  tiles : source = before ++ text ++ after
  start_eq : s.start = byteLength before
  stop_eq : s.stop = byteLength (before ++ text)

/-- A range that covers a text reads it back. -/
theorem Span.Covers.slice? {s : Span} {source before text after : List Char}
    (h : s.Covers source before text after) : s.slice? source = some text := by
  have hlen : s.stop - s.start = byteLength text := by
    rw [h.start_eq, h.stop_eq, byteLength_append]
    omega
  have hle : s.start ≤ s.stop := by
    rw [h.start_eq, h.stop_eq, byteLength_append]
    omega
  rw [Span.slice?, if_pos hle, hlen, h.start_eq, h.tiles, List.append_assoc, splitBytes_append]
  change (splitBytes (byteLength text) (text ++ after) >>= _) = _
  rw [splitBytes_append]
  rfl

/-- White space and complete comments, before another text. A line comment is complete where its
line or the source ends, which may be where the other text begins. -/
inductive Separation : List Char → List Char → Prop
  | nil (after : List Char) : Separation [] after
  | space {c : Char} {text after : List Char} (hc : Lexer.isSpace c = true)
      (h : Separation text after) : Separation (c :: text) after
  | blockComment {body text after : List Char} (hb : ¬['*', '/'] <:+: body)
      (h : Separation text after) :
      Separation ('/' :: '*' :: (body ++ '*' :: '/' :: text)) after
  | lineComment {body text after : List Char} (hb : '\n' ∉ body)
      (he : ∀ c, (text ++ after).head? = some c → c = '\n') (h : Separation text after) :
      Separation ('/' :: '/' :: (body ++ text)) after

/-- Two separations, one behind the other, are one. -/
theorem Separation.append {a b after : List Char} (ha : Separation a (b ++ after))
    (hb : Separation b after) : Separation (a ++ b) after := by
  generalize hg : b ++ after = follow at ha
  induction ha with
  | nil => exact hb
  | space hc _ ih => exact .space hc (ih hg)
  | blockComment hbody _ ih =>
    simpa using Separation.blockComment hbody (ih hg)
  | lineComment hbody he _ ih =>
    subst hg
    simpa using Separation.lineComment hbody (by simpa using he) (ih rfl)

namespace Lexer

/-- White space separates. -/
theorem separation_spaces {spaces : List Char} (h : ∀ c ∈ spaces, isSpace c = true)
    (after : List Char) : Separation spaces after := by
  induction spaces with
  | nil => exact .nil after
  | cons c cs ih =>
    exact .space (h c List.mem_cons_self) (ih fun d hd => h d (List.mem_cons_of_mem c hd))

/-- A closed comment ends with the first end mark after its beginning. -/
theorem closeComment_body {text inner rest : List Char}
    (h : closeComment text = some (inner, rest)) :
    ∃ body, inner = body ++ ['*', '/'] ∧ ¬['*', '/'] <:+: body := by
  induction text generalizing inner with
  | nil => cases h
  | cons c cs ih =>
    rw [closeComment] at h
    split at h
    · cases h
      exact ⟨[], rfl, by simp⟩
    · next hc =>
      obtain ⟨⟨inner', rest'⟩, hclose, he⟩ := Option.map_eq_some_iff.mp h
      cases he
      obtain ⟨body, rfl, hbody⟩ := ih hclose
      refine ⟨c :: body, rfl, ?_⟩
      rw [List.infix_cons_iff, not_or]
      refine ⟨?_, hbody⟩
      -- an end mark at the very beginning would have closed the comment there
      rintro ⟨after, he⟩
      obtain ⟨rfl, rfl⟩ := List.cons.inj he
      exact hc ⟨rfl, by rw [← closeComment_tiles hclose]; rfl⟩

namespace Piece

/-- A line comment separates, up to the end of its line. -/
theorem separation_lineComment (cs : List Char) :
    Separation (lineComment ('/' :: '/' :: cs)).text (lineComment ('/' :: '/' :: cs)).rest := by
  have hbody : '\n' ∉ cs.takeWhile (· != '\n') := fun hmem => by
    simpa using List.mem_takeWhile_imp hmem
  have hend : ∀ c, ([] ++ cs.dropWhile (· != '\n')).head? = some c → c = '\n' := by
    intro c hc
    have hnot := List.head?_dropWhile_not (· != '\n') cs
    rw [List.nil_append] at hc
    rw [hc] at hnot
    simpa using hnot
  simpa [lineComment] using Separation.lineComment hbody hend (.nil _)

/-- A blank piece is white space or a complete comment. -/
theorem separation_next {lineStart : Bool} {c : Char} {cs : List Char}
    (h : (next lineStart c cs).reading = .blank) :
    Separation (next lineStart c cs).text (next lineStart c cs).rest := by
  revert h
  unfold next
  split
  · next hc =>
    intro _
    refine .space hc (separation_spaces ?_ _)
    intro d hd
    exact List.mem_takeWhile_imp hd
  split
  · next hc =>
    intro _
    obtain ⟨rfl, hc⟩ := hc
    obtain ⟨ds, rfl⟩ := List.head?_eq_some_iff.mp hc
    exact separation_lineComment ds
  split
  · intro h
    unfold blockComment at h ⊢
    split at h
    · next inner rest hclose =>
      obtain ⟨body, rfl, hbody⟩ := closeComment_body hclose
      simpa [hclose] using Separation.blockComment hbody (.nil rest)
    · cases h
  split
  · intro h
    cases h
  split
  · intro h
    cases h
  split
  · intro h
    cases h
  split
  · intro h
    unfold literal at h
    simp only at h
    split at h <;> cases h
  split
  · intro h
    unfold literal at h
    simp only at h
    split at h <;> cases h
  · intro h
    unfold symbol at h
    split at h <;> cases h

end Piece

end Lexer

/-- Whether a text spells a lexeme. A directive is spelled without the blanks at its end. -/
def Lexeme.Spells (l : Lexeme) (text : List Char) : Prop :=
  l.spelling = String.ofList (match l with
    | .directive _ => Text.trimEnd text
    | _ => text)

/-- A word is spelled as it is. -/
theorem Lexeme.spells_ofWord (word : List Char) :
    (Lexeme.ofWord (String.ofList word)).Spells word := by
  unfold Lexeme.ofWord
  split
  · next k hk =>
    have := List.find?_some hk
    simpa [Lexeme.Spells, Lexeme.spelling] using this
  · rfl

theorem Lexeme.ofWord_ne_symbol (word : String) (s : Symbol) : Lexeme.ofWord word ≠ .symbol s := by
  unfold Lexeme.ofWord
  split <;> exact Lexeme.noConfusion

theorem Symbol.mem_all (s : Symbol) : s ∈ Symbol.all := by
  cases s <;> decide

/-- In the list of the symbols no symbol stands before a longer one. -/
theorem Symbol.all_pairwise :
    Symbol.all.Pairwise fun a b => b.spelling.length ≤ a.spelling.length := by
  decide +kernel

/-- The symbol that is read begins the text, and no longer one does. -/
theorem Symbol.ofStart?_eq_some {text : List Char} {s : Symbol}
    (h : Symbol.ofStart? text = some s) :
    s.spelling.toList <+: text ∧
      ∀ s' : Symbol, s'.spelling.toList <+: text → s'.spelling.length ≤ s.spelling.length := by
  obtain ⟨hp, before, after, hall, hbefore⟩ := List.find?_eq_some_iff_append.mp h
  refine ⟨List.isPrefixOf_iff_prefix.mp hp, ?_⟩
  intro s' hs'
  have hpair := hall ▸ Symbol.all_pairwise
  have hmem : s' ∈ before ++ s :: after := hall ▸ s'.mem_all
  rcases List.mem_append.mp hmem with hb | hsa
  · have := hbefore s' hb
    simp [List.isPrefixOf_iff_prefix.mpr hs'] at this
  · rcases List.mem_cons.mp hsa with rfl | ha
    · exact Nat.le_refl _
    · exact (List.pairwise_cons.mp (List.pairwise_append.mp hpair).2.1).1 s' ha

namespace Lexer

namespace Piece

/-- The rules that read tokens. -/
theorem next_token_cases {lineStart : Bool} {c : Char} {cs : List Char} {l : Lexeme}
    (h : (next lineStart c cs).reading = .token l) :
    next lineStart c cs = directive c cs ∨
      (isWordStart c = true ∧ next lineStart c cs = word c cs) ∨
      (startsNumber c cs = true ∧ next lineStart c cs = number c cs) ∨
      (∃ quote : Quote, c = quote.mark ∧ next lineStart c cs = literal quote cs) ∨
      next lineStart c cs = symbol c cs := by
  revert h
  unfold next
  split
  · intro h
    cases h
  split
  · intro h
    cases h
  split
  · intro h
    unfold blockComment at h
    split at h <;> cases h
  split
  · exact fun _ => Or.inl rfl
  split
  · next hw => exact fun _ => Or.inr (Or.inl ⟨hw, rfl⟩)
  split
  · next hn => exact fun _ => Or.inr (Or.inr (Or.inl ⟨hn, rfl⟩))
  split
  · next hq => exact fun _ => Or.inr (Or.inr (Or.inr (Or.inl ⟨.string, hq, rfl⟩)))
  split
  · next hq => exact fun _ => Or.inr (Or.inr (Or.inr (Or.inl ⟨.character, hq, rfl⟩)))
  · exact fun _ => Or.inr (Or.inr (Or.inr (Or.inr rfl)))

/-- A literal gives a token if it is closed, and the token holds its text. -/
theorem token_literal {quote : Quote} {cs : List Char} {l : Lexeme}
    (h : (literal quote cs).reading = .token l) :
    (spanLiteral quote.mark cs).closed = true ∧
      l = .quoted quote (String.ofList (quote.mark :: (spanLiteral quote.mark cs).text)) := by
  unfold literal at h
  simp only at h
  split at h
  · next hc =>
    cases h
    exact ⟨hc, rfl⟩
  · cases h

/-- A symbol token is the longest one that its text begins with. -/
theorem token_symbol {c : Char} {cs : List Char} {l : Lexeme}
    (h : (symbol c cs).reading = .token l) :
    ∃ s, l = .symbol s ∧ Symbol.ofStart? (c :: cs) = some s ∧
      (symbol c cs).text = s.spelling.toList := by
  unfold symbol at h ⊢
  split at h
  · next s hs =>
    cases h
    obtain ⟨after, ha⟩ := (Symbol.ofStart?_eq_some hs).1
    refine ⟨s, rfl, hs, ?_⟩
    rw [← ha, ← String.length_toList]
    exact List.take_left
  · cases h

/-- A token is spelled by its piece. -/
theorem spells_next {lineStart : Bool} {c : Char} {cs : List Char} {l : Lexeme}
    (h : (next lineStart c cs).reading = .token l) : l.Spells (next lineStart c cs).text := by
  rcases next_token_cases h with he | ⟨-, he⟩ | ⟨-, he⟩ | ⟨quote, rfl, he⟩ | he
  · rw [he] at h ⊢
    cases h
    rfl
  · rw [he] at h ⊢
    cases h
    exact Lexeme.spells_ofWord _
  · rw [he] at h ⊢
    cases h
    rfl
  · rw [he] at h ⊢
    obtain ⟨-, rfl⟩ := token_literal h
    rfl
  · rw [he] at h ⊢
    obtain ⟨s, rfl, -, htext⟩ := token_symbol h
    rw [htext]
    exact String.ofList_toList.symm

/-- A symbol is the longest that begins where it is read. -/
theorem longest_next {lineStart : Bool} {c : Char} {cs : List Char} {s : Symbol}
    (h : (next lineStart c cs).reading = .token (.symbol s)) (s' : Symbol)
    (hs' : s'.spelling.toList <+: c :: cs) : s'.spelling.length ≤ s.spelling.length := by
  rcases next_token_cases h with he | ⟨-, he⟩ | ⟨-, he⟩ | ⟨quote, rfl, he⟩ | he
  · rw [he] at h
    cases h
  · rw [he] at h
    exact absurd (Reading.token.inj h) (Lexeme.ofWord_ne_symbol _ s)
  · rw [he] at h
    cases h
  · rw [he] at h
    obtain ⟨-, hl⟩ := token_literal h
    cases hl
  · rw [he] at h
    obtain ⟨t, ht, hstart, -⟩ := token_symbol h
    cases ht
    exact (Symbol.ofStart?_eq_some hstart).2 s' hs'

end Piece

/-- Every piece covers its own text, and what is left after it is the rest of the source. -/
theorem covers_place (before : List Char) {source : List Char} {lineStart : Bool}
    {p : Located Piece}
    (h : p ∈ place (byteLength before) (pieces lineStart source)) :
    (∃ b, p.span.Covers (before ++ source) b p.item.text p.item.rest) ∧
      ∃ ls c cs, p.item = Piece.next ls c cs := by
  fun_induction pieces lineStart source generalizing before with
  | case1 => cases h
  | case2 lineStart c cs q =>
    rename_i ih
    have htiles : q.text ++ q.rest = c :: cs := Piece.next_tiles lineStart c cs
    rw [place] at h
    rcases List.mem_cons.mp h with rfl | h
    · refine ⟨⟨before, ?_, rfl, ?_⟩, lineStart, c, cs, rfl⟩
      · rw [List.append_assoc, htiles]
      · exact (byteLength_append _ _).symm
    · rw [← byteLength_append] at h
      obtain ⟨⟨b, hb⟩, hnext⟩ := ih _ h
      rw [List.append_assoc, htiles] at hb
      exact ⟨⟨b, hb⟩, hnext⟩

/-- No placed piece starts before the first. -/
theorem start_le_of_mem_place {offset : Nat} {ps : List Piece} {p : Located Piece}
    (h : p ∈ place offset ps) : offset ≤ p.span.start := by
  induction ps generalizing offset with
  | nil => cases h
  | cons q ps ih =>
    rcases List.mem_cons.mp h with rfl | h
    · exact Nat.le_refl _
    · exact Nat.le_trans (Nat.le_add_right _ _) (ih h)

/-- Each piece begins no earlier than those before it stop. -/
theorem place_pairwise (offset : Nat) (ps : List Piece) :
    (place offset ps).Pairwise fun a b => a.span.stop ≤ b.span.start := by
  induction ps generalizing offset with
  | nil => exact List.Pairwise.nil
  | cons q ps ih => exact List.Pairwise.cons (fun p hp => start_le_of_mem_place hp) (ih _)

/-- A token is a piece read as one, with its span. -/
theorem tokenOf_eq_some {p : Located Piece} {t : Token} (h : tokenOf p = some t) :
    p.item.reading = .token t.item ∧ p.span = t.span := by
  unfold tokenOf at h
  split at h
  · next l hl =>
    cases h
    exact ⟨hl, rfl⟩
  · cases h

theorem tokenOf_of_blank {p : Located Piece} (h : p.item.reading = .blank) : tokenOf p = none := by
  unfold tokenOf
  rw [h]

/-- A piece read as a lexeme is a token. -/
theorem tokenOf_of_token {p : Located Piece} {l : Lexeme} (h : p.item.reading = .token l) :
    tokenOf p = some ⟨l, p.span⟩ := by
  unfold tokenOf
  rw [h]

/-- A piece without faults is blank or a token. -/
theorem reading_of_faultsOf {p : Located Piece} (h : faultsOf p = []) :
    p.item.reading = .blank ∨ ∃ l, p.item.reading = .token l := by
  unfold faultsOf at h
  split at h
  · exact Or.inl ‹_›
  · exact Or.inr ⟨_, ‹_›⟩
  · cases h
  · cases h
  · next c hc =>
    have hlen := congrArg List.length h
    have hpos := c.utf8Size_pos
    rw [List.length_map, List.length_zipIdx, String.length_utf8EncodeChar] at hlen
    simp only [List.length_nil] at hlen
    omega

/-- The ranges before, between and after tokens, from one offset to another. -/
def gaps (start : Nat) : List Token → Nat → List Span
  | [], stop => [⟨start, stop⟩]
  | t :: ts, stop => ⟨start, t.span.start⟩ :: gaps t.span.stop ts stop

/-- Where nothing is reported, only white space and complete comments stand between the tokens:
the induction carries the part `blank` of the current gap that is read already. -/
theorem gaps_separated {lineStart : Bool} {before blank source : List Char}
    (hblank : Separation blank source)
    (hfaults :
      (place (byteLength (before ++ blank)) (pieces lineStart source)).flatMap faultsOf = [])
    {g : Span} (hg : g ∈ gaps (byteLength before)
      ((place (byteLength (before ++ blank)) (pieces lineStart source)).filterMap tokenOf)
      (byteLength (before ++ blank ++ source))) :
    ∃ b t a, g.Covers (before ++ blank ++ source) b t a ∧ Separation t a := by
  fun_induction pieces lineStart source generalizing before blank with
  | case1 =>
    rw [List.mem_singleton.mp hg]
    refine ⟨before, blank, [], ⟨rfl, rfl, by simp⟩, hblank⟩
  | case2 lineStart c cs q =>
    rename_i ih
    have htiles : q.text ++ q.rest = c :: cs := Piece.next_tiles lineStart c cs
    have hsource : before ++ blank ++ c :: cs = before ++ blank ++ q.text ++ q.rest := by
      rw [← htiles, ← List.append_assoc]
    rw [place, ← byteLength_append] at hfaults hg
    rw [List.flatMap_cons, List.append_eq_nil_iff] at hfaults
    obtain ⟨hq, hqs⟩ := hfaults
    rw [hsource] at hg ⊢
    rcases reading_of_faultsOf hq with hr | ⟨l, hr⟩
    · rw [List.filterMap_cons_none (tokenOf_of_blank hr)] at hg
      have hmore : Separation (blank ++ q.text) q.rest :=
        Separation.append (htiles ▸ hblank) (Piece.separation_next hr)
      rw [List.append_assoc before] at hqs hg ⊢
      exact ih hmore hqs hg
    · rw [List.filterMap_cons_some (tokenOf_of_token hr)] at hg
      rcases List.mem_cons.mp hg with rfl | hg
      · refine ⟨before, blank, q.text ++ q.rest, ⟨by simp, rfl, rfl⟩, htiles ▸ hblank⟩
      · have hnil := @ih (before ++ blank ++ q.text) [] (.nil q.rest)
        simp only [List.append_nil] at hnil
        exact hnil hqs hg

/-- A token is spelled by a part of the source that its range covers, and a symbol is the longest
that begins there. -/
theorem covers_token {source : List Char} {t : Token} (h : t ∈ (lex source).tokens) :
    ∃ before text after, t.span.Covers source before text after ∧ text ≠ [] ∧
      t.item.Spells text ∧
      ∀ s, t.item = .symbol s → ∀ s' : Symbol, s'.spelling.toList <+: text ++ after →
        s'.spelling.length ≤ s.spelling.length := by
  obtain ⟨p, hp, ht⟩ := List.mem_filterMap.mp h
  obtain ⟨hr, hspan⟩ := tokenOf_eq_some ht
  obtain ⟨⟨before, hcovers⟩, ls, c, cs, hnext⟩ := covers_place [] hp
  have htiles := Piece.next_tiles ls c cs
  rw [hspan, List.nil_append] at hcovers
  rw [hnext] at hr hcovers
  refine ⟨before, _, _, hcovers, Piece.next_text_ne_nil ls c cs, Piece.spells_next hr, ?_⟩
  intro s hs s' hprefix
  rw [htiles] at hprefix
  rw [hs] at hr
  exact Piece.longest_next hr s' hprefix

end Lexer

/-- Advancing some times drops as many tokens. -/
theorem Cursor.rest_iterate_advance (n : Nat) (c : Cursor) :
    (Cursor.advance^[n] c).rest = c.rest.drop n ∧ (Cursor.advance^[n] c).stop = c.stop := by
  induction n generalizing c with
  | zero => exact ⟨rfl, rfl⟩
  | succ n ih =>
    obtain ⟨hrest, hstop⟩ := ih c.advance
    rw [Function.iterate_succ_apply, hrest, hstop]
    unfold Cursor.advance
    split
    · next h => simp [h]
    · next h => simp [h]

/-- Stepping on from the first token meets the tokens in order, and after the last only the end,
which has an empty range. -/
theorem Lexed.peek_iterate_advance (lexed : Lexed) (n : Nat) :
    (Cursor.advance^[n] lexed.cursor).peek = lexed.tokens[n]?.map Located.item ∧
      (Cursor.advance^[n] lexed.cursor).here =
        (lexed.tokens[n]?.map Located.span).getD ⟨lexed.stop, lexed.stop⟩ := by
  have hrest : (Cursor.advance^[n] lexed.cursor).rest = lexed.tokens.drop n :=
    (Cursor.rest_iterate_advance n lexed.cursor).1
  have hstop : (Cursor.advance^[n] lexed.cursor).stop = lexed.stop :=
    (Cursor.rest_iterate_advance n lexed.cursor).2
  rw [Cursor.peek, Cursor.here, hrest, hstop, ← List.head?_drop]
  cases lexed.tokens.drop n with
  | nil => exact ⟨rfl, rfl⟩
  | cons t ts => exact ⟨rfl, rfl⟩

/-- A token has at least one byte, and all its bytes are in the source. -/
theorem bounds_of_mem_lex {source : List Char} {t : Token} (h : t ∈ (lex source).tokens) :
    t.span.start < t.span.stop ∧ t.span.stop ≤ byteLength source := by
  obtain ⟨before, text, after, hcovers, hne, -, -⟩ := Lexer.covers_token h
  have hpos := byteLength_pos hne
  rw [hcovers.start_eq, hcovers.stop_eq, hcovers.tiles, byteLength_append, byteLength_append,
    byteLength_append]
  omega

/-- No token begins before an earlier one stops. -/
theorem lex_ordered (source : List Char) :
    (lex source).tokens.Pairwise fun a b => a.span.stop ≤ b.span.start := by
  refine (Lexer.place_pairwise 0 (Lexer.pieces true source)).filterMap Lexer.tokenOf ?_
  intro p q hpq a ha b hb
  rw [← (Lexer.tokenOf_eq_some ha).2, ← (Lexer.tokenOf_eq_some hb).2]
  exact hpq

/-- What it means that tokens tile a source. -/
structure Lexed.Tiles (lexed : Lexed) (source : List Char) : Prop where
  /-- Every token covers some text of the source and is spelled as that text. If it is a symbol, no
  longer one begins there. -/
  spelled : ∀ t ∈ lexed.tokens, ∃ before text after,
    t.span.Covers source before text after ∧ t.span.slice? source = some text ∧
      t.item.Spells text ∧
      ∀ s, t.item = .symbol s → ∀ s' : Symbol, s'.spelling.toList <+: text ++ after →
        s'.spelling.length ≤ s.spelling.length
  /-- Every token has at least one byte, and all its bytes are in the source. -/
  bounded : ∀ t ∈ lexed.tokens, t.span.start < t.span.stop ∧ t.span.stop ≤ byteLength source
  /-- No token begins before an earlier one stops. -/
  ordered : lexed.tokens.Pairwise fun a b => a.span.stop ≤ b.span.start
  /-- Stepping on from the first token meets the tokens in order, and after the last only the end,
  an empty range at the length of the source. -/
  ending : ∀ n, (Cursor.advance^[n] lexed.cursor).peek = lexed.tokens[n]?.map Located.item ∧
    (Cursor.advance^[n] lexed.cursor).here =
      (lexed.tokens[n]?.map Located.span).getD ⟨byteLength source, byteLength source⟩
  /-- If nothing is reported, only white space and complete comments stand before, between and
  after the tokens. -/
  separated : lexed.faults = [] → ∀ g ∈ Lexer.gaps 0 lexed.tokens (byteLength source),
    ∃ before text after, g.Covers source before text after ∧ Separation text after

/-- The tokens of a source tile it, and every step of reading it takes some text, which its range
covers, and leaves exactly what follows that text. -/
theorem lex_tiles (source : List Char) :
    (lex source).Tiles source ∧
      ∀ p ∈ Lexer.place 0 (Lexer.pieces true source), p.item.text ≠ [] ∧
        ∃ before, p.span.Covers source before p.item.text p.item.rest := by
  refine ⟨⟨?_, ?_, ?_, ?_, ?_⟩, ?_⟩
  · intro t ht
    obtain ⟨before, text, after, hcovers, -, hspells, hlongest⟩ := Lexer.covers_token ht
    exact ⟨before, text, after, hcovers, hcovers.slice?, hspells, hlongest⟩
  · exact fun t ht => bounds_of_mem_lex ht
  · exact lex_ordered source
  · exact (lex source).peek_iterate_advance
  · intro hfaults g hg
    exact @Lexer.gaps_separated true [] [] source (.nil source) hfaults g hg
  · intro p hp
    obtain ⟨hcovers, ls, c, cs, hnext⟩ := Lexer.covers_place [] hp
    refine ⟨?_, hcovers⟩
    rw [hnext]
    exact Lexer.Piece.next_text_ne_nil ls c cs

end VertexLanes
