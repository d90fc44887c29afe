import VertexLanes.Block.Cursor

/-!
# Groups and clauses

What a reader takes for a bracketed group, and for the tokens up to a semicolon,
depends on the lexemes alone. Both notions are stated here about lexemes, and a
reader finds exactly them: what it reads without fault has the form, and
whatever has the form it reads, wherever it stands.
-/

namespace VertexLanes

namespace Cursor

/-- The lexemes still to be read. -/
def ahead (c : Cursor) : List Lexeme := c.rest.map Located.item

/-- Advancing leaves the tokens behind the next. -/
theorem advance_rest {c : Cursor} {t : Token} {ts : List Token} (hr : c.rest = t :: ts) :
    c.advance.rest = ts := by
  rw [advance, hr]

theorem peek_eq_head?_ahead (c : Cursor) : c.peek = c.ahead.head? := List.head?_map.symm

/-- The cursor is at a mark that is the first lexeme ahead. -/
theorem at_of_ahead {c : Cursor} {mark : Symbol} {ls : List Lexeme}
    (h : c.ahead = .symbol mark :: ls) : c.at? mark = true := by
  rw [at?, peek_eq_head?_ahead, h]
  exact beq_self_eq_true _

/-- A lexeme ahead is that of a token, and advancing leaves the lexemes behind it. -/
theorem exists_rest_of_ahead {c : Cursor} {l : Lexeme} {ls : List Lexeme}
    (h : c.ahead = l :: ls) :
    ∃ t ts, c.rest = t :: ts ∧ t.item = l ∧ c.advance.ahead = ls := by
  obtain ⟨t, ts, hr, ht, hts⟩ := List.map_eq_cons_iff.mp h
  refine ⟨t, ts, hr, ht, ?_⟩
  rw [ahead, advance_rest hr, hts]

/-- The lexeme of the next token is ahead. -/
theorem ahead_of_rest {c : Cursor} {t : Token} {ts : List Token} (hr : c.rest = t :: ts) :
    c.ahead = t.item :: c.advance.ahead := by
  rw [ahead, ahead, advance_rest hr, hr, List.map_cons]

/-- At a mark, the mark is ahead. -/
theorem ahead_of_at {c : Cursor} {mark : Symbol} (h : c.at? mark = true) :
    c.ahead = .symbol mark :: c.advance.ahead := by
  obtain ⟨t, ts, hr⟩ := List.exists_cons_of_ne_nil (rest_ne_nil_of_at h)
  rw [at?, peek, hr] at h
  rw [ahead_of_rest hr]
  simpa using h

/-- At a keyword, the keyword is ahead. -/
theorem ahead_of_atKeyword {c : Cursor} {word : Keyword} (h : c.atKeyword? word = true) :
    c.ahead = .keyword word :: c.advance.ahead := by
  obtain ⟨t, ts, hr⟩ := List.exists_cons_of_ne_nil (rest_ne_nil_of_atKeyword h)
  rw [atKeyword?, peek, hr] at h
  rw [ahead_of_rest hr]
  simpa using h

/-- With a lexeme ahead that is no closing brace, a block is not at its end. -/
theorem not_atBlockEnd_of_ahead {c : Cursor} {l : Lexeme} {ls : List Lexeme}
    (h : c.ahead = l :: ls) (hl : l ≠ .symbol .rbrace) : c.atBlockEnd = false := by
  obtain ⟨t, ts, hr, -, -⟩ := exists_rest_of_ahead h
  rw [atBlockEnd, at?, peek_eq_head?_ahead, h, hr]
  simpa using hl

/-- The number of groups open inside the current one after some lexemes; none if that closes. -/
def depthThrough : Nat → List Lexeme → Option Nat
  | depth, [] => some depth
  | depth, l :: ls => (depthAfter depth l.side).bind fun d => depthThrough d ls

/-- Only a closing bracket without an open one has no depth. -/
theorem depthAfter_eq_none {depth : Nat} {side : Side} (h : depthAfter depth side = none) :
    side = .closing ∧ depth = 0 := by
  cases side with
  | opening => cases h
  | plain => cases h
  | closing =>
    refine ⟨rfl, ?_⟩
    by_cases hd : depth = 0
    · exact hd
    · rw [depthAfter, if_neg hd] at h
      cases h

/-- A group that is closed ends with a closing bracket, and no bracket before that closes it. -/
theorem depthThrough_of_spanGroup {depth : Nat} {ts : List Token}
    (h : (spanGroup depth ts).closed = true) :
    ∃ inner closing, (spanGroup depth ts).tokens = inner ++ [closing] ∧
      closing.side = .closing ∧ depthThrough depth (inner.map Located.item) = some 0 := by
  induction ts generalizing depth with
  | nil => cases h
  | cons t ts ih =>
    rw [spanGroup] at h ⊢
    cases hd : depthAfter depth t.side with
    | none =>
      obtain ⟨hside, rfl⟩ := depthAfter_eq_none hd
      exact ⟨[], t, rfl, hside, rfl⟩
    | some d =>
      rw [hd] at h
      obtain ⟨inner, closing, htokens, hside, hinner⟩ := ih h
      refine ⟨t :: inner, closing, ?_, hside, ?_⟩
      · simp only [htokens, List.cons_append]
      · change (depthAfter depth t.side).bind _ = some 0
        rw [hd]
        exact hinner

/-- Lexemes that no bracket inside closes are read as a group up to the next closing bracket. -/
theorem spanGroup_append {depth : Nat} {inner : List Token} {closing : Token} (rest : List Token)
    (hinner : depthThrough depth (inner.map Located.item) = some 0)
    (hside : closing.side = .closing) :
    spanGroup depth (inner ++ closing :: rest) = ⟨inner ++ [closing], rest, true⟩ := by
  induction inner generalizing depth with
  | nil =>
    cases hinner
    rw [List.nil_append, spanGroup, hside]
    rfl
  | cons t inner ih =>
    obtain ⟨d, hd, hrest⟩ := Option.bind_eq_some_iff.mp hinner
    have ht : depthAfter depth t.side = some d := hd
    rw [List.cons_append, spanGroup, ht]
    simp only [ih hrest, List.cons_append]

/-- A group is read where a bracket opens and a later one closes it. -/
theorem group_append {c : Cursor} {opening closing : Token} {inner rest : List Token}
    (hr : c.rest = opening :: (inner ++ closing :: rest))
    (hinner : depthThrough 0 (inner.map Located.item) = some 0)
    (hside : closing.side = .closing) :
    c.group.value = opening :: (inner ++ [closing]) ∧ c.group.faults = [] ∧
      c.group.next.rest = rest := by
  unfold group
  rw [hr]
  simp [spanGroup_append rest hinner hside]

/-- A group that is read without fault has an opening bracket and the one that closes it. -/
theorem depthThrough_of_group {c : Cursor} (h : c.group.faults = []) :
    ∃ opening inner closing, c.group.value = opening :: (inner ++ [closing]) ∧
      c.rest = opening :: (inner ++ closing :: c.group.next.rest) ∧
      closing.side = .closing ∧ depthThrough 0 (inner.map Located.item) = some 0 := by
  unfold group at h ⊢
  cases hr : c.rest with
  | nil =>
    rw [hr] at h
    cases h
  | cons t ts =>
    rw [hr] at h
    cases hc : (spanGroup 0 ts).closed with
    | false => simp [hc] at h
    | true =>
      obtain ⟨inner, closing, htokens, hside, hinner⟩ := depthThrough_of_spanGroup hc
      have htiles := spanGroup_tiles 0 ts
      rw [htokens, List.append_assoc] at htiles
      refine ⟨t, inner, closing, ?_, ?_, hside, hinner⟩
      · simp only [htokens]
      · exact congrArg (t :: ·) htiles.symm

/-- Lexemes that can stand before a semicolon: single ones that are no brackets, and whole
groups. -/
inductive Clause : List Lexeme → Prop
  | nil : Clause []
  | plain {l : Lexeme} {ls : List Lexeme} (hl : l.side = .plain) (hs : l ≠ .symbol .semicolon)
      (h : Clause ls) : Clause (l :: ls)
  | group {opening closing : Lexeme} {inner ls : List Lexeme} (ho : opening.side = .opening)
      (hi : depthThrough 0 inner = some 0) (hc : closing.side = .closing) (h : Clause ls) :
      Clause (opening :: (inner ++ closing :: ls))

/-- A clause never begins with a bracket that closes. -/
theorem Clause.side_ne_closing {l : Lexeme} {ls : List Lexeme} (h : Clause (l :: ls)) :
    l.side ≠ .closing := by
  intro hl
  generalize he : l :: ls = all at h
  cases h with
  | nil => cases he
  | plain hplain =>
    cases he
    cases hl.symm.trans hplain
  | group hopening =>
    cases he
    cases hl.symm.trans hopening

/-- What is read up to a semicolon without fault is a clause, and nothing of it is left out. -/
theorem clause_of_untilSemicolon {c : Cursor} (h : c.untilSemicolon.faults = []) :
    Clause (c.untilSemicolon.value.map Located.item) ∧
      c.rest = c.untilSemicolon.value ++ c.untilSemicolon.next.rest := by
  fun_induction untilSemicolon c with
  | case1 => exact ⟨.nil, rfl⟩
  | case2 => exact ⟨.nil, rfl⟩
  | case3 c t ts hr hstop hside g r ih =>
    obtain ⟨hg, hrest⟩ := List.append_eq_nil_iff.mp h
    obtain ⟨hclause, htiles⟩ := ih hrest
    obtain ⟨opening, inner, closing, hvalue, hgr, hclosing, hinner⟩ := depthThrough_of_group hg
    obtain ⟨rfl, -⟩ := List.cons.inj (hr.symm.trans hgr)
    have hgroup : g.value = t :: (inner ++ [closing]) := hvalue
    constructor
    · have hwhole := Clause.group hside hinner hclosing hclause
      simpa [hgroup] using hwhole
    · rw [hgr, htiles, hgroup]
      simp [r]
  | case4 => cases h
  | case5 c t ts hr hstop hside r ih =>
    obtain ⟨hclause, htiles⟩ := ih h
    have hne : t.item ≠ .symbol .semicolon := by
      intro ht
      exact hstop (by simp [Token.is, ht])
    refine ⟨.plain hside hne hclause, ?_⟩
    rw [advance_rest hr] at htiles
    rw [hr, htiles]
    rfl

section
variable {c : Cursor} {t : Token} {ts : List Token}

/-- A clause ends at a semicolon. -/
theorem untilSemicolon_of_semicolon (hr : c.rest = t :: ts) (h : t.is .semicolon = true) :
    c.untilSemicolon = ⟨[], [], c⟩ := by
  unfold untilSemicolon
  split
  · rfl
  · next u us hu =>
    obtain ⟨rfl, -⟩ := List.cons.inj (hr.symm.trans hu)
    rw [h]
    rfl

/-- A clause goes on behind a token that is no bracket. -/
theorem untilSemicolon_of_plain (hr : c.rest = t :: ts) (hside : t.side = .plain)
    (h : t.is .semicolon = false) {r : Parsed (List Token)} (hrest : c.advance.untilSemicolon = r) :
    c.untilSemicolon = ⟨t :: r.value, r.faults, r.next⟩ := by
  subst hrest
  have hbrace : t.is .rbrace = false := by
    cases hb : t.is .rbrace with
    | false => rfl
    | true =>
      rw [Token.side, eq_of_beq hb] at hside
      cases hside
  rw [untilSemicolon]
  split
  · next hn => cases hr.symm.trans hn
  · next u us hu =>
    obtain ⟨rfl, -⟩ := List.cons.inj (hr.symm.trans hu)
    simp only [h, hbrace, hside]
    rfl

/-- A clause goes on behind a group. -/
theorem untilSemicolon_of_opening (hr : c.rest = t :: ts) (hside : t.side = .opening)
    {r : Parsed (List Token)} (hrest : c.group.next.untilSemicolon = r) :
    c.untilSemicolon = ⟨c.group.value ++ r.value, c.group.faults ++ r.faults, r.next⟩ := by
  subst hrest
  have hstop : (t.is .semicolon || t.is .rbrace) = false := by
    cases hs : t.is .semicolon || t.is .rbrace with
    | false => rfl
    | true =>
      rcases Bool.or_eq_true_iff.mp hs with hs | hs
      · rw [Token.side, eq_of_beq hs] at hside
        cases hside
      · rw [Token.side, eq_of_beq hs] at hside
        cases hside
  rw [untilSemicolon]
  split
  · next hn => cases hr.symm.trans hn
  · next u us hu =>
    obtain ⟨rfl, -⟩ := List.cons.inj (hr.symm.trans hu)
    simp only [hstop, hside]
    rfl

end

/-- A clause before a semicolon is read to its end. -/
theorem untilSemicolon_of_clause {ls : List Lexeme} (h : Clause ls) {c : Cursor}
    {value rest : List Token} {semicolon : Token} (hv : value.map Located.item = ls)
    (hr : c.rest = value ++ semicolon :: rest) (hs : semicolon.is .semicolon = true) :
    ∃ mid, c.untilSemicolon = ⟨value, [], mid⟩ ∧ mid.rest = semicolon :: rest := by
  induction h generalizing c value with
  | nil =>
    cases List.map_eq_nil_iff.mp hv
    exact ⟨c, untilSemicolon_of_semicolon hr hs, hr⟩
  | @plain l ls hl hne h ih =>
    obtain ⟨t, value, rfl, rfl, rfl⟩ := List.map_eq_cons_iff.mp hv
    obtain ⟨mid, hrest, hmid⟩ := ih rfl (advance_rest hr)
    have hsemicolon : Token.is .semicolon t = false := by simpa [Token.is] using hne
    exact ⟨mid, untilSemicolon_of_plain hr hl hsemicolon hrest, hmid⟩
  | @group opening closing inner ls ho hi hc h ih =>
    obtain ⟨first, others, rfl, rfl, hothers⟩ := List.map_eq_cons_iff.mp hv
    obtain ⟨inside, after, rfl, rfl, hafter⟩ := List.map_eq_append_iff.mp hothers
    obtain ⟨last, value, rfl, rfl, rfl⟩ := List.map_eq_cons_iff.mp hafter
    have hgr : c.rest = first :: (inside ++ last :: (value ++ semicolon :: rest)) := by
      rw [hr]
      simp
    obtain ⟨hvalue, hfaults, hnext⟩ := group_append hgr hi hc
    obtain ⟨mid, hrest, hmid⟩ := ih rfl hnext
    refine ⟨mid, ?_, hmid⟩
    rw [untilSemicolon_of_opening hgr ho hrest, hvalue, hfaults]
    simp

/-- A clause before a semicolon is read to its end, and the semicolon is next. -/
theorem untilSemicolon_of_ahead {c : Cursor} {ls follow : List Lexeme} (h : Clause ls)
    (hc : c.ahead = ls ++ .symbol .semicolon :: follow) :
    ∃ value mid semicolon, c.untilSemicolon = ⟨value, [], mid⟩ ∧ value.map Located.item = ls ∧
      mid.at? .semicolon = true ∧ mid.rest.head? = some semicolon ∧
      semicolon.is .semicolon = true ∧ mid.advance.ahead = follow := by
  obtain ⟨value, after, hr, hvalue, hafter⟩ := List.map_eq_append_iff.mp hc
  obtain ⟨semicolon, rest, rfl, hs, rfl⟩ := List.map_eq_cons_iff.mp hafter
  have his : Token.is .semicolon semicolon = true := by rw [Token.is, hs, beq_self_eq_true]
  obtain ⟨mid, hread, hmid⟩ := untilSemicolon_of_clause h hvalue hr his
  have hahead : mid.ahead = .symbol .semicolon :: rest.map Located.item := by
    rw [ahead, hmid, List.map_cons, hs]
  refine ⟨value, mid, semicolon, hread, hvalue, at_of_ahead hahead, ?_, his, ?_⟩
  · rw [hmid, List.head?_cons]
  · rw [ahead, advance_rest hmid]

end Cursor

end VertexLanes
