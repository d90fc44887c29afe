import VertexLanes.Proofs.LexemeForms
import VertexLanes.Token.Layout

/-!
# Expressions read again

An expression is written with blanks around its binary operators and after its
commas, and tight everywhere else. Its lexemes are read back from that text
exactly when none of them goes on with the first character of the lexeme that is
written tight after it. Two words, two signs and a number after a word stand
tight, so not every expression keeps its lexemes.
-/

namespace VertexLanes

namespace Lexer

/-- The lexemes that pieces hold, if each piece can be read. -/
def lexemes? : List Piece → Option (List Lexeme)
  | [] => some []
  | p :: ps =>
    match p.reading with
    | .blank => lexemes? ps
    | .token l => (lexemes? ps).map (l :: ·)
    | _ => none

section
variable {p : Piece} {ps : List Piece}

private theorem lexemes?_cons_blank (h : p.reading = .blank) :
    lexemes? (p :: ps) = lexemes? ps := by
  rw [lexemes?, h]

/-- A piece read as a lexeme adds it. -/
theorem lexemes?_cons_token {l : Lexeme} (h : p.reading = .token l) :
    lexemes? (p :: ps) = (lexemes? ps).map (l :: ·) := by
  rw [lexemes?, h]

/-- Where the first piece can be read, it is blank or a token. -/
theorem reading_of_lexemes? {ls : List Lexeme} (h : lexemes? (p :: ps) = some ls) :
    p.reading = .blank ∨ ∃ l, p.reading = .token l := by
  unfold lexemes? at h
  split at h
  · exact Or.inl ‹_›
  · exact Or.inr ⟨_, ‹_›⟩
  · cases h

end

/-- The lexemes of pieces are the items of their tokens, and there are some where no piece has a
fault. -/
theorem lexemes?_eq_some_iff (offset : Nat) (ps : List Piece) (ls : List Lexeme) :
    lexemes? ps = some ls ↔ (place offset ps).flatMap faultsOf = [] ∧
      ((place offset ps).filterMap tokenOf).map Located.item = ls := by
  induction ps generalizing offset ls with
  | nil => simp [lexemes?, place]
  | cons p ps ih =>
    rw [place, List.flatMap_cons, List.append_eq_nil_iff]
    constructor
    · intro h
      rcases reading_of_lexemes? h with hr | ⟨l, hr⟩
      · rw [lexemes?_cons_blank hr] at h
        obtain ⟨hfaults, hitems⟩ := (ih _ ls).mp h
        rw [List.filterMap_cons_none (tokenOf_of_blank hr)]
        exact ⟨⟨by simp [faultsOf, hr], hfaults⟩, hitems⟩
      · rw [lexemes?_cons_token hr] at h
        obtain ⟨ms, hms, rfl⟩ := Option.map_eq_some_iff.mp h
        obtain ⟨hfaults, hitems⟩ := (ih _ ms).mp hms
        rw [List.filterMap_cons_some (tokenOf_of_token hr), List.map_cons, hitems]
        exact ⟨⟨by simp [faultsOf, hr], hfaults⟩, rfl⟩
    · rintro ⟨⟨hfault, hfaults⟩, hitems⟩
      rcases reading_of_faultsOf hfault with hr | ⟨l, hr⟩
      · rw [List.filterMap_cons_none (tokenOf_of_blank hr)] at hitems
        rw [lexemes?_cons_blank hr]
        exact (ih _ ls).mpr ⟨hfaults, hitems⟩
      · rw [List.filterMap_cons_some (tokenOf_of_token hr), List.map_cons] at hitems
        rw [lexemes?_cons_token hr, (ih _ _).mpr ⟨hfaults, rfl⟩, ← hitems]
        rfl

end Lexer

open Lexer

/-- A text is lexed to some lexemes without fault if and only if its pieces give them. -/
theorem lex_eq_iff (text : List Char) (ls : List Lexeme) :
    ((lex text).faults = [] ∧ (lex text).tokens.map Located.item = ls) ↔
      lexemes? (pieces true text) = some ls :=
  (lexemes?_eq_some_iff 0 (pieces true text) ls).symm

/-! ## Visible characters -/

/-- The number of characters of a text that do not only separate lexemes. -/
def ink (text : List Char) : Nat := text.countP fun c => !isSpace c

private theorem ink_append (a b : List Char) : ink (a ++ b) = ink a + ink b := List.countP_append

/-- A visible character is counted. -/
theorem ink_cons_pos {c : Char} (h : isSpace c = false) (text : List Char) :
    0 < ink (c :: text) := by
  rw [ink, List.countP_cons_of_pos (by rw [h]; rfl)]
  exact Nat.succ_pos _

/-- The spellings of lexemes, with nothing between them. -/
def spelled (ls : List Lexeme) : List Char := ls.flatMap fun l => l.spelling.toList

private theorem spelled_cons (l : Lexeme) (ls : List Lexeme) :
    spelled (l :: ls) = l.spelling.toList ++ spelled ls := rfl

/-- What is read from a text has no more visible characters than the text. Comments are where it can
have fewer. -/
theorem ink_spelled_le {lineStart : Bool} {text : List Char} {ls : List Lexeme}
    (h : lexemes? (pieces lineStart text) = some ls) (hd : ∀ l ∈ ls, l.isDirective = false) :
    ink (spelled ls) ≤ ink text := by
  fun_induction pieces lineStart text generalizing ls with
  | case1 =>
    cases h
    exact Nat.le_refl _
  | case2 lineStart c cs p =>
    rename_i ih
    have htiles : p.text ++ p.rest = c :: cs := Piece.next_tiles lineStart c cs
    rw [← htiles, ink_append]
    rcases reading_of_lexemes? h with hr | ⟨l, hr⟩
    · rw [lexemes?_cons_blank hr] at h
      have hrest := ih h hd
      omega
    · rw [lexemes?_cons_token hr] at h
      obtain ⟨ms, hms, rfl⟩ := Option.map_eq_some_iff.mp h
      obtain ⟨hl, hdms⟩ := List.forall_mem_cons.mp hd
      have hspells : l.spelling.toList = p.text := (Piece.spells_next hr).toList_eq hl
      have hrest := ih hms hdms
      rw [spelled_cons, ink_append, hspells]
      omega

/-! ## Lexemes written as an expression -/

/-- Lexemes written as an expression after up to two tokens. -/
def exprText (earlier before : Option String) (ls : List Lexeme) : List Char :=
  (exprPieces earlier before (ls.map Lexeme.spelling)).flatMap String.toList

/-- A rendering is the text of the lexemes in an expression. -/
theorem toList_renderExpr (ls : List Lexeme) :
    (renderExpr (ls.map Lexeme.spelling)).toList = exprText none none ls := String.toList_join

/-- A lexeme that is spaced has a blank before it. -/
theorem exprText_cons_spaced {earlier before : Option String} {l : Lexeme}
    (h : spacedAfter earlier before l.spelling = true) (ls : List Lexeme) :
    exprText earlier before (l :: ls) =
      ' ' :: (l.spelling.toList ++ exprText before (some l.spelling) ls) := by
  rw [exprText, List.map_cons, exprPieces, if_pos h, List.flatMap_cons, String.toList_append]
  rfl

/-- A lexeme that is not spaced stands directly behind the one before. -/
theorem exprText_cons_tight {earlier before : Option String} {l : Lexeme}
    (h : spacedAfter earlier before l.spelling = false) (ls : List Lexeme) :
    exprText earlier before (l :: ls) =
      l.spelling.toList ++ exprText before (some l.spelling) ls := by
  rw [exprText, List.map_cons, exprPieces, if_neg (Bool.eq_false_iff.mp h), List.flatMap_cons]
  rfl

/-- A rendering has the visible characters of its lexemes. -/
theorem ink_exprText (earlier before : Option String) (ls : List Lexeme) :
    ink (exprText earlier before ls) = ink (spelled ls) := by
  induction ls generalizing earlier before with
  | nil => rfl
  | cons l ls ih =>
    cases h : spacedAfter earlier before l.spelling with
    | false => rw [exprText_cons_tight h, spelled_cons, ink_append, ink_append, ih]
    | true =>
      have hblank : ∀ text, ink (' ' :: text) = ink text := fun text =>
        List.countP_cons_of_neg (by decide)
      rw [exprText_cons_spaced h, hblank, spelled_cons, ink_append, ink_append, ih]

/-! ## One lexeme and what stands after it -/

/-- Whether a lexeme goes on with the first character of another one. -/
def Lexeme.runsInto (l m : Lexeme) : Bool := m.spelling.toList.head?.any l.goesOn

theorem Lexeme.goesOn_blank {l : Lexeme} (h : l.isDirective = false) : l.goesOn ' ' = false := by
  cases l with
  | symbol s => cases s <;> decide
  | directive line => cases h
  | keyword k => rfl
  | ident name => rfl
  | number text => rfl
  | quoted quote text => rfl

namespace Lexeme.Form

variable {l : Lexeme}

/-- A lexeme begins with a visible character. -/
theorem exists_cons (h : l.Form) (hd : l.isDirective = false) :
    ∃ c cs, l.spelling.toList = c :: cs ∧ isSpace c = false := by
  have hend : ∀ c, ([] : List Char).head? = some c → l.goesOn c = false := fun c hc => nomatch hc
  obtain ⟨c, cs, htext, hnext⟩ := h.next_append hd hend true
  rw [List.append_nil] at htext
  refine ⟨c, cs, htext, ?_⟩
  cases hs : isSpace c with
  | false => rfl
  | true =>
    rw [Piece.next, if_pos hs] at hnext
    cases congrArg Piece.reading hnext

/-- A lexeme that does not go on is read first. -/
theorem lexemes?_append (h : l.Form) (hd : l.isDirective = false) {rest : List Char}
    (hrest : rest.head?.any l.goesOn = false) (lineStart : Bool) :
    ∃ atStart, lexemes? (pieces lineStart (l.spelling.toList ++ rest)) =
      (lexemes? (pieces atStart rest)).map (l :: ·) := by
  have hstop : ∀ c, rest.head? = some c → l.goesOn c = false := by
    intro c hc
    rw [hc] at hrest
    exact hrest
  obtain ⟨c, cs, htext, hnext⟩ := h.next_append hd hstop lineStart
  rw [htext, pieces, hnext]
  exact ⟨_, lexemes?_cons_token rfl⟩

/-- A blank before a lexeme is passed over. -/
theorem lexemes?_blank (h : l.Form) (hd : l.isDirective = false) (rest : List Char)
    (lineStart : Bool) :
    ∃ atStart, lexemes? (pieces lineStart (' ' :: (l.spelling.toList ++ rest))) =
      lexemes? (pieces atStart (l.spelling.toList ++ rest)) := by
  obtain ⟨c, cs, htext, hc⟩ := h.exists_cons hd
  have hpiece : Piece.next lineStart ' ' (c :: (cs ++ rest)) =
      ⟨.blank, [' '], c :: (cs ++ rest)⟩ := by
    rw [Piece.next, if_pos (by decide), Piece.space, List.takeWhile_cons_of_neg (by simp [hc]),
      List.dropWhile_cons_of_neg (by simp [hc])]
  rw [htext, List.cons_append, pieces, hpiece]
  exact ⟨_, lexemes?_cons_blank rfl⟩

/-- A lexeme that goes on is not read first, unless the text shows more than the lexemes that are
read from it. -/
theorem lexemes?_ne (h : l.Form) (hd : l.isDirective = false) {d : Char} (hgo : l.goesOn d = true)
    {rest : List Char} {ls : List Lexeme} (hls : ∀ m ∈ l :: ls, m.isDirective = false)
    (hink : ink (l.spelling.toList ++ d :: rest) ≤ ink (spelled (l :: ls))) (lineStart : Bool) :
    lexemes? (pieces lineStart (l.spelling.toList ++ d :: rest)) ≠ some (l :: ls) := by
  intro hread
  obtain ⟨c, cs, htext, hc⟩ := h.exists_cons hd
  have hcons : l.spelling.toList ++ d :: rest = c :: (cs ++ d :: rest) := by
    rw [htext, List.cons_append]
  have hother := h.reading_ne hd hgo hcons lineStart
  rw [hcons] at hread hink
  rw [pieces] at hread
  rcases reading_of_lexemes? hread with hr | ⟨m, hr⟩
  · -- The lexeme has become a comment. What is left shows less than the whole, so it cannot hold
    -- all the lexemes.
    rw [lexemes?_cons_blank hr] at hread
    have hle := ink_spelled_le hread hls
    have htiles := Piece.next_tiles lineStart c (cs ++ d :: rest)
    obtain ⟨first, more, hfirst⟩ :=
      List.exists_cons_of_ne_nil (Piece.next_text_ne_nil lineStart c (cs ++ d :: rest))
    rw [← htiles, ink_append, hfirst] at hink
    rw [hfirst] at htiles
    obtain ⟨rfl, -⟩ := List.cons.inj htiles
    have hpos := ink_cons_pos hc more
    omega
  · rw [lexemes?_cons_token hr] at hread
    obtain ⟨ms, -, hms⟩ := Option.map_eq_some_iff.mp hread
    obtain ⟨rfl, -⟩ := List.cons.inj hms
    exact hother hr

end Lexeme.Form

/-! ## A whole expression -/

/-- Whether each lexeme that runs into the next one has a blank after it, given the token before
the first one. -/
def KeptApart (earlier : Option String) (l : Lexeme) : List Lexeme → Prop
  | [] => True
  | m :: ms => (l.runsInto m = true → spacedAfter earlier (some l.spelling) m.spelling = true) ∧
      KeptApart (some l.spelling) m ms

/-- Lexemes are read back from an expression exactly when they are kept apart. -/
theorem lexemes?_exprText {l : Lexeme} {ls : List Lexeme}
    (h : ∀ m ∈ l :: ls, m.Form ∧ m.isDirective = false) (earlier : Option String)
    (lineStart : Bool) :
    lexemes? (pieces lineStart (l.spelling.toList ++ exprText earlier (some l.spelling) ls)) =
      some (l :: ls) ↔ KeptApart earlier l ls := by
  induction ls generalizing l earlier lineStart with
  | nil =>
    obtain ⟨hform, hd⟩ := h l List.mem_cons_self
    have hend : (exprText earlier (some l.spelling) []).head?.any l.goesOn = false := rfl
    obtain ⟨atStart, hread⟩ := hform.lexemes?_append hd hend lineStart
    rw [hread]
    simp [exprText, exprPieces, pieces, lexemes?, KeptApart]
  | cons m ms ih =>
    obtain ⟨⟨hl, hdl⟩, hrest⟩ := List.forall_mem_cons.mp h
    obtain ⟨hm, hdm⟩ := hrest m List.mem_cons_self
    obtain ⟨d, ds, hmtext, -⟩ := hm.exists_cons hdm
    have hruns : l.runsInto m = l.goesOn d := by
      rw [Lexeme.runsInto, hmtext]
      rfl
    rw [KeptApart, hruns]
    cases hspaced : spacedAfter earlier (some l.spelling) m.spelling with
    | true =>
      rw [exprText_cons_spaced hspaced]
      obtain ⟨afterLexeme, hread⟩ :=
        @Lexeme.Form.lexemes?_append l hl hdl (' ' :: _) (Lexeme.goesOn_blank hdl) lineStart
      obtain ⟨afterBlank, hblank⟩ := hm.lexemes?_blank hdm
        (exprText (some l.spelling) (some m.spelling) ms) afterLexeme
      rw [hread, hblank, ← ih hrest (some l.spelling) afterBlank]
      simp
    | false =>
      rw [exprText_cons_tight hspaced]
      by_cases hgo : l.goesOn d = true
      · have hink := ink_exprText earlier (some l.spelling) (m :: ms)
        rw [exprText_cons_tight hspaced, hmtext, List.cons_append] at hink
        rw [hmtext, List.cons_append]
        have hne := hl.lexemes?_ne hdl hgo (fun k hk => (h k hk).2)
          (by rw [spelled_cons, ink_append, ink_append, hink]) lineStart
        simp [hne, hgo]
      · obtain ⟨afterLexeme, hread⟩ := @Lexeme.Form.lexemes?_append l hl hdl
          (m.spelling.toList ++ exprText (some l.spelling) (some m.spelling) ms)
          (by rw [hmtext]; exact Bool.eq_false_iff.mpr hgo) lineStart
        rw [hread, ← ih hrest (some l.spelling) afterLexeme]
        simp [hgo]

/-- Lexemes are kept apart if a blank stands wherever one would run into the next. -/
theorem keptApart_iff {earlier : Option String} {l : Lexeme} {ls : List Lexeme} :
    KeptApart earlier l ls ↔ ∀ before a b after, l :: ls = before ++ a :: b :: after →
      a.runsInto b = true →
        spacedAfter ((before.getLast?.map Lexeme.spelling).or earlier) (some a.spelling)
          b.spelling = true := by
  induction ls generalizing earlier l with
  | nil =>
    refine ⟨fun _ before a b after heq => ?_, fun _ => trivial⟩
    have hlength := congrArg List.length heq
    simp only [List.length_append, List.length_cons, List.length_nil] at hlength
    omega
  | cons m ms ih =>
    have hlast : ∀ before : List Lexeme,
        (((l :: before).getLast?.map Lexeme.spelling).or earlier) =
          (before.getLast?.map Lexeme.spelling).or (some l.spelling) := by
      intro before
      rw [List.getLast?_cons]
      cases before.getLast? <;> rfl
    rw [KeptApart, ih]
    constructor
    · rintro ⟨hfirst, hothers⟩ before a b after heq hruns
      cases before with
      | nil =>
        cases heq
        exact hfirst hruns
      | cons k before =>
        obtain ⟨rfl, htail⟩ := List.cons.inj heq
        rw [hlast]
        exact hothers before a b after htail hruns
    · intro h
      refine ⟨h [] l m ms rfl, fun before a b after heq hruns => ?_⟩
      rw [← hlast]
      exact h (l :: before) a b after (congrArg (l :: ·) heq) hruns

/-- The tokens of a source are read back from the expression they are written as, without fault and
in order, exactly when it has a blank after each token that runs into the next one. -/
theorem lex_renderExpr_iff {source : List Char} {ts : List Token}
    (hts : ∀ t ∈ ts, t ∈ (lex source).tokens) (hd : ∀ t ∈ ts, t.item.isDirective = false) :
    ((lex (renderExpr (ts.map Token.spelling)).toList).faults = [] ∧
      (lex (renderExpr (ts.map Token.spelling)).toList).tokens.map Located.item =
        ts.map Located.item) ↔
      ∀ before a b after, ts.map Located.item = before ++ a :: b :: after → a.runsInto b = true →
        spacedAfter (before.getLast?.map Lexeme.spelling) (some a.spelling) b.spelling = true := by
  have hspellings : ts.map Token.spelling = (ts.map Located.item).map Lexeme.spelling := by
    rw [List.map_map]
    rfl
  have hforms : ∀ l ∈ ts.map Located.item, l.Form ∧ l.isDirective = false := by
    intro l hl
    obtain ⟨t, ht, rfl⟩ := List.mem_map.mp hl
    exact ⟨Lexeme.form_of_mem_lex (hts t ht), hd t ht⟩
  rw [hspellings, toList_renderExpr]
  cases hls : ts.map Located.item with
  | nil => simp [lex, exprText, exprPieces, pieces, place]
  | cons l ls =>
    rw [hls] at hforms
    have htight : spacedAfter none none l.spelling = false := rfl
    rw [lex_eq_iff, exprText_cons_tight htight, lexemes?_exprText hforms, keptApart_iff]
    simp only [Option.or_none]

/-- An expression with tight and with spaced tokens. -/
def mixedExpression : List Char :=
  "x[i]->w += -1.5e+3 * (f(a,'b') - !p.q) / *r && s != sizeof(T)".toList

/-- The mixed expression is kept apart in its rendering. -/
theorem lex_renderExpr_iff_mixed :
    (∀ t ∈ (lex mixedExpression).tokens, t.item.isDirective = false) ∧
      renderExpr ((lex mixedExpression).tokens.map Token.spelling) =
        "x[i]->w += -1.5e+3 * (f(a, 'b') - !p.q) / *r && s != sizeof(T)" ∧
      ∀ before a b after,
        (lex mixedExpression).tokens.map Located.item = before ++ a :: b :: after →
          a.runsInto b = true →
            spacedAfter (before.getLast?.map Lexeme.spelling) (some a.spelling) b.spelling = true :=
  ⟨by decide +kernel, by decide +kernel,
    (lex_renderExpr_iff (fun _ ht => ht) (by decide +kernel)).mp (by decide +kernel)⟩

/-- Two words, and two signs before one operand, are written tight and read as one lexeme. -/
theorem lex_renderExpr_fuses :
    (lex "new T".toList).faults = [] ∧
      renderExpr ((lex "new T".toList).tokens.map Token.spelling) = "newT" ∧
      (lex "newT".toList).tokens.map Located.item = [.ident "newT"] ∧
      (lex "new T".toList).tokens.map Located.item = [.ident "new", .ident "T"] ∧
    (lex "- -b".toList).faults = [] ∧
      renderExpr ((lex "- -b".toList).tokens.map Token.spelling) = "--b" ∧
      (lex "--b".toList).tokens.map Located.item = [.symbol .minusMinus, .ident "b"] ∧
      (lex "- -b".toList).tokens.map Located.item =
        [.symbol .minus, .symbol .minus, .ident "b"] := by
  decide +kernel

end VertexLanes
