import VertexLanes.Proofs.LexemeDepth
import VertexLanes.Proofs.NestingBound

/-!
# Brackets and their kinds

Brackets are matched if each one is closed by a bracket of its own kind. The
reader of a block looks for the closing brace of every block, and so the braces
of blocks match. Inside a group it only counts, and a parenthesis may be closed
by any bracket. An accepted block is therefore cut here into its blocks and its
groups: its brackets always balance, and they match exactly if they do so inside
every group.
-/

namespace VertexLanes

open Cursor (Clause depthAfter depthThrough depthThrough_append depthThrough_add)

/-- The bracket that closes one of the same kind; only an opening bracket has one. -/
def Lexeme.closer? : Lexeme → Option Lexeme
  | .symbol .lparen => some (.symbol .rparen)
  | .symbol .lbracket => some (.symbol .rbracket)
  | .symbol .lbrace => some (.symbol .rbrace)
  | _ => none

/-- Lexemes whose brackets are nested and closed by their own kind. -/
inductive Matched : List Lexeme → Prop
  | nil : Matched []
  | plain {l : Lexeme} {ls : List Lexeme} (hl : l.side = .plain) (h : Matched ls) :
      Matched (l :: ls)
  | pair {opening closing : Lexeme} {inner ls : List Lexeme}
      (hp : opening.closer? = some closing) (hi : Matched inner) (h : Matched ls) :
      Matched (opening :: (inner ++ closing :: ls))

/-- Whether the closing brackets of some lexemes are those that are awaited, the first of them
first, and those that the lexemes themselves make awaited. -/
def closesAll : List Lexeme → List Lexeme → Bool
  | awaited, [] => awaited.isEmpty
  | awaited, l :: ls =>
    match l.side with
    | .plain => closesAll awaited ls
    | .opening => closesAll (l.closer?.toList ++ awaited) ls
    | .closing => awaited.head? == some l && closesAll awaited.tail ls

namespace Lexeme

/-- A lexeme with a closer opens, and its closer closes. -/
theorem side_of_closer? {l r : Lexeme} (h : l.closer? = some r) :
    l.side = .opening ∧ r.side = .closing := by
  cases l with
  | symbol s =>
    cases s with
    | lparen | lbracket | lbrace =>
      cases h
      exact ⟨rfl, rfl⟩
    | _ => cases h
  | _ => cases h

private theorem exists_closer? {l : Lexeme} (h : l.side = .opening) : ∃ r, l.closer? = some r := by
  cases l with
  | symbol s =>
    cases s with
    | lparen | lbracket | lbrace => exact ⟨_, rfl⟩
    | _ => cases h
  | _ => cases h

end Lexeme

/-! ## Matching by a stack -/

section
variable {awaited ls : List Lexeme} {l r : Lexeme}

/-- A lexeme that is no bracket changes nothing about the closers that are awaited. -/
theorem closesAll_plain (h : l.side = .plain) :
    closesAll awaited (l :: ls) = closesAll awaited ls := by
  rw [closesAll, h]

/-- An opening bracket makes its closer the next that is awaited. -/
theorem closesAll_opening (h : l.closer? = some r) :
    closesAll awaited (l :: ls) = closesAll (r :: awaited) ls := by
  rw [closesAll, (Lexeme.side_of_closer? h).1, h]
  rfl

/-- A closing bracket has to be the one that is awaited. -/
theorem closesAll_closing (h : l.side = .closing) :
    closesAll (r :: awaited) (l :: ls) = (r == l && closesAll awaited ls) := by
  rw [closesAll, h]
  rfl

end

/-- Lexemes that balance, with some brackets open before them, close these and leave the ones
further out to what follows. -/
theorem closesAll_append {inner outer ls ms : List Lexeme}
    (h : depthThrough inner.length ls = some 0) :
    closesAll (inner ++ outer) (ls ++ ms) = (closesAll inner ls && closesAll outer ms) := by
  induction ls generalizing inner with
  | nil =>
    cases inner with
    | nil => rfl
    | cons => cases h
  | cons l ls ih =>
    obtain ⟨d, hd, hrest⟩ := Option.bind_eq_some_iff.mp h
    cases hside : l.side with
    | plain =>
      rw [hside] at hd
      cases hd
      rw [List.cons_append, closesAll_plain hside, closesAll_plain hside, ih hrest]
    | opening =>
      rw [hside] at hd
      cases hd
      obtain ⟨r, hr⟩ := Lexeme.exists_closer? hside
      rw [List.cons_append, closesAll_opening hr, closesAll_opening hr, ← List.cons_append]
      exact ih hrest
    | closing =>
      rw [hside] at hd
      cases inner with
      | nil => cases hd
      | cons r inner =>
        cases hd
        rw [List.cons_append, List.cons_append, closesAll_closing hside, closesAll_closing hside,
          ih hrest, Bool.and_assoc]

/-- A balanced group leaves the depth as it is. -/
theorem depthThrough_group {opening closing : Lexeme} {inner ls : List Lexeme} {depth : Nat}
    (ho : opening.side = .opening) (hi : depthThrough 0 inner = some 0)
    (hc : closing.side = .closing) :
    depthThrough depth (opening :: (inner ++ closing :: ls)) = depthThrough depth ls := by
  have hinner := depthThrough_add (depth + 1) hi
  rw [Nat.zero_add] at hinner
  rw [depthThrough, ho]
  change depthThrough (depth + 1) (inner ++ closing :: ls) = _
  rw [depthThrough_append, hinner]
  change depthThrough (depth + 1) (closing :: ls) = _
  rw [depthThrough, hc]
  rfl

/-- Matched brackets are balanced. -/
theorem Matched.depthThrough {ls : List Lexeme} (h : Matched ls) : depthThrough 0 ls = some 0 := by
  induction h with
  | nil => rfl
  | plain hl _ ih =>
    rw [Cursor.depthThrough, hl]
    exact ih
  | pair hp _ _ ihInner ih =>
    obtain ⟨ho, hc⟩ := Lexeme.side_of_closer? hp
    rw [depthThrough_group ho ihInner hc, ih]

theorem Matched.closesAll {ls : List Lexeme} (h : Matched ls) : closesAll [] ls = true := by
  induction h with
  | nil => rfl
  | plain hl _ ih => rwa [closesAll_plain hl]
  | @pair opening closing inner ls hp hi _ ihInner ih =>
    have hframe := @closesAll_append [] [closing] inner (closing :: ls) hi.depthThrough
    rw [closesAll_opening hp]
    rw [List.nil_append] at hframe
    rw [hframe, ihInner, closesAll_closing (Lexeme.side_of_closer? hp).2, ih, beq_self_eq_true]
    rfl

/-- Lexemes in which every awaited bracket comes in its turn, with matched brackets before, between
and behind. -/
def Fills : List Lexeme → List Lexeme → Prop
  | [], ls => Matched ls
  | r :: awaited, ls => ∃ inner rest, ls = inner ++ r :: rest ∧ Matched inner ∧ Fills awaited rest

/-- A lexeme that is no bracket may come before lexemes that fill what is awaited. -/
theorem Fills.plain {awaited ls : List Lexeme} {l : Lexeme} (hl : l.side = .plain)
    (h : Fills awaited ls) : Fills awaited (l :: ls) := by
  cases awaited with
  | nil => exact Matched.plain hl h
  | cons r awaited =>
    obtain ⟨inner, rest, rfl, hinner, hrest⟩ := h
    exact ⟨l :: inner, rest, rfl, .plain hl hinner, hrest⟩

/-- An opening bracket may come before lexemes that fill its closer too. -/
theorem Fills.pair {awaited ls : List Lexeme} {opening closing : Lexeme}
    (hp : opening.closer? = some closing) (h : Fills (closing :: awaited) ls) :
    Fills awaited (opening :: ls) := by
  obtain ⟨first, others, rfl, hfirst, hothers⟩ := h
  cases awaited with
  | nil => exact Matched.pair hp hfirst hothers
  | cons r awaited =>
    obtain ⟨inner, rest, rfl, hinner, hrest⟩ := hothers
    refine ⟨opening :: (first ++ closing :: inner), rest, ?_, .pair hp hfirst hinner, hrest⟩
    simp

/-- Lexemes that pass the check on a stack of closers fill these closers. -/
theorem fills_of_closesAll {awaited ls : List Lexeme} (h : closesAll awaited ls = true) :
    Fills awaited ls := by
  induction ls generalizing awaited with
  | nil =>
    rw [List.isEmpty_iff.mp h]
    exact Matched.nil
  | cons l ls ih =>
    cases hside : l.side with
    | plain =>
      rw [closesAll_plain hside] at h
      exact (ih h).plain hside
    | opening =>
      obtain ⟨closing, hp⟩ := Lexeme.exists_closer? hside
      rw [closesAll_opening hp] at h
      exact (ih h).pair hp
    | closing =>
      cases awaited with
      | nil =>
        rw [closesAll, hside] at h
        cases h
      | cons r awaited =>
        rw [closesAll_closing hside, Bool.and_eq_true_iff, beq_iff_eq] at h
        obtain ⟨rfl, hrest⟩ := h
        exact ⟨[], ls, rfl, .nil, ih hrest⟩

/-- Brackets are matched if and only if they pass the check on a stack of closers. -/
theorem matched_iff {ls : List Lexeme} : Matched ls ↔ closesAll [] ls = true :=
  ⟨Matched.closesAll, fills_of_closesAll⟩

instance (ls : List Lexeme) : Decidable (Matched ls) := decidable_of_iff _ matched_iff.symm

/-! ## Parts that balance -/

/-- Of two runs, with the first balanced, both are matched or the whole is not. -/
theorem matched_append {ls ms : List Lexeme} (h : depthThrough 0 ls = some 0) :
    Matched (ls ++ ms) ↔ Matched ls ∧ Matched ms := by
  have hframe := @closesAll_append [] [] ls ms h
  rw [List.nil_append] at hframe
  rw [matched_iff, matched_iff, matched_iff, hframe, Bool.and_eq_true_iff]

/-- A lexeme that is no bracket does not change whether the others are matched. -/
theorem matched_cons_plain {l : Lexeme} {ls : List Lexeme} (h : l.side = .plain) :
    Matched (l :: ls) ↔ Matched ls := by
  rw [matched_iff, matched_iff, closesAll_plain h]

/-- A bracket and the one that ends its group match with what is inside if they are of one kind. -/
theorem matched_pair {opening closing : Lexeme} {inner ls : List Lexeme}
    (hp : opening.closer? = some closing) (hi : depthThrough 0 inner = some 0) :
    Matched (opening :: (inner ++ closing :: ls)) ↔ Matched inner ∧ Matched ls := by
  have hframe := @closesAll_append [] [closing] inner (closing :: ls) hi
  rw [List.nil_append] at hframe
  rw [matched_iff, matched_iff, matched_iff, closesAll_opening hp, hframe,
    closesAll_closing (Lexeme.side_of_closer? hp).2, beq_self_eq_true, Bool.true_and,
    Bool.and_eq_true_iff]

/-- A balanced group and what follows it are matched each on its own. -/
theorem matched_group {opening closing : Lexeme} {inner ls : List Lexeme}
    (ho : opening.side = .opening) (hi : depthThrough 0 inner = some 0)
    (hc : closing.side = .closing) :
    Matched (opening :: (inner ++ closing :: ls)) ↔
      Matched (opening :: (inner ++ [closing])) ∧ Matched ls := by
  have hbalanced : depthThrough 0 (opening :: (inner ++ [closing])) = some 0 :=
    depthThrough_group ho hi hc
  rw [← matched_append hbalanced]
  simp

/-! ## The groups of a block -/

/-- Lexemes up to a semicolon, and the bracketed groups among them. -/
inductive Grouped : List Lexeme → List (List Lexeme) → Prop
  | nil : Grouped [] []
  | plain {l : Lexeme} {ls : List Lexeme} {groups : List (List Lexeme)} (hl : l.side = .plain)
      (hs : l ≠ .symbol .semicolon) (h : Grouped ls groups) : Grouped (l :: ls) groups
  | group {opening closing : Lexeme} {inner ls : List Lexeme} {groups : List (List Lexeme)}
      (ho : opening.side = .opening) (hi : depthThrough 0 inner = some 0)
      (hc : closing.side = .closing) (h : Grouped ls groups) :
      Grouped (opening :: (inner ++ closing :: ls)) ((opening :: (inner ++ [closing])) :: groups)

open VertexLanes.Parser (Opening)

/-- Lexemes of statements, and the bracketed groups among them. The first lexeme of a statement
tells what comes next; a brace there belongs to a block, and its partner is a brace. -/
inductive LaidOut : List Lexeme → List (List Lexeme) → Prop
  | nil : LaidOut [] []
  | block {body ls : List Lexeme} {inside groups : List (List Lexeme)}
      (hb : LaidOut body inside) (h : LaidOut ls groups) :
      LaidOut (.symbol .lbrace :: (body ++ .symbol .rbrace :: ls)) (inside ++ groups)
  /-- An `else`, a `do` or a lone semicolon. -/
  | bare {l : Lexeme} {ls : List Lexeme} {groups : List (List Lexeme)}
      (ho : Opening.ofLexeme l ∈ [.orphanElse, .doLoop, .empty]) (h : LaidOut ls groups) :
      LaidOut (l :: ls) groups
  /-- A conditional or a loop with the parentheses after its keyword. -/
  | headed {l closing : Lexeme} {inner ls : List Lexeme} {groups : List (List Lexeme)}
      (ho : Opening.ofLexeme l ∈ [.conditional, .loop]) (hi : depthThrough 0 inner = some 0)
      (hc : closing.side = .closing) (h : LaidOut ls groups) :
      LaidOut (l :: .symbol .lparen :: (inner ++ closing :: ls))
        ((.symbol .lparen :: (inner ++ [closing])) :: groups)
  /-- A loop without them. -/
  | unheaded {l m : Lexeme} {ls : List Lexeme} {groups : List (List Lexeme)}
      (ho : Opening.ofLexeme l = .loop) (hm : m ≠ .symbol .lparen) (h : LaidOut (m :: ls) groups) :
      LaidOut (l :: m :: ls) groups
  | clause {l : Lexeme} {clause ls : List Lexeme} {inside groups : List (List Lexeme)}
      (ho : Opening.ofLexeme l ∈ [.returning, .simple]) (hg : Grouped (l :: clause) inside)
      (h : LaidOut ls groups) :
      LaidOut (l :: (clause ++ .symbol .semicolon :: ls)) (inside ++ groups)

/-- Only a block, a return or a clause may begin with a bracket. -/
theorem side_of_ofLexeme {l : Lexeme}
    (h : Opening.ofLexeme l ∈ [.orphanElse, .doLoop, .empty, .conditional, .loop]) :
    l.side = .plain := by
  cases l with
  | symbol s =>
    revert h
    cases s <;> decide
  | _ => rfl

/-- A keyword or a semicolon that stands alone is no bracket. -/
theorem side_of_bare {l : Lexeme} (h : Opening.ofLexeme l ∈ [.orphanElse, .doLoop, .empty]) :
    l.side = .plain :=
  side_of_ofLexeme (List.mem_append_left ([.conditional, .loop] : List Opening) h)

/-- A keyword before a head is no bracket. -/
theorem side_of_headed {l : Lexeme} (h : Opening.ofLexeme l ∈ [.conditional, .loop]) :
    l.side = .plain :=
  side_of_ofLexeme (List.mem_append_right ([.orphanElse, .doLoop, .empty] : List Opening) h)

/-- A keyword of a loop is no bracket. -/
theorem side_of_unheaded {l : Lexeme} (h : Opening.ofLexeme l = .loop) : l.side = .plain :=
  side_of_headed (h ▸ List.mem_cons_of_mem _ List.mem_cons_self)

/-- Every clause is a sequence of groups. -/
theorem exists_grouped {ls : List Lexeme} (h : Clause ls) : ∃ groups, Grouped ls groups := by
  induction h with
  | nil => exact ⟨[], .nil⟩
  | plain hl hs _ ih =>
    obtain ⟨groups, hgroups⟩ := ih
    exact ⟨groups, .plain hl hs hgroups⟩
  | group ho hi hc _ ih =>
    obtain ⟨groups, hgroups⟩ := ih
    exact ⟨_, .group ho hi hc hgroups⟩

/-- A sequence of groups is balanced. -/
theorem Grouped.depthThrough {ls : List Lexeme} {groups : List (List Lexeme)}
    (h : Grouped ls groups) : depthThrough 0 ls = some 0 := by
  induction h with
  | nil => rfl
  | plain hl _ _ ih =>
    rw [Cursor.depthThrough, hl]
    exact ih
  | group ho hi hc _ ih => rw [depthThrough_group ho hi hc, ih]

/-- A sequence of groups is matched if and only if each of them is. -/
theorem Grouped.matched_iff {ls : List Lexeme} {groups : List (List Lexeme)}
    (h : Grouped ls groups) : Matched ls ↔ ∀ g ∈ groups, Matched g := by
  induction h with
  | nil => exact ⟨fun _ _ hg => absurd hg List.not_mem_nil, fun _ => .nil⟩
  | plain hl _ _ ih => rw [matched_cons_plain hl, ih]
  | group ho hi hc _ ih => rw [matched_group ho hi hc, ih, List.forall_mem_cons]

namespace LaidOut

section
variable {ls ms : List Lexeme} {groups others : List (List Lexeme)}

/-- Two laid out runs are laid out together. -/
protected theorem append (h : LaidOut ls groups) (h' : LaidOut ms others) :
    LaidOut (ls ++ ms) (groups ++ others) := by
  induction h with
  | nil => exact h'
  | block hb _ _ ih => simpa using LaidOut.block hb ih
  | bare ho _ ih => exact .bare ho ih
  | headed ho hi hc _ ih => simpa using LaidOut.headed ho hi hc ih
  | unheaded ho hm _ ih => exact .unheaded ho hm ih
  | clause ho hg _ ih => simpa using LaidOut.clause ho hg ih

/-- The brackets of statements balance. -/
theorem depthThrough (h : LaidOut ls groups) : depthThrough 0 ls = some 0 := by
  induction h with
  | nil => rfl
  | block _ _ ihBody ih => rw [depthThrough_group rfl ihBody rfl, ih]
  | bare ho _ ih =>
    rw [Cursor.depthThrough, side_of_bare ho]
    exact ih
  | headed ho hi hc _ ih =>
    rw [Cursor.depthThrough, side_of_headed ho]
    change Cursor.depthThrough 0 _ = some 0
    rw [depthThrough_group rfl hi hc, ih]
  | unheaded ho _ _ ih =>
    rw [Cursor.depthThrough, side_of_unheaded ho]
    exact ih
  | clause _ hg _ ih =>
    rw [← List.cons_append, depthThrough_append, hg.depthThrough]
    exact ih

/-- The brackets of statements match if they match in every group: those of blocks always do. -/
theorem matched_iff (h : LaidOut ls groups) : Matched ls ↔ ∀ g ∈ groups, Matched g := by
  induction h with
  | nil => exact ⟨fun _ _ hg => absurd hg List.not_mem_nil, fun _ => .nil⟩
  | block hb _ ihBody ih =>
    rw [matched_pair rfl hb.depthThrough, ihBody, ih, List.forall_mem_append]
  | bare ho _ ih => rw [matched_cons_plain (side_of_bare ho), ih]
  | headed ho hi hc _ ih =>
    rw [matched_cons_plain (side_of_headed ho), matched_group rfl hi hc, ih, List.forall_mem_cons]
  | unheaded ho _ _ ih => rw [matched_cons_plain (side_of_unheaded ho), ih]
  | clause _ hg _ ih =>
    rw [← List.cons_append, matched_append hg.depthThrough, hg.matched_iff,
      matched_cons_plain rfl, ih, List.forall_mem_append]

end

end LaidOut

/-! ## Reading -/

namespace Cursor

section
variable {c : Cursor}

/-- A parenthesised group that is read without fault. -/
theorem ahead_of_group (hp : c.at? .lparen = true) (h : c.group.faults = []) :
    ∃ inner closing, c.ahead = .symbol .lparen :: (inner ++ closing :: c.group.next.ahead) ∧
      depthThrough 0 inner = some 0 ∧ closing.side = .closing := by
  obtain ⟨opening, inner, closing, -, hr, hc, hi⟩ := depthThrough_of_group h
  refine ⟨inner.map Located.item, closing.item, ?_, hi, hc⟩
  have hfirst := ahead_of_at hp
  rw [ahead_of_rest hr, List.cons.injEq] at hfirst
  rw [ahead_of_rest hr, hfirst.1, ahead, advance_rest hr]
  simp [ahead]

/-- A clause that is read without fault up to a semicolon. -/
theorem ahead_of_untilSemicolon {value : List Token} {mid : Cursor}
    (h : c.untilSemicolon = ⟨value, [], mid⟩) (hs : mid.at? .semicolon = true) :
    Clause (value.map Located.item) ∧
      c.ahead = value.map Located.item ++ .symbol .semicolon :: mid.advance.ahead := by
  obtain ⟨hclause, hr⟩ := clause_of_untilSemicolon (c := c) (by rw [h])
  rw [h] at hclause hr
  refine ⟨hclause, ?_⟩
  rw [ahead, hr, List.map_append, ← ahead_of_at hs]
  rfl

end

end Cursor

namespace Parser

open VertexLanes.Cursor

/-- The lexeme before the part of a form that is still to be read. -/
def Form.lead : Form → List Lexeme
  | .block _ => [.symbol .lbrace]
  | .conditional _ => [.keyword .ifKw]
  | _ => []

/-- Only the keyword opens a conditional. -/
theorem ifKw_of_ofLexeme {l : Lexeme} (h : Opening.ofLexeme l = .conditional) :
    l = .keyword .ifKw := by
  cases l with
  | keyword k =>
    cases k with
    | ifKw => rfl
    | _ => cases h
  | symbol s => cases s <;> cases h
  | _ => cases h

section
variable {c mid next : Cursor}

/-- A test that is read stands in a balanced group. -/
theorem ahead_of_condition {test : Node Token} (h : condition c = ⟨some test, [], mid⟩) :
    ∃ inner closing, c.ahead = .symbol .lparen :: (inner ++ closing :: mid.ahead) ∧
      depthThrough 0 inner = some 0 ∧ closing.side = .closing := by
  obtain ⟨hp, hfaults, -, he⟩ := condition_eq_of_faults (c := c) (by rw [h])
  cases h.symm.trans he
  exact ahead_of_group hp hfaults

/-- A loop with or without a group of its own, before what is laid out. -/
theorem exists_laidOut_loopHead {l : Lexeme} {ls : List Lexeme} {groups : List (List Lexeme)}
    (ho : Opening.ofLexeme l = .loop) (hhead : (groupIfNext c).faults = [])
    (hls : LaidOut ls groups) (hne : ls ≠ [])
    (hahead : (groupIfNext c).next.ahead = ls ++ next.ahead) :
    ∃ ls' groups', LaidOut (l :: ls') groups' ∧ c.ahead = ls' ++ next.ahead := by
  unfold groupIfNext at hhead hahead
  by_cases hp : c.at? .lparen = true
  · rw [if_pos hp] at hhead hahead
    obtain ⟨inner, closing, hgroup, hi, hc⟩ := ahead_of_group hp hhead
    refine ⟨_, _, .headed (by rw [ho]; decide) hi hc hls, ?_⟩
    rw [hgroup, hahead]
    simp
  · rw [if_neg hp] at hahead
    obtain ⟨m, ms, rfl⟩ := List.exists_cons_of_ne_nil hne
    refine ⟨_, _, .unheaded ho ?_ hls, hahead⟩
    rintro rfl
    exact hp (at_of_ahead hahead)

/-- The end of a loop is laid out. -/
theorem exists_laidOut_loopEnd (h : loopEnd c = ⟨(), [], next⟩) :
    ∃ ls groups, LaidOut ls groups ∧ c.ahead = ls ++ next.ahead := by
  unfold loopEnd at h
  obtain ⟨-, hfaults, hnext⟩ := Parsed.mk.inj h
  obtain ⟨hgroup, hexpect⟩ := List.append_eq_nil_iff.mp hfaults
  have hs := at_of_expect hexpect
  rw [expect_of_at hs] at hnext
  subst hnext
  have hend : LaidOut [.symbol .semicolon] [] := .bare (by decide) .nil
  by_cases hw : c.atKeyword? .whileKw = true
  · rw [if_pos hw] at hgroup hs ⊢
    obtain ⟨ls, groups, hls, hahead⟩ := @exists_laidOut_loopHead _ _ (.keyword .whileKw) _ _ rfl
      hgroup hend (List.cons_ne_nil _ _) (ahead_of_at hs)
    exact ⟨_, groups, hls, by rw [ahead_of_atKeyword hw, hahead, List.cons_append]⟩
  · rw [if_neg hw] at hs ⊢
    exact ⟨_, _, hend, ahead_of_at hs⟩

/-- Every form but a list of statements takes tokens. -/
theorem Reads.ne_nil {form : Form} {depth : Nat} {ns : List (Node Token)}
    (h : Reads form depth c ns next) (hform : form ≠ .statements) {ls : List Lexeme}
    (hls : c.ahead = ls ++ next.ahead) : ls ≠ [] := by
  obtain ⟨passed, hpassed, hne⟩ := h.exists_passes
  rintro rfl
  have hlength := congrArg List.length hls
  rw [ahead, hpassed.rest_eq, List.map_append, List.length_append, List.length_map] at hlength
  exact hne hform (List.length_eq_zero_iff.mp (Nat.add_eq_right.mp hlength))

/-- What is read without fault consists of blocks, groups and single lexemes. -/
theorem Reads.exists_laidOut {form : Form} {depth : Nat} {ns : List (Node Token)}
    (h : Reads form depth c ns next) :
    ∃ ls groups, LaidOut (form.lead ++ ls) groups ∧ c.ahead = ls ++ next.ahead := by
  induction h with
  | done => exact ⟨[], [], .nil, rfl⟩
  | more _ _ _ ihFirst ihOthers =>
    obtain ⟨first, groups, hfirst, hahead⟩ := ihFirst
    obtain ⟨others, groups', hothers, hahead'⟩ := ihOthers
    refine ⟨first ++ others, _, hfirst.append hothers, ?_⟩
    rw [hahead, hahead', List.append_assoc]
  | block _ _ hclose ih =>
    obtain ⟨body, groups, hbody, hahead⟩ := ih
    refine ⟨body ++ [.symbol .rbrace], _, .block hbody .nil, ?_⟩
    rw [hahead, ahead_of_at hclose]
    simp
  | nested hr ho _ ih =>
    obtain ⟨ls, groups, hls, hahead⟩ := ih
    refine ⟨_, groups, hls, ?_⟩
    rw [ahead_of_rest hr, eq_of_beq (is_lbrace_of_ofLexeme ho), hahead]
    rfl
  | empty hr ho => exact ⟨_, _, .bare (by rw [ho]; decide) .nil, ahead_of_rest hr⟩
  | chosen hr ho _ ih =>
    obtain ⟨ls, groups, hls, hahead⟩ := ih
    refine ⟨_, groups, hls, ?_⟩
    rw [ahead_of_rest hr, ifKw_of_ofLexeme ho, hahead]
    rfl
  | @returned _ c t _ value _ hr ho clause hs =>
    obtain ⟨hclause, hahead⟩ := ahead_of_untilSemicolon clause hs
    have hword := returnKw_of_ofLexeme ho
    obtain ⟨groups, hgroups⟩ := exists_grouped
      (hclause.plain (l := t.item) (by rw [hword]; rfl) (by rw [hword]; decide))
    refine ⟨_, _, .clause (by rw [ho]; decide) hgroups .nil, ?_⟩
    rw [ahead_of_rest hr, hahead]
    simp
  | loop hr ho hhead body ih =>
    obtain ⟨ls, groups, hls, hahead⟩ := ih
    obtain ⟨ls', groups', hls', hahead'⟩ := exists_laidOut_loopHead ho (by rw [hhead]) hls
      (body.ne_nil (by simp) hahead) (by rw [hhead]; exact hahead)
    exact ⟨_, groups', hls', by rw [ahead_of_rest hr, hahead', List.cons_append]⟩
  | doLoop hr ho _ hend ih =>
    obtain ⟨body, groups, hbody, hahead⟩ := ih
    obtain ⟨test, groups', htest, hahead'⟩ := exists_laidOut_loopEnd hend
    refine ⟨_, _, .bare (by rw [ho]; decide) (hbody.append htest), ?_⟩
    rw [ahead_of_rest hr, hahead, hahead']
    simp [Form.lead]
  | @simple _ c t _ value _ hr ho clause hs =>
    obtain ⟨hclause, hahead⟩ := ahead_of_untilSemicolon clause hs
    rw [ahead_of_rest hr] at hahead
    cases value with
    | nil =>
      obtain ⟨hfirst, -⟩ := List.cons.inj hahead
      rw [hfirst] at ho
      cases ho
    | cons first value =>
      obtain ⟨hfirst, -⟩ := List.cons.inj hahead
      obtain ⟨groups, hgroups⟩ := exists_grouped hclause
      refine ⟨_, _, .clause (by rw [← hfirst, ho]; decide) hgroups .nil, ?_⟩
      rw [ahead_of_rest hr, hahead]
      simp
  | ifThen hc _ _ ih =>
    obtain ⟨inner, closing, hcond, hi, hclosing⟩ := ahead_of_condition hc
    obtain ⟨first, groups, hfirst, hahead⟩ := ih
    refine ⟨_, _, .headed (by decide) hi hclosing hfirst, ?_⟩
    rw [hcond, hahead]
    simp [Form.lead]
  | ifElse hc _ he _ ihFirst ihSecond =>
    obtain ⟨inner, closing, hcond, hi, hclosing⟩ := ahead_of_condition hc
    obtain ⟨first, groups, hfirst, hahead⟩ := ihFirst
    obtain ⟨second, groups', hsecond, hahead'⟩ := ihSecond
    have helse : LaidOut (.keyword .elseKw :: second) groups' := .bare (by decide) hsecond
    refine ⟨_, _, .headed (by decide) hi hclosing (hfirst.append helse), ?_⟩
    rw [hcond, hahead, ahead_of_atKeyword he, hahead']
    simp [Form.lead]
  | braced hb _ ih =>
    obtain ⟨ls, groups, hls, hahead⟩ := ih
    refine ⟨_, groups, hls, ?_⟩
    rw [ahead_of_at hb, hahead]
    rfl
  | unbraced _ _ ih => exact ih

end

end Parser

open VertexLanes.Parser VertexLanes.Cursor

/-- In an accepted source all brackets balance. It consists of blocks, whose braces match, and of
groups, in which kinds are not told apart: the brackets of the source match by kind exactly if those
of every group do. -/
theorem parseBlock_brackets {source : List Char} {t : Node Token} (h : parseBlock source = .ok t) :
    Cursor.depthThrough 0 ((lex source).tokens.map Located.item) = some 0 ∧
      ∃ groups, LaidOut ((lex source).tokens.map Located.item) groups ∧
        (Matched ((lex source).tokens.map Located.item) ↔ ∀ g ∈ groups, Matched g) := by
  obtain ⟨-, first, ts, next, htokens, hbrace, hread, hend⟩ := parseBlock_eq_ok_iff.mp h
  obtain ⟨ls, groups, hls, hahead⟩ := hread.exists_laidOut
  have hitems : (lex source).tokens.map Located.item = .symbol .lbrace :: ls := by
    have hnext : next.ahead = [] := List.map_eq_nil_iff.mpr hend
    rw [hnext, List.append_nil] at hahead
    rw [← hahead, ← eq_of_beq hbrace]
    exact ahead_of_rest (c := (lex source).cursor) htokens
  rw [hitems]
  exact ⟨hls.depthThrough, groups, hls, hls.matched_iff⟩

/-- A loop with a block, a conditional without braces and brackets of all kinds. -/
def groupedSource : String :=
  "\x7b while (a[i]) \x7b if (b) f((c)); \x7d x = \x7b 1, g[2] \x7d; \x7d"

/-- A source with brackets of all kinds, all of them matched. -/
theorem parseBlock_brackets_grouped :
    (parseBlock groupedSource.toList).isOk = true ∧
      Matched ((lex groupedSource.toList).tokens.map Located.item) ∧
      ∃ groups, LaidOut ((lex groupedSource.toList).tokens.map Located.item) groups ∧
        ∀ g ∈ groups, Matched g := by
  have hread : (parseBlock groupedSource.toList).isOk = true := by decide +kernel
  have hmatched : Matched ((lex groupedSource.toList).tokens.map Located.item) := by
    decide +kernel
  cases hp : parseBlock groupedSource.toList with
  | error e =>
    rw [hp] at hread
    cases hread
  | ok t =>
    obtain ⟨-, groups, hlaid, hiff⟩ := parseBlock_brackets hp
    exact ⟨rfl, hmatched, groups, hlaid, hiff.mp hmatched⟩

/-- A parenthesis is closed by a square bracket, and the source is accepted. -/
theorem parseBlock_brackets_unlike :
    (parseBlock "\x7b x = (a]; \x7d".toList).isOk = true ∧
      ¬Matched ((lex "\x7b x = (a]; \x7d".toList).tokens.map Located.item) := by
  constructor
  · decide +kernel
  · decide +kernel

end VertexLanes
