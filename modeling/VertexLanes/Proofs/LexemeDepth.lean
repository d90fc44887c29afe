import VertexLanes.Block.Shape
import VertexLanes.Proofs.ClauseReading
import VertexLanes.Proofs.LexemeForms
import VertexLanes.Proofs.OperandSlots

/-!
# Depth of lexemes

Brackets are counted in four places: by the reader of groups, which stops where
a group is closed, by the shapes of statements, by the search for the end of a
call, and over the spellings of tokens once these are all that is left. For the
lexemes of a source all four counts agree. What stands outside all brackets
therefore decides, for every one of them alike, that a statement is an operation.
-/

namespace VertexLanes

open Lexer
open Cursor (Clause depthThrough)

/-- What lexemes do to the bracket depth. -/
def depthOf : List Lexeme → Int
  | [] => 0
  | l :: ls => l.side.change + depthOf ls

theorem depthOf_append (ls ms : List Lexeme) : depthOf (ls ++ ms) = depthOf ls + depthOf ms := by
  induction ls with
  | nil => exact (Int.zero_add _).symm
  | cons l ls ih => rw [List.cons_append, depthOf, depthOf, ih, Int.add_assoc]

/-- The depth through two runs is that through the second, from where the first ended. -/
theorem Cursor.depthThrough_append (depth : Nat) (ls ms : List Lexeme) :
    depthThrough depth (ls ++ ms) = (depthThrough depth ls).bind fun d => depthThrough d ms := by
  induction ls generalizing depth with
  | nil => rfl
  | cons l ls ih =>
    rw [List.cons_append, depthThrough, depthThrough, Option.bind_assoc]
    simp only [ih]

/-- Groups that are open around some lexemes stay open behind them. -/
theorem Cursor.depthThrough_add {depth m : Nat} {ls : List Lexeme} (k : Nat)
    (h : depthThrough depth ls = some m) : depthThrough (depth + k) ls = some (m + k) := by
  induction ls generalizing depth with
  | nil =>
    cases h
    rfl
  | cons l ls ih =>
    obtain ⟨d, hd, hrest⟩ := Option.bind_eq_some_iff.mp h
    have hstep : depthAfter (depth + k) l.side = some (d + k) := by
      cases hside : l.side with
      | opening =>
        rw [hside] at hd
        cases hd
        exact congrArg some (Nat.add_right_comm depth k 1)
      | closing =>
        rw [hside, depthAfter] at hd
        split at hd
        · cases hd
        · cases hd
          rw [depthAfter, if_neg (by omega)]
          exact congrArg some (by omega)
      | plain =>
        rw [hside] at hd
        cases hd
        rfl
    rw [depthThrough, hstep]
    exact ih hrest

/-- The depth counted by a reader that stops below zero is the plain count. -/
theorem depthOf_of_depthThrough {depth m : Nat} {ls : List Lexeme}
    (h : Cursor.depthThrough depth ls = some m) : (depth : Int) + depthOf ls = m := by
  induction ls generalizing depth with
  | nil =>
    cases h
    exact Int.add_zero _
  | cons l ls ih =>
    obtain ⟨d, hd, hrest⟩ := Option.bind_eq_some_iff.mp h
    have hls := ih hrest
    rw [depthOf]
    cases hside : l.side with
    | opening =>
      rw [hside] at hd
      cases hd
      simp only [Side.change]
      omega
    | closing =>
      rw [hside, Cursor.depthAfter] at hd
      split at hd
      · cases hd
      · cases hd
        simp only [Side.change]
        omega
    | plain =>
      rw [hside] at hd
      cases hd
      simp only [Side.change]
      omega

/-- The characters that are brackets. -/
def bracketChars : List Char := ['(', '[', '\x7b', ')', ']', '\x7d']

/-- A text that begins with none of some characters is none of them. -/
theorem ofList_not_mem {text marks : List Char}
    (h : ∀ c, text.head? = some c → c ∉ marks) :
    String.ofList text ∉ marks.map String.singleton := by
  intro hmem
  obtain ⟨c, hc, heq⟩ := List.mem_map.mp hmem
  have htext : text = [c] := by simpa using (congrArg String.toList heq).symm
  exact h c (by rw [htext]; rfl) hc

/-- A text that does not begin with a bracket is none. -/
theorem sideOfSpelling_of_head? {text : List Char}
    (h : ∀ c, text.head? = some c → c ∉ bracketChars) :
    sideOfSpelling (String.ofList text) = .plain := by
  have hopening : ["(", "[", "\x7b"] = ['(', '[', '\x7b'].map String.singleton := by decide
  have hclosing : [")", "]", "\x7d"] = [')', ']', '\x7d'].map String.singleton := by decide
  have hnotOpening := @ofList_not_mem text ['(', '[', '\x7b'] fun c hc hmem =>
    h c hc (List.mem_append_left [')', ']', '\x7d'] hmem)
  have hnotClosing := @ofList_not_mem text [')', ']', '\x7d'] fun c hc hmem =>
    h c hc (List.mem_append_right ['(', '[', '\x7b'] hmem)
  rw [sideOfSpelling, hopening, hclosing, if_neg (mt List.contains_iff_mem.mp hnotOpening),
    if_neg (mt List.contains_iff_mem.mp hnotClosing)]

/-- The side of a lexeme that was read from a source is that of its spelling. -/
theorem Lexeme.Form.side_spelling {l : Lexeme} (h : l.Form) :
    sideOfSpelling l.spelling = l.side := by
  cases h with
  | keyword k => cases k <;> decide
  | symbol s => cases s <;> decide
  | ident hstart =>
    refine sideOfSpelling_of_head? fun c hc hmem => ?_
    have hword : bracketChars.all (fun c => !isWordStart c) = true := by decide
    have hnot := List.all_eq_true.mp hword c hmem
    rw [← Option.some.inj hc, hstart] at hnot
    cases hnot
  | number hstart =>
    refine sideOfSpelling_of_head? fun c hc hmem => ?_
    have hdigits : bracketChars.all (fun c => !c.isDigit) = true := by decide
    have hnot := List.all_eq_true.mp hdigits c hmem
    rw [Option.some.inj hc] at hstart
    rcases Piece.isDigit_or_of_startsNumber hstart with hdigit | rfl
    · rw [hdigit] at hnot
      cases hnot
    · exact absurd hmem (by decide)
  | @quoted quote text hclosed =>
    refine sideOfSpelling_of_head? fun c hc hmem => ?_
    rw [← Option.some.inj hc] at hmem
    revert hmem
    cases quote <;> decide
  | directive hhash =>
    refine sideOfSpelling_of_head? fun c hc hmem => ?_
    rw [hhash c hc] at hmem
    revert hmem
    decide

/-- The bracket depth of spellings is that of their lexemes. -/
theorem bracketDepth_spelling {ls : List Lexeme} (h : ∀ l ∈ ls, l.Form) :
    bracketDepth (ls.map Lexeme.spelling) = depthOf ls := by
  induction ls with
  | nil => rfl
  | cons l ls ih =>
    obtain ⟨hl, hls⟩ := List.forall_mem_cons.mp h
    rw [List.map_cons, bracketDepth, depthOf, hl.side_spelling, ih hls]

/-- Two clauses, one behind the other, are one. -/
theorem Cursor.Clause.append {ls ms : List Lexeme} (hl : Clause ls) (hm : Clause ms) :
    Clause (ls ++ ms) := by
  induction hl with
  | nil => exact hm
  | plain hside hne _ ih => exact .plain hside hne ih
  | group ho hi hc _ ih =>
    rw [List.cons_append, List.append_assoc, List.cons_append]
    exact .group ho hi hc ih

/-- A balanced group leaves the depth as it is. -/
theorem depthOf_group {opening closing : Lexeme} {inner : List Lexeme}
    (ho : opening.side = .opening) (hi : depthThrough 0 inner = some 0)
    (hc : closing.side = .closing) : depthOf (opening :: (inner ++ [closing])) = 0 := by
  have hinner := depthOf_of_depthThrough hi
  rw [depthOf, depthOf_append, depthOf, depthOf, ho, hc]
  simp only [Side.change]
  omega

/-! ## Shapes -/

namespace Shape

/-- Tokens of a second run are marked with the depth that the first ended with. -/
theorem mark_append (depth : Int) (us vs : List Token) :
    Nesting.mark Token.side depth (us ++ vs) = Nesting.mark Token.side depth us ++
      Nesting.mark Token.side (depth + depthOf (us.map Located.item)) vs := by
  induction us generalizing depth with
  | nil => simp [Nesting.mark, depthOf]
  | cons u us ih =>
    rw [List.cons_append, List.map_cons, depthOf, ← Int.add_assoc, Nesting.mark, Nesting.mark]
    change _ = _ ++ Nesting.mark Token.side (depth + u.side.change + _) vs
    cases u.side with
    | opening => simp only [ih, Side.change, List.cons_append]
    | closing => simp only [ih, Side.change, List.cons_append, Int.sub_eq_add_neg]
    | plain => simp only [ih, Side.change, List.cons_append, Int.add_zero]

/-- A group that closes at the end is not closed before. -/
theorem depthOf_ne_of_closesAtEnd {depth : Int} {us vs : List Token}
    (h : closesAtEnd depth (us ++ vs) = true) (hus : us ≠ []) (hvs : vs ≠ []) :
    depth + depthOf (us.map Located.item) ≠ 0 := by
  induction us generalizing depth with
  | nil => exact absurd rfl hus
  | cons u us ih =>
    have hstep : closesAtEnd depth (u :: (us ++ vs)) =
        ((depth + u.side.change != 0 || (us ++ vs).isEmpty) &&
          closesAtEnd (depth + u.side.change) (us ++ vs)) := by
      rw [closesAtEnd]
      cases u.side <;> simp [Side.change, Int.sub_eq_add_neg]
    rw [List.cons_append, hstep] at h
    obtain ⟨hopen, hrest⟩ := Bool.and_eq_true_iff.mp h
    rw [List.map_cons, depthOf, ← Int.add_assoc]
    by_cases hnil : us = []
    · subst hnil
      have hmore : ([] ++ vs).isEmpty = false := by simpa using hvs
      rw [hmore, Bool.or_false] at hopen
      simpa [depthOf, Token.side] using hopen
    · exact ih hrest hnil

/-- A qualified name has no brackets. -/
theorem depthOf_of_inQualifiedName {ls : List Lexeme} (h : ∀ l ∈ ls, inQualifiedName l = true) :
    depthOf ls = 0 := by
  induction ls with
  | nil => rfl
  | cons l ls ih =>
    obtain ⟨hl, hls⟩ := List.forall_mem_cons.mp h
    have hside : l.side = .plain := by
      cases l with
      | symbol s => revert hl; cases s <;> decide
      | _ => rfl
    rw [depthOf, hside, ih hls]
    rfl

section
variable {before after : List Token} {sign : Token}

/-- With an operator outside all brackets a statement is no call: either the operator is part of the
callee, or the first parenthesis is closed before it. -/
theorem call?_eq_none (hdepth : depthOf (before.map Located.item) = 0)
    (hparen : sign.is .lparen = false) (hname : inQualifiedName sign.item = false) :
    call? (before ++ sign :: after) = none := by
  rw [call?]
  simp only
  rw [if_neg]
  intro hcall
  simp only [Bool.and_eq_true] at hcall
  obtain ⟨⟨-, hcallee⟩, hcloses⟩ := hcall
  have htiles := @List.takeWhile_append_dropWhile _ (fun t => !Token.is .lparen t) before
  rw [List.takeWhile_append] at hcallee
  rw [List.dropWhile_append] at hcloses
  by_cases hnone : before.dropWhile (fun t => !Token.is .lparen t) = []
  · rw [hnone, List.append_nil] at htiles
    rw [htiles, if_pos rfl, List.takeWhile_cons_of_pos (by rw [hparen]; rfl)] at hcallee
    have hsign := List.all_eq_true.mp hcallee sign
      (List.mem_append_right before List.mem_cons_self)
    rw [hname] at hsign
    cases hsign
  · have hshort : (before.takeWhile fun t => !Token.is .lparen t).length ≠ before.length := by
      intro hlength
      have hsum := congrArg List.length htiles
      have hpos := List.length_pos_iff.mpr hnone
      rw [List.length_append] at hsum
      omega
    rw [if_neg hshort] at hcallee
    rw [if_neg (by simpa using hnone)] at hcloses
    refine depthOf_ne_of_closesAtEnd hcloses hnone (List.cons_ne_nil _ _) ?_
    have hfront :
        depthOf ((before.takeWhile fun t => !Token.is .lparen t).map Located.item) = 0 := by
      refine depthOf_of_inQualifiedName fun l hl => ?_
      obtain ⟨t, ht, rfl⟩ := List.mem_map.mp hl
      exact List.all_eq_true.mp hcallee t ht
    rw [← htiles, List.map_append, depthOf_append, hfront, Int.zero_add] at hdepth
    rw [Int.zero_add, hdepth]

/-- Tokens with an operator outside brackets are an operation. -/
theorem expression_operation (hne : before ≠ []) (hdepth : depthOf (before.map Located.item) = 0)
    (hside : sign.side = .plain) (hop : isBinaryOperator sign = true) :
    expression (before ++ sign :: after) =
      Node.ofTokens .operation (before ++ sign :: after) := by
  have hjoined : (Nesting.mark Token.side 0 (before ++ sign :: after)).tail.any
      (fun x => x.2 && isBinaryOperator x.1) = true := by
    obtain ⟨t, ts, rfl⟩ := List.exists_cons_of_ne_nil hne
    have hfirst : ∃ outside more, Nesting.mark Token.side 0 (t :: ts) = (t, outside) :: more := by
      rw [Nesting.mark]
      cases t.side <;> exact ⟨_, _, rfl⟩
    obtain ⟨outside, more, hmore⟩ := hfirst
    rw [mark_append, hdepth, hmore, List.cons_append, List.tail_cons, List.any_append,
      Nesting.mark, hside]
    simp [hop]
  rw [expression]
  simp only [hjoined, if_true]

/-- A statement with an operator outside all brackets, but not in front, is an operation unless it
is a declaration. -/
theorem statement_operation (semicolon : Option Token) (hne : before ≠ [])
    (hdepth : depthOf (before.map Located.item) = 0) {mark : Symbol}
    (hmark : mark ∈ binaryOperators) (hsign : sign.item = .symbol mark)
    (hdeclares : declares (before ++ sign :: after) = false) :
    statement (before ++ sign :: after) semicolon =
      Node.ofTokens .operation (before ++ sign :: after) := by
  have hfacts : ∀ s ∈ binaryOperators, (Lexeme.symbol s).side = .plain ∧
      (Lexeme.symbol s == .symbol .lparen) = false ∧ inQualifiedName (.symbol s) = false := by
    decide
  obtain ⟨hside, hparen, hname⟩ := hfacts mark hmark
  have hop : isBinaryOperator sign = true := by
    rw [isBinaryOperator, hsign]
    simpa using hmark
  rw [← hsign] at hside hparen hname
  rw [statement, hdeclares, if_neg Bool.false_ne_true]
  split
  · rfl
  · rw [call?_eq_none hdepth hparen hname, Option.getD_none,
      expression_operation hne hdepth hside hop]

end

end Shape

end VertexLanes
