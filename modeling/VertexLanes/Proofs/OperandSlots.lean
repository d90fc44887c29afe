import Mathlib.Data.List.Forall2
import VertexLanes.Proofs.Dropping

/-!
# Operand slots

An operator of the table qualifies where it stands outside all brackets and does
not start an operand. The slots of an expression lie between the places at which
the chosen operator qualifies, so there is one slot more than there are places.
With at most two slots every token is in the operands or is the operator itself;
with more the annotation reports the expression. Nothing is left out of a test or
a value silently.
-/

namespace VertexLanes

/-- What a token adds to the bracket depth. -/
def Side.change : Side → Int
  | .opening => 1
  | .closing => -1
  | .plain => 0

/-- The bracket depth after some tokens; it is negative where more brackets close than open. -/
def bracketDepth : List String → Int
  | [] => 0
  | t :: ts => (sideOfSpelling t).change + bracketDepth ts

theorem bracketDepth_append (ts us : List String) :
    bracketDepth (ts ++ us) = bracketDepth ts + bracketDepth us := by
  induction ts with
  | nil => simp [bracketDepth]
  | cons t ts ih =>
    rw [List.cons_append, bracketDepth, bracketDepth, ih, Int.add_assoc]

/-- The last token changes the bracket depth by its side. -/
theorem bracketDepth_concat (ts : List String) (t : String) :
    bracketDepth (ts ++ [t]) = bracketDepth ts + (sideOfSpelling t).change := by
  rw [bracketDepth_append, bracketDepth, bracketDepth, Int.add_zero]

/-- No operator has a bracket in it. -/
theorem VectorOp.side_of_mem_tokens {op : VectorOp} {t : String} (h : t ∈ op.tokens) :
    sideOfSpelling t = .plain := by
  revert t
  cases op <;> decide

theorem VectorOp.bracketDepth_tokens (op : VectorOp) : bracketDepth op.tokens = 0 := by
  cases op <;> decide

/-- Only one operator has more than one token, and its two tokens differ. -/
theorem VectorOp.tokens_cases (op : VectorOp) :
    (∃ t, op.tokens = [t]) ∨ op.tokens = ["&", "~"] := by
  cases op
  case andNot => exact Or.inr rfl
  all_goals exact Or.inl ⟨_, rfl⟩

namespace Operands

/-- An operator qualifies after `i` of the tokens: it stands there outside all brackets, and, unless
it is the negation, does not start an operand. -/
def Qualifies (op : VectorOp) (tokens : List String) (i : Nat) : Prop :=
  bracketDepth (tokens.take i) = 0 ∧ op.tokens <+: tokens.drop i ∧
    (op = .neg ∨ startsOperand (tokens.take i).getLast? = false)

instance (op : VectorOp) (tokens : List String) (i : Nat) : Decidable (Qualifies op tokens i) :=
  inferInstanceAs (Decidable (_ ∧ _ ∧ _))

/-- The places at which an operator qualifies. -/
def qualifying (op : VectorOp) (tokens : List String) : List Nat :=
  (List.range tokens.length).filter fun i => Qualifies op tokens i

/-- The first operator of the table that qualifies anywhere. -/
def chosen? (tokens : List String) : Option VectorOp :=
  VectorOp.all.find? fun op => !(qualifying op tokens).isEmpty

/-! ## Slots lie between the places -/

/-- The number of places at which an operator qualifies among the tokens that follow `read`. -/
def placesAfter (op : VectorOp) (read tokens : List String) : Nat :=
  (List.range tokens.length).countP fun i => Qualifies op (read ++ tokens) (read.length + i)

section
variable {op : VectorOp} {read : List String}

/-- The qualifying places are those after the empty text. -/
theorem length_qualifying (op : VectorOp) (tokens : List String) :
    (qualifying op tokens).length = placesAfter op [] tokens := by
  rw [qualifying, placesAfter, ← List.countP_eq_length_filter]
  simp

/-- A token adds a place if the operator qualifies there. -/
theorem placesAfter_cons (t : String) (ts : List String) :
    placesAfter op read (t :: ts) =
      placesAfter op (read ++ [t]) ts +
        if Qualifies op (read ++ t :: ts) read.length then 1 else 0 := by
  have hshift : ∀ i, Qualifies op (read ++ t :: ts) (read.length + (i + 1)) ↔
      Qualifies op (read ++ [t] ++ ts) ((read ++ [t]).length + i) := by
    intro i
    rw [List.append_assoc, List.singleton_append, List.length_append, List.length_singleton,
      Nat.add_assoc, Nat.add_comm 1 i]
  rw [placesAfter, placesAfter, List.length_cons, List.range_succ_eq_map, List.countP_cons,
    List.countP_map]
  congr 1
  · refine List.countP_congr fun i _ => ?_
    simpa using hshift i
  · simp

/-- What an operator needs in order to qualify at the next token. -/
theorem qualifies_next_iff {ts : List String} :
    Qualifies op (read ++ ts) read.length ↔
      bracketDepth read = 0 ∧ op.tokens <+: ts ∧
        (op = .neg ∨ startsOperand read.getLast? = false) := by
  simp [Qualifies]

/-- An operator does not qualify at a bracket. -/
theorem not_qualifies_of_side {t : String} {ts : List String} (h : sideOfSpelling t ≠ .plain) :
    ¬Qualifies op (read ++ t :: ts) read.length := by
  intro hq
  obtain ⟨-, hprefix, -⟩ := qualifies_next_iff.mp hq
  obtain ⟨first, others, hop⟩ := List.exists_cons_of_length_pos (tokens_length_pos op)
  rw [hop] at hprefix
  obtain ⟨rfl, -⟩ := List.cons_prefix_cons.mp hprefix
  exact h (VectorOp.side_of_mem_tokens (hop ▸ List.mem_cons_self))

/-- A token at which the operator does not qualify adds no place. -/
theorem placesAfter_cons_of_not {t : String} {ts : List String}
    (h : ¬Qualifies op (read ++ t :: ts) read.length) :
    placesAfter op read (t :: ts) = placesAfter op (read ++ [t]) ts := by
  rw [placesAfter_cons, if_neg h, Nat.add_zero]

/-- A place is counted once, and none of the operator's own tokens is a further place. -/
theorem placesAfter_tokens {right : List String}
    (h : Qualifies op (read ++ (op.tokens ++ right)) read.length) :
    placesAfter op read (op.tokens ++ right) = placesAfter op (read ++ op.tokens) right + 1 := by
  rcases op.tokens_cases with ⟨t, ht⟩ | ht
  · rw [ht, List.singleton_append] at h ⊢
    rw [placesAfter_cons, if_pos h]
  · rw [ht, List.cons_append, List.singleton_append] at h ⊢
    have hsecond : ¬Qualifies op ((read ++ ["&"]) ++ "~" :: right) (read ++ ["&"]).length := by
      intro hq
      obtain ⟨-, hprefix, -⟩ := qualifies_next_iff.mp hq
      rw [ht] at hprefix
      exact absurd (List.cons_prefix_cons.mp hprefix).1 (by decide)
    rw [placesAfter_cons, if_pos h, placesAfter_cons_of_not hsecond, List.append_assoc,
      List.singleton_append]

/-- The next step of a cut, in terms of the places at which an operator qualifies. -/
theorem cut?_cons (t : String) (ts : List String) :
    cut? op read.getLast? (bracketDepth read) (t :: ts) =
      if Qualifies op (read ++ t :: ts) read.length then
        some ([], (t :: ts).drop op.tokens.length)
      else
        (cut? op (read ++ [t]).getLast? (bracketDepth (read ++ [t])) ts).map fun cut =>
          (t :: cut.1, cut.2) := by
  rw [List.getLast?_concat, bracketDepth_concat, cut?]
  cases hside : sideOfSpelling t with
  | opening =>
    rw [if_neg (not_qualifies_of_side (by simp [hside]))]
    rfl
  | closing =>
    rw [if_neg (not_qualifies_of_side (by simp [hside]))]
    rfl
  | plain =>
    have hiff : (bracketDepth read == 0 && op.tokens.isPrefixOf (t :: ts) &&
        (op == .neg || !startsOperand read.getLast?)) = true ↔
          Qualifies op (read ++ t :: ts) read.length := by
      simp [qualifies_next_iff, and_assoc]
    simp only [hiff, Side.change, Int.add_zero]

/-- Without a cut there is no place. -/
theorem placesAfter_of_cut?_eq_none {ts : List String}
    (h : cut? op read.getLast? (bracketDepth read) ts = none) : placesAfter op read ts = 0 := by
  induction ts generalizing read with
  | nil => rfl
  | cons t ts ih =>
    rw [cut?_cons] at h
    split at h
    · cases h
    · next hq =>
      rw [placesAfter_cons_of_not hq]
      exact ih (Option.map_eq_none_iff.mp h)

/-- A cut is made at the first place: the operator qualifies there, and the other places are those
of the tokens after it. -/
theorem placesAfter_of_cut?_eq_some {ts left right : List String}
    (h : cut? op read.getLast? (bracketDepth read) ts = some (left, right)) :
    Qualifies op (read ++ ts) (read ++ left).length ∧
      placesAfter op read ts = placesAfter op (read ++ left ++ op.tokens) right + 1 := by
  induction ts generalizing read left with
  | nil => cases h
  | cons t ts ih =>
    have htiles := cut?_tiles h
    rw [cut?_cons] at h
    split at h
    · next hq =>
      obtain ⟨rfl, rfl⟩ := Prod.mk.inj (Option.some.inj h)
      rw [List.nil_append] at htiles
      rw [List.append_nil]
      refine ⟨hq, ?_⟩
      rw [← htiles] at hq ⊢
      rw [List.drop_left]
      exact placesAfter_tokens hq
    · next hq =>
      obtain ⟨⟨left', right'⟩, hcut, he⟩ := Option.map_eq_some_iff.mp h
      obtain ⟨rfl, rfl⟩ := Prod.mk.inj he
      have hplaces := ih hcut
      rw [List.append_assoc, List.append_assoc, List.singleton_append] at hplaces
      rw [placesAfter_cons_of_not hq]
      simpa using hplaces

/-- There is one slot more than there are places. -/
theorem length_slots {before : Option String} {ts : List String} (hb : before = read.getLast?)
    (hd : bracketDepth read = 0) :
    (slots op before ts).length = placesAfter op read ts + 1 := by
  fun_induction slots op before ts generalizing read with
  | case1 before ts hcut =>
    rw [hb, ← hd] at hcut
    rw [placesAfter_of_cut?_eq_none hcut]
    rfl
  | case2 before ts left right hcut ih =>
    rw [hb, ← hd] at hcut
    obtain ⟨⟨hleft, -, -⟩, hplaces⟩ := placesAfter_of_cut?_eq_some hcut
    rw [← cut?_tiles hcut, ← List.append_assoc, ← List.append_assoc,
      List.append_assoc _ op.tokens right, List.take_left] at hleft
    have hlast : op.tokens.getLast? = (read ++ left ++ op.tokens).getLast? := by
      rw [List.getLast?_append_of_ne_nil]
      exact List.ne_nil_of_length_pos (tokens_length_pos op)
    have hdepth : bracketDepth (read ++ left ++ op.tokens) = 0 := by
      rw [bracketDepth_append, hleft, op.bracketDepth_tokens, Int.add_zero]
    rw [List.length_cons, hplaces, ih hlast hdepth]

end

/-! ## The chosen operator and its operands -/

section
variable {op : VectorOp} {tokens : List String}

/-- There is one slot more than there are places where the operator qualifies. -/
theorem length_slots_eq (op : VectorOp) (tokens : List String) :
    (slots op none tokens).length = (qualifying op tokens).length + 1 := by
  rw [length_qualifying]
  exact length_slots rfl rfl

/-- The first operator that splits the tokens is the first one that qualifies. -/
theorem firstSplit?_eq (tokens : List String) :
    firstSplit? tokens = (chosen? tokens).map fun op => (op, slots op none tokens) := by
  rw [firstSplit?, chosen?, ← List.findSome?_guard, List.map_findSome?]
  congr 1
  funext op
  have hlength := length_slots_eq op tokens
  split
  · next part hparts =>
    rw [hparts, List.length_singleton] at hlength
    have hnone : qualifying op tokens = [] := List.eq_nil_of_length_eq_zero (by omega)
    simp [Option.guard, hnone]
  · next hmany =>
    have hsome : qualifying op tokens ≠ [] := by
      intro hnone
      rw [hnone] at hlength
      obtain ⟨part, hpart⟩ := List.length_eq_one_iff.mp hlength
      exact hmany part hpart
    simp [Option.guard, hsome]

/-- Without an operator, tokens are passed on as one operand. -/
theorem classify_of_chosen?_eq_none (h : chosen? tokens = none) :
    classify tokens = ⟨.pass (renderExpr tokens), 1⟩ := by
  rw [classify, firstSplit?_eq, h]
  rfl

/-- With an operator, it is applied to the slots between its places. -/
theorem classify_of_chosen?_eq_some (h : chosen? tokens = some op) :
    classify tokens =
      ⟨applied op tokens (slots op none tokens), (slots op none tokens).length⟩ := by
  rw [classify, firstSplit?_eq, h]
  rfl

/-- A chosen operator qualifies somewhere. -/
theorem qualifying_ne_nil (h : chosen? tokens = some op) : qualifying op tokens ≠ [] := by
  simpa using List.find?_some h

/-- The application of an operator to what stands on either side of it. -/
def joined (op : VectorOp) (left right : List String) : LaneExpr :=
  if left.isEmpty && right.isEmpty then .pass (renderExpr (left ++ op.tokens ++ right))
  else if left.isEmpty then .unary op (renderExpr right)
  else if right.isEmpty then .unary op (renderExpr left)
  else .binary op (renderExpr left) (renderExpr right)

/-- An operator applied to two slots joins them. -/
theorem applied_pair (op : VectorOp) (left right : List String) :
    applied op (left ++ op.tokens ++ right) [left, right] = joined op left right := by
  cases left <;> cases right <;> rfl

/-- An application is of the given operator, unless there is no operand to apply it to. -/
theorem applied_cases (op : VectorOp) (tokens : List String) (parts : List (List String)) :
    (applied op tokens parts).op? = some op ∨
      (∀ part ∈ parts, part = []) ∧ applied op tokens parts = .pass (renderExpr tokens) := by
  unfold applied
  split
  · next hempty =>
    refine Or.inr ⟨fun part hpart => ?_, rfl⟩
    simpa using List.filter_eq_nil_iff.mp hempty part hpart
  · split <;> exact Or.inl rfl
  · exact Or.inl rfl

/-- Without a place to cut there is one slot. -/
theorem slots_of_cut?_eq_none {before : Option String} (h : cut? op before 0 tokens = none) :
    slots op before tokens = [tokens] := by
  rw [slots]
  split
  · rfl
  · next hcut => cases h.symm.trans hcut

/-- A cut gives a slot, and the tokens behind it give the others. -/
theorem slots_of_cut?_eq_some {before : Option String} {left right : List String}
    (h : cut? op before 0 tokens = some (left, right)) :
    slots op before tokens = left :: slots op op.tokens.getLast? right := by
  rw [slots]
  split
  · next hcut => cases h.symm.trans hcut
  · next hcut =>
    cases h.symm.trans hcut
    rfl

/-- Two slots are what stands before the one place and after it. -/
theorem exists_slots_eq (h : (slots op none tokens).length = 2) :
    ∃ left right, slots op none tokens = [left, right] ∧ tokens = left ++ op.tokens ++ right ∧
      Qualifies op tokens left.length := by
  cases hcut : cut? op none 0 tokens with
  | none =>
    rw [slots_of_cut?_eq_none hcut] at h
    cases h
  | some cut =>
    obtain ⟨left, right⟩ := cut
    rw [slots_of_cut?_eq_some hcut] at h ⊢
    have hrest : (slots op op.tokens.getLast? right).length = 1 := Nat.succ.inj h
    cases hagain : cut? op op.tokens.getLast? 0 right with
    | none =>
      rw [slots_of_cut?_eq_none hagain]
      exact ⟨left, right, rfl, (cut?_tiles hcut).symm,
        (@placesAfter_of_cut?_eq_some op [] _ _ _ hcut).1⟩
    | some second =>
      rw [slots_of_cut?_eq_some hagain, List.length_cons,
        @length_slots op op.tokens _ _ rfl op.bracketDepth_tokens] at hrest
      omega

/-- What a classification says of the tokens it was read from. -/
structure Accounts (tokens : List String) (c : Classified) : Prop where
  /-- Where no operator qualifies, the tokens are passed on as they are. -/
  passed : chosen? tokens = none → c = ⟨.pass (renderExpr tokens), 1⟩
  /-- There is one slot more than there are places at which the chosen operator qualifies. -/
  slots_eq : ∀ op, chosen? tokens = some op → c.slots = (qualifying op tokens).length + 1
  /-- The chosen operator is applied, unless no slot is filled. -/
  operator : ∀ op, chosen? tokens = some op → c.expr.op? = some op ∨
    (∀ part ∈ slots op none tokens, part = []) ∧ c.expr = .pass (renderExpr tokens)
  /-- With at most two slots no token is left out. -/
  whole : ∀ op, chosen? tokens = some op → c.slots ≤ 2 →
    ∃ left right, tokens = left ++ op.tokens ++ right ∧ c.expr = joined op left right

/-- Every classification accounts for the tokens it was read from. -/
theorem accounts_classify (tokens : List String) : Accounts tokens (classify tokens) where
  passed := classify_of_chosen?_eq_none
  slots_eq op h := by
    rw [classify_of_chosen?_eq_some h]
    exact length_slots_eq op tokens
  operator op h := by
    rw [classify_of_chosen?_eq_some h]
    exact applied_cases op tokens _
  whole op h hle := by
    rw [classify_of_chosen?_eq_some h] at hle ⊢
    have hpos := List.length_pos_iff.mpr (qualifying_ne_nil h)
    have hlength := length_slots_eq op tokens
    have htwo : (slots op none tokens).length = 2 := by
      simp only at hle
      omega
    obtain ⟨left, right, hslots, htokens, -⟩ := exists_slots_eq htwo
    refine ⟨left, right, htokens, ?_⟩
    rw [hslots, htokens]
    exact applied_pair op left right

end

end Operands

/-! ## Tests and values of an annotated body -/

/-- An expression holds all the tokens it was read from: they are its operands, with its operator
between, before or after them. -/
def LaneExpr.Holds (tokens : List String) : LaneExpr → Prop
  | .pass text => text = renderExpr tokens
  | .unary op operand => ∃ left right, tokens = left ++ op.tokens ++ right ∧
      (left = [] ∨ right = []) ∧ operand = renderExpr (left ++ right)
  | .binary op lhs rhs => ∃ left right, tokens = left ++ op.tokens ++ right ∧
      lhs = renderExpr left ∧ rhs = renderExpr right
  | .complement _ => False

/-- Two joined operands hold their tokens and those of the operator. -/
theorem Operands.holds_joined (op : VectorOp) (left right : List String) :
    (joined op left right).Holds (left ++ op.tokens ++ right) := by
  cases left with
  | nil =>
    cases right with
    | nil => exact rfl
    | cons r rs => exact ⟨[], r :: rs, rfl, Or.inl rfl, rfl⟩
  | cons l ls =>
    cases right with
    | nil => exact ⟨l :: ls, [], rfl, Or.inr rfl, by rw [List.append_nil]⟩
    | cons r rs => exact ⟨l :: ls, r :: rs, rfl, rfl, rfl⟩

/-- An expression with at most two slots holds all of its tokens. -/
theorem Operands.holds_classify {tokens : List String} (h : (classify tokens).slots ≤ 2) :
    (classify tokens).expr.Holds tokens := by
  cases hop : chosen? tokens with
  | none =>
    rw [(accounts_classify tokens).passed hop]
    exact rfl
  | some op =>
    obtain ⟨left, right, htokens, hexpr⟩ := (accounts_classify tokens).whole op hop h
    rw [hexpr, htokens]
    exact holds_joined op left right

/-- What is passed on is all there is, whatever the number of slots. -/
theorem Operands.text_of_classify {tokens : List String} {text : String}
    (h : (classify tokens).expr = .pass text) : text = renderExpr tokens := by
  cases hop : chosen? tokens with
  | none =>
    rw [(accounts_classify tokens).passed hop] at h
    exact (LaneExpr.pass.inj h).symm
  | some op =>
    rcases (accounts_classify tokens).operator op hop with happlied | ⟨-, hpass⟩
    · rw [h] at happlied
      cases happlied
    · exact LaneExpr.pass.inj (h.symm.trans hpass)

mutual
/-- The tests and values of a statement, in the order of the source. The test of an else branch is
not read from the source. -/
def Stmt.applications : Stmt → List (Located LaneExpr)
  | .block ⟨_, stmts⟩ => applicationsOf stmts
  | .ifThen _ test ⟨_, stmts⟩ _ => ⟨test.test, test.span⟩ :: applicationsOf stmts
  | .ifElse _ test ⟨_, stmts⟩ _ ⟨_, others⟩ _ =>
    ⟨test.test, test.span⟩ :: (applicationsOf stmts ++ applicationsOf others)
  | .assign _ _ value span => [⟨value, span⟩]
  | _ => []
/-- The tests and values of statements, in the order of the source. -/
def applicationsOf : List Stmt → List (Located LaneExpr)
  | [] => []
  | s :: ss => s.applications ++ applicationsOf ss
end

/-- The tokens of the value of an assignment; `x op= e` assigns `x op e`. -/
def valueTokens (lhs : List String) (sign : String) (rhs : List String) : List String :=
  match compoundOp? sign with
  | none => rhs
  | some op => lhs ++ op.tokens ++ rhs

/-- The tokens of the test of a conditional or the value of an assignment, at the place that a
notice about them carries. -/
def Node.value? (n : Node String) : Option (Located (List String)) :=
  match n.kind with
  | .conditional => n.children.head?.map fun test => ⟨test.tokens, test.span⟩
  | .operation => (cutAssignment? n.tokens).map fun cut =>
      ⟨valueTokens cut.1 cut.2.1 cut.2.2, n.span⟩
  | _ => none

/-- The tests and values of the statements that are not dropped, in the order of the source. -/
def keptValues (ns : List (Node String)) : List (Located (List String)) :=
  ((positions ns).filter fun n => n.dropped?.isNone).filterMap Node.value?

/-- An expression holds the tokens it was read from, or a notice at its place says that it does
not. -/
def Told (notices : List (Located BodyNotice)) (expr : Located LaneExpr)
    (source : Located (List String)) : Prop :=
  expr.span = source.span ∧
    (expr.item.Holds source.item ∨
      ∃ slots, 2 < slots ∧ ⟨.operandsDiscarded slots, source.span⟩ ∈ notices)

/-- With more notices, an expression is told of all the more. -/
theorem Told.mono {notices more : List (Located BodyNotice)} (h : notices ⊆ more)
    {expr : Located LaneExpr} {source : Located (List String)} (ht : Told notices expr source) :
    Told more expr source :=
  ⟨ht.1, ht.2.imp_right fun ⟨slots, hslots, hmem⟩ => ⟨slots, hslots, h hmem⟩⟩

/-- A classified expression holds its tokens or has more than two slots, which is reported. -/
theorem told_classify (n : Node String) (tokens : List String) :
    Told (slotNotice n (Operands.classify tokens).slots)
      ⟨(Operands.classify tokens).expr, n.span⟩ ⟨tokens, n.span⟩ := by
  refine ⟨rfl, ?_⟩
  by_cases hslots : 2 < (Operands.classify tokens).slots
  · refine Or.inr ⟨_, hslots, ?_⟩
    rw [slotNotice, if_pos hslots]
    exact List.mem_cons_self
  · exact Or.inl (Operands.holds_classify (Nat.le_of_not_lt hslots))

/-- The value of an operation that is kept. -/
theorem told_annotateOperation {label : Label} {n : Node String} {s : Stmt}
    {notes : List (Located BodyNotice)} (hk : n.kind = .operation)
    (h : annotateOperation label n = (some s, notes)) :
    List.Forall₂ (Told notes) s.applications n.value?.toList := by
  unfold annotateOperation at h
  rw [Node.value?, hk]
  cases hcut : cutAssignment? n.tokens with
  | none =>
    rw [hcut] at h
    cases h
  | some cut =>
    obtain ⟨lhs, sign, rhs⟩ := cut
    simp only [hcut, Option.map_some, Option.toList_some] at h ⊢
    split at h
    · cases h
    · cases hop : compoundOp? sign with
      | none =>
        rw [hop] at h
        cases h
        simp only [valueTokens, hop]
        exact .cons (told_classify n rhs) .nil
      | some op =>
        rw [hop] at h
        cases hexpr : (Operands.classify rhs).expr with
        | pass text =>
          rw [hexpr] at h
          cases h
          have htext := Operands.text_of_classify hexpr
          simp only [valueTokens, hop]
          exact .cons ⟨rfl, Or.inl ⟨lhs, rhs, rfl, rfl, htext⟩⟩ .nil
        | _ =>
          rw [hexpr] at h
          cases h

/-- The tests and values of a simple statement that is kept. -/
theorem Simple.told {label : Label} {n : Node String} {s : Stmt}
    {notes : List (Located BodyNotice)} (h : Simple label n (some s) notes) :
    List.Forall₂ (Told notes) s.applications n.value?.toList := by
  cases h with
  | operation hk h => exact told_annotateOperation hk h
  | declaration hk =>
    rw [Node.value?, hk]
    exact .nil
  | call hk h =>
    obtain ⟨vertex, message, rfl⟩ := annotateCall_kept h
    rw [Node.value?, hk]
    exact .nil
  | «return» hk =>
    rw [Node.value?, hk]
    exact .nil

section
variable {n : Node String} (ns : List (Node String))

/-- A block keeps the values of its statements. -/
theorem keptValues_cons_block (hk : n.kind = .block) :
    keptValues (n :: ns) = keptValues n.children ++ keptValues ns := by
  have hkept := Node.dropped?_of_nests (congrArg NodeKind.nests hk)
  have hvalue : n.value? = none := by rw [Node.value?, hk]
  rw [keptValues, positions_cons_block hk, List.filter_cons_of_pos (by simp [hkept]),
    List.filterMap_cons_none hvalue, List.filter_append, List.filterMap_append]
  rfl

/-- A conditional keeps its test and the values of its branches. -/
theorem keptValues_cons_conditional {test : Node String} {branches : List (Node String)}
    (hk : n.kind = .conditional) (hc : n.children = test :: branches)
    (hf : conditionalFault? n.children = none) :
    keptValues (n :: ns) =
      ⟨test.tokens, test.span⟩ ::
        ((branches.flatMap fun b => keptValues b.children) ++ keptValues ns) := by
  have hkept := Node.dropped?_of_nests (congrArg NodeKind.nests hk)
  have hvalue : n.value? = some ⟨test.tokens, test.span⟩ := by rw [Node.value?, hk, hc]; rfl
  rw [keptValues, positions_cons_conditional hk hc hf, List.filter_cons_of_pos (by simp [hkept]),
    List.filterMap_cons_some hvalue, List.filter_append, List.filterMap_append, List.filter_flatMap,
    List.filterMap_flatMap]
  rfl

/-- A statement that is kept keeps its value. -/
theorem keptValues_cons_kept (hs : n.kind.nests = false) (hd : n.dropped? = none) :
    keptValues (n :: ns) = n.value?.toList ++ keptValues ns := by
  rw [keptValues, positions_cons_simple hs, List.filter_cons_of_pos (by simp [hd])]
  cases hv : n.value? with
  | none =>
    rw [List.filterMap_cons_none hv]
    rfl
  | some value =>
    rw [List.filterMap_cons_some hv]
    rfl

/-- A statement that is dropped keeps no value. -/
theorem keptValues_cons_dropped (hs : n.kind.nests = false) (hd : n.dropped?.isSome = true) :
    keptValues (n :: ns) = keptValues ns := by
  rw [keptValues, positions_cons_simple hs,
    List.filter_cons_of_neg (by simpa [Option.isSome_iff_ne_none] using hd)]
  rfl

end

/-- The tests and values of a walk, each with the tokens of the statement it was read from. -/
theorem Walk.told {label : Label} {next : Nat} {ns : List (Node String)}
    {r : Noted (List Stmt)} (h : Walk label next ns r) :
    List.Forall₂ (Told r.notices) (applicationsOf r.value) (keptValues ns) := by
  have mono : ∀ {notices more : List (Located BodyNotice)} {exprs : List (Located LaneExpr)}
      {sources : List (Located (List String))}, List.Forall₂ (Told notices) exprs sources →
      notices ⊆ more → List.Forall₂ (Told more) exprs sources :=
    fun htold hsub => htold.imp fun _ _ ht => ht.mono hsub
  induction h with
  | nil => exact .nil
  | block hk _ _ ihInner ihRest =>
    rw [keptValues_cons_block _ hk]
    exact List.rel_append (mono ihInner (by simp)) (mono ihRest (by simp))
  | @ifThen _ _ _ _ test _ _ _ hk hc hf _ _ ihInner ihRest =>
    rw [keptValues_cons_conditional _ hk hc hf, List.flatMap_singleton]
    refine .cons ((told_classify test test.tokens).mono ?_) (List.rel_append (mono ihInner ?_) ?_)
    · simp
    · simp
    · exact mono ihRest (by simp)
  | @ifElse _ _ _ _ test _ _ _ _ _ hk hc hf _ _ _ ihInner ihElse ihRest =>
    rw [keptValues_cons_conditional _ hk hc hf, List.flatMap_cons, List.flatMap_singleton]
    refine .cons ((told_classify test test.tokens).mono ?_)
      (List.rel_append (List.rel_append (mono ihInner ?_) (mono ihElse ?_)) (mono ihRest ?_))
    all_goals
      intro note hnote
      simp [hnote]
  | kept simple _ ih =>
    have hkept := simple.accounts.2
    rw [keptValues_cons_kept _ simple.nests_eq_false (by simpa using hkept.symm)]
    exact List.rel_append (mono simple.told (by simp)) (mono ih (by simp))
  | dropped simple _ ih =>
    rw [keptValues_cons_dropped _ simple.nests_eq_false simple.accounts.2.symm]
    exact mono ih (by simp)

/-! ## What a source and a text keep of their tokens -/

/-- A cut keeps all tokens: they are those before the sign, the sign, and those behind it. -/
theorem Nesting.exists_of_cut? {p : String → Bool} {depth : Int} {tokens target value : List String}
    {sign : String} (h : Nesting.cut? sideOfSpelling p depth tokens = some (target, sign, value)) :
    tokens = target ++ sign :: value ∧ p sign = true := by
  induction tokens generalizing depth target with
  | nil => cases h
  | cons t ts ih =>
    have onward {d : Int} (h : (Nesting.cut? sideOfSpelling p d ts).map
        (fun cut => (t :: cut.1, cut.2)) = some (target, sign, value)) :
        t :: ts = target ++ sign :: value ∧ p sign = true := by
      obtain ⟨⟨before, found, after⟩, hcut, hparts⟩ := Option.map_eq_some_iff.mp h
      cases hparts
      obtain ⟨hts, hp⟩ := ih hcut
      exact ⟨congrArg (t :: ·) hts, hp⟩
    rw [Nesting.cut?] at h
    split at h
    · exact onward h
    · exact onward h
    · split at h
      · next hhere =>
        cases h
        exact ⟨rfl, (Bool.and_eq_true_iff.mp hhere).2⟩
      · exact onward h

/-- The value of an operation is read from all its tokens: they are those of the target, a sign of
assignment, and those from which the value is made. -/
theorem Node.exists_of_value? {n : Node String} {source : Located (List String)}
    (hk : n.kind = .operation) (h : n.value? = some source) :
    ∃ lhs sign rhs, n.tokens = lhs ++ sign :: rhs ∧
      (sign = "=" ∨ ∃ op, compoundOp? sign = some op) ∧
      source = ⟨valueTokens lhs sign rhs, n.span⟩ := by
  simp only [Node.value?, hk] at h
  obtain ⟨⟨lhs, sign, rhs⟩, hcut, rfl⟩ := Option.map_eq_some_iff.mp h
  obtain ⟨htokens, hsign⟩ := Nesting.exists_of_cut? hcut
  refine ⟨lhs, sign, rhs, htokens, ?_, rfl⟩
  simpa [Option.isSome_iff_exists] using hsign

/-- Texts in order, with nothing but blanks between them. -/
inductive Spread : List String → String → Prop
  | single (t : String) : Spread [t] t
  | cons (t : String) (blanks : Nat) {ts : List String} {text : String} (h : Spread ts text) :
      Spread (t :: ts) (t ++ String.ofList (List.replicate blanks ' ') ++ text)

/-- Texts that are written one behind the other are spread with no blanks. -/
theorem spread_join {ts : List String} (h : ts ≠ []) : Spread ts (String.join ts) := by
  induction ts with
  | nil => exact absurd rfl h
  | cons t ts ih =>
    cases ts with
    | nil => simpa using Spread.single t
    | cons u us => simpa using Spread.cons t 0 (ih (List.cons_ne_nil u us))

/-- The pieces of an expression are its tokens, some with a blank before them. -/
theorem exists_spread_exprPieces {ts : List String} (h : ts ≠ []) (earlier before : Option String) :
    ∃ blanks text, String.join (exprPieces earlier before ts) =
      String.ofList (List.replicate blanks ' ') ++ text ∧ Spread ts text ∧
        (before = none → blanks = 0) := by
  induction ts generalizing earlier before with
  | nil => exact absurd rfl h
  | cons t ts ih =>
    have hfirst : ∃ blanks, (if spacedAfter earlier before t then " " ++ t else t) =
        String.ofList (List.replicate blanks ' ') ++ t ∧ (before = none → blanks = 0) := by
      split
      · next hspaced =>
        refine ⟨1, rfl, ?_⟩
        rintro rfl
        cases hspaced
      · exact ⟨0, by simp, fun _ => rfl⟩
    obtain ⟨blanks, hpiece, hnone⟩ := hfirst
    rw [exprPieces, hpiece]
    cases ts with
    | nil => exact ⟨blanks, t, by simp [exprPieces], .single t, hnone⟩
    | cons u us =>
      obtain ⟨between, text, hjoin, hspread, -⟩ := ih (List.cons_ne_nil u us) before (some t)
      refine ⟨blanks, _, ?_, .cons t between hspread, hnone⟩
      rw [String.join_cons, hjoin]
      simp [String.append_assoc]

/-- An expression is written with nothing but blanks between its tokens. -/
theorem spread_renderExpr {ts : List String} (h : ts ≠ []) : Spread ts (renderExpr ts) := by
  obtain ⟨blanks, text, hjoin, hspread, hblanks⟩ := exists_spread_exprPieces h none none
  rw [renderExpr, hjoin, hblanks rfl]
  simpa using hspread

/-- Operands are never discarded silently. A classification accounts for the tokens it is read
from; and of the tests and values of an annotated body, which are those of the source's kept
statements in their order, each holds all its tokens or is reported at its place. -/
theorem operands_kept_or_reported :
    (∀ tokens, Operands.Accounts tokens (Operands.classify tokens)) ∧
      ∀ body a, annotate body = .ok a →
        List.Forall₂ (Told a.notices) (applicationsOf a.root.stmts) (keptValues body.children) := by
  refine ⟨Operands.accounts_classify, fun body a h => ?_⟩
  obtain ⟨-, r, hw, rfl⟩ := walk_of_annotate h
  exact hw.told

/-- The test of the littered body keeps only the first of its three operands, and is reported; the
value of its assignment is whole. -/
theorem operands_kept_or_reported_littered :
    ∃ a, annotate litteredBody = .ok a ∧
      applicationsOf a.root.stmts = [⟨.unary .add "a", ⟨1, 2⟩⟩, ⟨.pass "y", ⟨3, 4⟩⟩] ∧
      keptValues litteredBody.children =
        [⟨["a", "+", "b", "+", "c"], ⟨1, 2⟩⟩, ⟨["y"], ⟨3, 4⟩⟩] ∧
      List.Forall₂ (Told a.notices) (applicationsOf a.root.stmts)
        (keptValues litteredBody.children) := by
  have happlications : (annotate litteredBody).toOption.map (fun a => applicationsOf a.root.stmts) =
      some [⟨.unary .add "a", ⟨1, 2⟩⟩, ⟨.pass "y", ⟨3, 4⟩⟩] := by decide +kernel
  obtain ⟨a, ha, hs⟩ := exists_eq_ok happlications
  exact ⟨a, ha, hs, by decide +kernel, operands_kept_or_reported.2 litteredBody a ha⟩

end VertexLanes
