import VertexLanes.Proofs.OperandSlots

/-!
# Compound assignments

`x op= e` is annotated at once, while `x = x op e` goes through the table of
operators. Both give the same statement if neither side has an operator of its
own: the first assignment sign outside brackets is the one between the two sides,
and of all operators of the table only `op` qualifies in `x op e`, at one place.
-/

namespace VertexLanes

/-- Whether a token is the sign of an assignment. -/
def isAssignmentSign (token : String) : Bool := token == "=" || (compoundOp? token).isSome

/-- No sign of an assignment stands outside all brackets. -/
def AssignsNothing (tokens : List String) : Prop :=
  ∀ before sign after, tokens = before ++ sign :: after → bracketDepth before = 0 →
    isAssignmentSign sign = false

/-- Tokens without a place to cut at are passed over, whatever it is that counts their brackets. -/
theorem Nesting.cut?_passing {τ : Type} {side : τ → Side} {level : List τ → Int}
    (hnil : level [] = 0) (hcons : ∀ t ts, level (t :: ts) = (side t).change + level ts)
    {p : τ → Bool} {depth : Int} {ts : List τ} (rest : List τ)
    (h : ∀ before t after, ts = before ++ t :: after → depth + level before = 0 → p t = false) :
    Nesting.cut? side p depth (ts ++ rest) =
      (Nesting.cut? side p (depth + level ts) rest).map fun cut => (ts ++ cut.1, cut.2) := by
  induction ts generalizing depth with
  | nil => simp [hnil]
  | cons t ts ih =>
    have onward := @ih (depth + (side t).change) fun before u after hts hdepth =>
      h (t :: before) u after (by rw [hts, List.cons_append])
        (by rw [hcons, ← Int.add_assoc, hdepth])
    rw [List.cons_append, Nesting.cut?, hcons, ← Int.add_assoc]
    cases hside : side t with
    | opening =>
      rw [hside] at onward
      simp only [Side.change] at onward ⊢
      rw [onward, Option.map_map]
      rfl
    | closing =>
      rw [hside] at onward
      simp only [Side.change] at onward ⊢
      rw [Int.sub_eq_add_neg, onward, Option.map_map]
      rfl
    | plain =>
      have hnot : (depth == 0 && p t) = false := by
        cases hdepth : depth == 0 with
        | false => rfl
        | true =>
          have hzero : depth + level [] = 0 := by simpa [hnil] using hdepth
          rw [h [] t ts rfl hzero]
          rfl
      rw [hside] at onward
      simp only [Side.change, Int.add_zero] at onward ⊢
      rw [hnot, if_neg Bool.false_ne_true, onward, Option.map_map]
      rfl

section
variable {p : String → Bool} {depth : Int}

/-- Tokens that are not cut are kept before the cut in what follows. -/
theorem Nesting.cut?_append {ts : List String} (rest : List String)
    (h : ∀ before t after, ts = before ++ t :: after → depth + bracketDepth before = 0 →
      p t = false) :
    Nesting.cut? sideOfSpelling p depth (ts ++ rest) =
      (Nesting.cut? sideOfSpelling p (depth + bracketDepth ts) rest).map fun cut =>
        (ts ++ cut.1, cut.2) :=
  Nesting.cut?_passing rfl (fun _ _ => rfl) rest h

/-- Where there is a place to cut at, a cut is made. -/
theorem Nesting.cut?_ne_none {before after : List String} {t : String}
    (hdepth : depth + bracketDepth before = 0) (hp : p t = true)
    (hside : sideOfSpelling t = .plain) :
    Nesting.cut? sideOfSpelling p depth (before ++ t :: after) ≠ none := by
  induction before generalizing depth with
  | nil =>
    have hzero : depth = 0 := by simpa [bracketDepth] using hdepth
    simp [Nesting.cut?, hside, hzero, hp]
  | cons u before ih =>
    rw [bracketDepth, ← Int.add_assoc] at hdepth
    have onward := ih hdepth
    rw [List.cons_append, Nesting.cut?]
    cases hu : sideOfSpelling u with
    | opening =>
      rw [hu] at onward
      exact mt Option.map_eq_none_iff.mp onward
    | closing =>
      rw [hu] at onward
      exact mt Option.map_eq_none_iff.mp onward
    | plain =>
      rw [hu, Side.change, Int.add_zero] at onward
      simp only
      split
      · exact Option.some_ne_none _
      · exact mt Option.map_eq_none_iff.mp onward

/-- An assignment sign is no bracket. -/
theorem side_of_isAssignmentSign {sign : String} (h : isAssignmentSign sign = true) :
    sideOfSpelling sign = .plain := by
  rcases Bool.or_eq_true_iff.mp h with heq | hop
  · rw [eq_of_beq heq]
    decide
  · unfold compoundOp? at hop
    split at hop
    case h_7 => cases hop
    all_goals decide

/-- Tokens assign nothing if and only if they cannot be cut at an assignment. -/
theorem assignsNothing_iff (tokens : List String) :
    AssignsNothing tokens ↔ cutAssignment? tokens = none := by
  constructor
  · intro h
    have hpass := @Nesting.cut?_append isAssignmentSign 0 tokens [] fun before t after ht hd =>
      h before t after ht (by simpa using hd)
    rw [List.append_nil] at hpass
    exact hpass
  · intro h before sign after htokens hdepth
    cases hsign : isAssignmentSign sign with
    | false => rfl
    | true =>
      rw [htokens] at h
      exact absurd h (Nesting.cut?_ne_none (by rw [hdepth, Int.add_zero]) hsign
        (side_of_isAssignmentSign hsign))

instance (tokens : List String) : Decidable (AssignsNothing tokens) :=
  decidable_of_iff _ (assignsNothing_iff tokens).symm

/-- An assignment is cut around the first sign outside all brackets. -/
theorem cutAssignment?_append {target : List String} {sign : String} (value : List String)
    (hdepth : bracketDepth target = 0) (htarget : AssignsNothing target)
    (hsign : isAssignmentSign sign = true) :
    cutAssignment? (target ++ sign :: value) = some (target, sign, value) := by
  have hpass := @Nesting.cut?_append isAssignmentSign 0 target (sign :: value) fun before t after
    ht hd => htarget before t after ht (by simpa using hd)
  have hcut : Nesting.cut? sideOfSpelling isAssignmentSign 0 (sign :: value) =
      some ([], sign, value) := by
    simp [Nesting.cut?, side_of_isAssignmentSign hsign, hsign]
  change Nesting.cut? sideOfSpelling isAssignmentSign 0 (target ++ sign :: value) = _
  rw [hpass, hdepth, Int.add_zero, hcut, Option.map_some, List.append_nil]

end

/-- The token before the next one, after one more token. -/
theorem getLast?_cons_or {α : Type} (t : α) (ts : List α) (earlier : Option α) :
    (t :: ts).getLast?.or earlier = ts.getLast?.or (some t) := by
  rw [List.getLast?_cons, Option.or_some, Option.some_or]

namespace Operands

section
variable {op : VectorOp} {before : Option String} {depth : Int}

/-- Whether an operator begins a token sequence is decided in its first part, unless that breaks off
between `&` and `~`. -/
theorem isPrefixOf_tokens_append (op : VectorOp) (t : String) (ts : List String)
    {rest : List String} (hrest : rest.head? ≠ some "~") :
    op.tokens.isPrefixOf (t :: (ts ++ rest)) = op.tokens.isPrefixOf (t :: ts) := by
  rcases op.tokens_cases with ⟨u, hu⟩ | htwo
  · simp [hu, List.isPrefixOf]
  · rw [htwo]
    cases ts with
    | nil =>
      cases rest with
      | nil => rfl
      | cons r rest =>
        have hr : ("~" == r) = false := by
          rw [beq_eq_false_iff_ne]
          rintro rfl
          exact hrest rfl
        simp [List.isPrefixOf, hr]
    | cons u ts => simp [List.isPrefixOf]

/-- Tokens in which no operator qualifies are passed over. -/
theorem cut?_append {ts rest : List String} (h : cut? op before depth ts = none)
    (hrest : rest.head? ≠ some "~") :
    cut? op before depth (ts ++ rest) =
      (cut? op (ts.getLast?.or before) (depth + bracketDepth ts) rest).map fun cut =>
        (ts ++ cut.1, cut.2) := by
  induction ts generalizing before depth with
  | nil => simp [bracketDepth]
  | cons t ts ih =>
    have onward {d : Int}
        (h : (cut? op (some t) d ts).map (fun cut => (t :: cut.1, cut.2)) = none) :
        (cut? op (some t) d (ts ++ rest)).map (fun cut => (t :: cut.1, cut.2)) =
          (cut? op (ts.getLast?.or (some t)) (d + bracketDepth ts) rest).map fun cut =>
            (t :: ts ++ cut.1, cut.2) := by
      rw [ih (Option.map_eq_none_iff.mp h), Option.map_map]
      rfl
    rw [cut?] at h
    rw [List.cons_append, cut?, getLast?_cons_or, bracketDepth, ← Int.add_assoc,
      isPrefixOf_tokens_append op t ts hrest]
    cases hside : sideOfSpelling t with
    | opening =>
      rw [hside] at h
      exact onward h
    | closing =>
      rw [hside] at h
      exact onward h
    | plain =>
      rw [hside] at h
      simp only at h ⊢
      split at h
      · cases h
      · next hnot =>
        rw [if_neg hnot, onward h]
        simp [Side.change]

/-- Of the token before an expression only matters whether an operand starts after it. -/
theorem cut?_congr {other : Option String} (h : startsOperand before = startsOperand other)
    (ts : List String) : cut? op before depth ts = cut? op other depth ts := by
  cases ts with
  | nil => rfl
  | cons t ts => rw [cut?, cut?, h]

end

/-- Where no operator is found, none of the table makes a cut. -/
theorem cut?_of_slots_eq_one {tokens : List String} (h : (classify tokens).slots = 1)
    (op : VectorOp) : cut? op none 0 tokens = none := by
  have hchosen : chosen? tokens = none := by
    cases hc : chosen? tokens with
    | none => rfl
    | some q =>
      have hslots := (accounts_classify tokens).slots_eq q hc
      have hpos := List.length_pos_iff.mpr (qualifying_ne_nil hc)
      omega
  have hnone : qualifying op tokens = [] := by
    simpa using List.find?_eq_none.mp hchosen op (by cases op <;> decide)
  have hplaces : placesAfter op [] tokens = 0 := by
    rw [← length_qualifying, hnone]
    rfl
  cases hcut : cut? op none 0 tokens with
  | none => rfl
  | some cut =>
    obtain ⟨left, right⟩ := cut
    have hone := (@placesAfter_of_cut?_eq_some op [] tokens left right hcut).2
    omega

/-- With one slot all tokens are passed on. -/
theorem expr_of_slots_eq_one {tokens : List String} (h : (classify tokens).slots = 1) :
    (classify tokens).expr = .pass (renderExpr tokens) := by
  have hnone : firstSplit? tokens = none := by
    rw [firstSplit?, List.findSome?_eq_none_iff]
    intro op _
    rw [slots_of_cut?_eq_none (cut?_of_slots_eq_one h op)]
  rw [classify, hnone]

theorem tokens_injective {op q : VectorOp} (h : op.tokens = q.tokens) : op = q := by
  revert h
  cases op <;> cases q <;> decide

section
variable {op : VectorOp} {sign : String} {left right : List String}

/-- Between tokens without operators, an operator of one token is the only one that begins. -/
theorem isPrefixOf_join_iff (hop : op.tokens = [sign]) (hright : (classify right).slots = 1)
    (q : VectorOp) : q.tokens.isPrefixOf (sign :: right) = true ↔ q = op := by
  constructor
  · intro hq
    rcases q.tokens_cases with ⟨t, ht⟩ | htwo
    · rw [ht] at hq
      have hsign : t = sign := by simpa using hq
      exact tokens_injective (by rw [ht, hop, hsign])
    · -- A `~` after the sign would be a negation in the right part.
      rw [htwo] at hq
      obtain ⟨-, others, rfl⟩ : "&" = sign ∧ ∃ others, right = "~" :: others := by
        cases right with
        | nil => simp at hq
        | cons r others =>
          simp only [List.isPrefixOf, Bool.and_eq_true, beq_iff_eq] at hq
          exact ⟨hq.1, others, by rw [hq.2.1]⟩
      have hcut := cut?_of_slots_eq_one hright .neg
      simp [cut?, VectorOp.tokens, sideOfSpelling] at hcut
  · rintro rfl
    simp [hop]

/-- Tokens without operators, with an operator of one token between them, are cut at that place by
the operator, and nowhere by any other. -/
theorem slots_join (hop : op.tokens = [sign]) (hneg : op ≠ .neg)
    (hstarts : startsOperand (some sign) = true) (hleft : (classify left).slots = 1)
    (hdepth : bracketDepth left = 0) (hlast : startsOperand left.getLast? = false)
    (hright : (classify right).slots = 1) (q : VectorOp) :
    slots q none (left ++ sign :: right) =
      if q = op then [left, right] else [left ++ sign :: right] := by
  have hmem : sign ∈ op.tokens := hop ▸ List.mem_cons_self
  have hside := VectorOp.side_of_mem_tokens hmem
  have htilde : (sign :: right).head? ≠ some "~" := by
    intro hhead
    obtain rfl : sign = "~" := Option.some.inj hhead
    exact hneg (tokens_injective hop)
  have hagain : ∀ q, cut? q (some sign) 0 right = none := by
    intro q
    rw [cut?_congr (hstarts.trans rfl : _ = startsOperand none)]
    exact cut?_of_slots_eq_one hright q
  have hpass := cut?_append (cut?_of_slots_eq_one hleft q) htilde
  rw [hdepth, Int.add_zero, Option.or_none, cut?, hside] at hpass
  by_cases hq : q = op
  · subst hq
    have hmatches := (isPrefixOf_join_iff hop hright q).mpr rfl
    have hcut : cut? q none 0 (left ++ sign :: right) = some (left, right) := by
      simpa [hmatches, hlast, hop] using hpass
    rw [if_pos rfl, slots_of_cut?_eq_some hcut, hop, List.getLast?_singleton,
      slots_of_cut?_eq_none (hagain q)]
  · have hmatches : q.tokens.isPrefixOf (sign :: right) = false :=
      Bool.eq_false_iff.mpr (mt (isPrefixOf_join_iff hop hright q).mp hq)
    rw [if_neg hq]
    refine slots_of_cut?_eq_none ?_
    simpa [hmatches, hagain q] using hpass

/-- Tokens without operators, with an operator of one token between them, are one application of
it. -/
theorem classify_join (hop : op.tokens = [sign]) (hneg : op ≠ .neg)
    (hstarts : startsOperand (some sign) = true) (hleft : (classify left).slots = 1)
    (hdepth : bracketDepth left = 0) (hlast : startsOperand left.getLast? = false)
    (hright : (classify right).slots = 1) (hne : right ≠ []) :
    classify (left ++ sign :: right) = ⟨.binary op (renderExpr left) (renderExpr right), 2⟩ := by
  have hslots := slots_join hop hneg hstarts hleft hdepth hlast hright
  have hfirst : firstSplit? (left ++ sign :: right) = some (op, [left, right]) := by
    rw [firstSplit?, List.findSome?_eq_some_iff]
    have hmem : op ∈ VectorOp.all := by cases op <;> decide
    obtain ⟨earlier, later, hall⟩ := List.append_of_mem hmem
    have hnodup : VectorOp.all.Nodup := by decide
    refine ⟨earlier, op, later, hall, by rw [hslots op, if_pos rfl], fun q hq => ?_⟩
    have hqop : q ≠ op := by
      rintro rfl
      rw [hall] at hnodup
      exact (List.nodup_append.mp hnodup).2.2 q hq q List.mem_cons_self rfl
    rw [hslots q, if_neg hqop]
  have hleftNe : left ≠ [] := by
    rintro rfl
    cases hlast
  rw [classify, hfirst]
  simp [applied, hleftNe, hne]

end

end Operands

open Operands

/-- The six signs of compound assignments, each with its operator. -/
theorem compoundOp?_eq_some_iff {sign : String} {op : VectorOp} :
    compoundOp? sign = some op ↔
      (sign, op) ∈ [("+=", VectorOp.add), ("-=", .sub), ("*=", .mul), ("/=", .div), ("&=", .and),
        ("|=", .or)] := by
  constructor
  · intro h
    unfold compoundOp? at h
    split at h
    case h_7 => cases h
    all_goals
      cases h
      decide
  · intro h
    simp only [List.mem_cons, Prod.mk.injEq, List.not_mem_nil, or_false] at h
    rcases h with ⟨rfl, rfl⟩ | ⟨rfl, rfl⟩ | ⟨rfl, rfl⟩ | ⟨rfl, rfl⟩ | ⟨rfl, rfl⟩ | ⟨rfl, rfl⟩ <;> rfl

/-- The operator of a compound assignment joins two operands and is one token, after which an
operand starts. -/
theorem exists_token_of_compoundOp? {sign : String} {op : VectorOp}
    (h : compoundOp? sign = some op) :
    ∃ token, op.tokens = [token] ∧ op ≠ .neg ∧ startsOperand (some token) = true := by
  have hpair := compoundOp?_eq_some_iff.mp h
  simp only [List.mem_cons, Prod.mk.injEq, List.not_mem_nil, or_false] at hpair
  rcases hpair with ⟨-, rfl⟩ | ⟨-, rfl⟩ | ⟨-, rfl⟩ | ⟨-, rfl⟩ | ⟨-, rfl⟩ | ⟨-, rfl⟩
  all_goals exact ⟨_, rfl, by decide, by decide⟩

/-- An operation is annotated without handing out masks. -/
theorem annotateStmt_operation (label : Label) (next : Nat) {n : Node String}
    (h : n.kind = .operation) :
    annotateStmt label next n =
      .ok ⟨(annotateOperation label n).1, next, (annotateOperation label n).2⟩ := by
  obtain ⟨kind, spelling, tokens, children, span⟩ := n
  cases h
  rfl

section
variable {sign : String} {op : VectorOp} {target value : List String}

/-- A compound assignment of a value without operators. -/
theorem annotateOperation_compound (hop : compoundOp? sign = some op) (ht : target ≠ [])
    (hdepth : bracketDepth target = 0) (hassigns : AssignsNothing target) (hv : value ≠ [])
    (hslots : (classify value).slots = 1) (label : Label) {n : Node String}
    (hn : n.tokens = target ++ sign :: value) :
    annotateOperation label n =
      (some (.assign label (renderExpr target)
        (.binary op (renderExpr target) (renderExpr value)) n.span), []) := by
  have hsign : isAssignmentSign sign = true := by simp [isAssignmentSign, hop]
  rw [annotateOperation, hn, cutAssignment?_append value hdepth hassigns hsign]
  simp [ht, hv, hop, expr_of_slots_eq_one hslots]

/-- A plain assignment keeps what its value is classified as. -/
theorem annotateOperation_plain (ht : target ≠ []) (hdepth : bracketDepth target = 0)
    (hassigns : AssignsNothing target) (hv : value ≠ []) (label : Label) {n : Node String}
    (hn : n.tokens = target ++ "=" :: value) :
    annotateOperation label n =
      (some (.assign label (renderExpr target) (classify value).expr n.span),
        slotNotice n (classify value).slots) := by
  rw [annotateOperation, hn, cutAssignment?_append value hdepth hassigns rfl]
  simp [ht, hv, compoundOp?]

end

/-- A compound assignment is the assignment it stands for. Let `target` be balanced tokens in which
no assignment and no operator stands outside brackets and after which an operand does not start, and
let `value` be tokens without operators, balanced or not. Then `target op= value`, with one of the
six signs that `compoundOp?_eq_some_iff` names, and `target = target op value` are annotated, with
nothing reported, as the same assignment of `op` applied to both. -/
theorem compound_assignment_expands {sign : String} {op : VectorOp} {target value : List String}
    (hop : compoundOp? sign = some op) (ht : target ≠ []) (hdepth : bracketDepth target = 0)
    (hassigns : AssignsNothing target) (hslots : (classify target).slots = 1)
    (hlast : startsOperand target.getLast? = false) (hv : value ≠ [])
    (hvalue : (classify value).slots = 1) (label : Label) (next : Nat) (short long : Node String)
    (hshort : short.kind = .operation ∧ short.tokens = target ++ sign :: value)
    (hlong : long.kind = .operation ∧
      long.tokens = target ++ "=" :: (target ++ op.tokens ++ value)) :
    annotateStmt label next short =
        .ok ⟨some (.assign label (renderExpr target)
          (.binary op (renderExpr target) (renderExpr value)) short.span), next, []⟩ ∧
      annotateStmt label next long =
        .ok ⟨some (.assign label (renderExpr target)
          (.binary op (renderExpr target) (renderExpr value)) long.span), next, []⟩ := by
  obtain ⟨token, htoken, hneg, hstarts⟩ := exists_token_of_compoundOp? hop
  have hjoin := classify_join htoken hneg hstarts hslots hdepth hlast hvalue hv
  constructor
  · rw [annotateStmt_operation label next hshort.1,
      annotateOperation_compound hop ht hdepth hassigns hv hvalue label hshort.2]
  · have htokens : long.tokens = target ++ "=" :: (target ++ token :: value) := by
      rw [hlong.2, htoken, List.append_assoc, List.singleton_append]
    rw [annotateStmt_operation label next hlong.1,
      annotateOperation_plain ht hdepth hassigns (by simp) label htokens, hjoin]
    rfl

/-- Signs and brackets on both sides do not matter, nor does an `=` inside brackets. -/
theorem compound_assignment_expands_masked :
    annotateStmt (.mask 1) 2
        ⟨.operation, "", ["*", "p", "[", "i", "=", "0", "]", "&=", "-", "q"], [], ⟨0, 9⟩⟩ =
      .ok ⟨some (.assign (.mask 1) "*p[i = 0]" (.binary .and "*p[i = 0]" "-q") ⟨0, 9⟩), 2, []⟩ ∧
    annotateStmt (.mask 1) 2
        ⟨.operation, "", ["*", "p", "[", "i", "=", "0", "]", "=", "*", "p", "[", "i", "=", "0", "]",
          "&", "-", "q"], [], ⟨0, 9⟩⟩ =
      .ok ⟨some (.assign (.mask 1) "*p[i = 0]" (.binary .and "*p[i = 0]" "-q") ⟨0, 9⟩), 2, []⟩ := by
  have htarget : renderExpr ["*", "p", "[", "i", "=", "0", "]"] = "*p[i = 0]" := by decide +kernel
  have hvalue : renderExpr ["-", "q"] = "-q" := by decide +kernel
  rw [← htarget, ← hvalue]
  exact compound_assignment_expands rfl (by decide) (by decide) (by decide +kernel)
    (by decide +kernel) (by decide) (by decide) (by decide +kernel) (.mask 1) 2 _ _ ⟨rfl, rfl⟩
    ⟨rfl, rfl⟩

end VertexLanes
