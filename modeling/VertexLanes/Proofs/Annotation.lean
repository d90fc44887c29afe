import VertexLanes.Body.Annotate

/-!
# The walk over a phase body

What the annotation of a statement sequence can do is said once, by a relation
with one rule for each shape of statement. The rules name every label that is
handed out and every notice, and every successful annotation follows them.
-/

namespace VertexLanes

/-- A sequence of two computations succeeds through an intermediate result. -/
theorem bind_eq_ok_iff {ε α β : Type} {x : Except ε α} {f : α → Except ε β} {b : β} :
    (x >>= f) = .ok b ↔ ∃ a, x = .ok a ∧ f a = .ok b := by
  cases x with
  | error e => simp [bind, Except.bind]
  | ok a => simp [bind, Except.bind]

/-- A view of the result shows that a computation succeeds. -/
theorem exists_eq_ok {ε α β : Type} {x : Except ε α} {f : α → β} {b : β}
    (h : x.toOption.map f = some b) : ∃ a, x = .ok a ∧ f a = b := by
  cases x with
  | error e => simp [Except.toOption] at h
  | ok a => exact ⟨a, rfl, by simpa [Except.toOption] using h⟩

/-- The annotation of a statement that holds no statements of its own: what is kept of it, and the
notices. -/
inductive Simple (label : Label) (n : Node String) :
    Option Stmt → List (Located BodyNotice) → Prop
  | operation {kept notes} (hk : n.kind = .operation)
      (h : annotateOperation label n = (kept, notes)) : Simple label n kept notes
  | declaration (hk : n.kind = .declaration) : Simple label n (some (.declare label n.tokens)) []
  | call {kept notes} (hk : n.kind = .call)
      (h : annotateCall label n = .ok (kept, notes)) : Simple label n kept notes
  | return (hk : n.kind = .return) :
      Simple label n (some (.return label (n.children.head?.map fun e => renderExpr e.tokens))) []
  | other (hk : n.kind = .other) : Simple label n none (dropNotice n .unsupported)

/-- The walk over statements under a label, where `next` is the first number not handed out. -/
inductive Walk : Label → Nat → List (Node String) → Noted (List Stmt) → Prop
  | nil {label next} : Walk label next [] ⟨[], next, []⟩
  /-- A block keeps the label. -/
  | block {label next n ns body r} (hk : n.kind = .block)
      (inner : Walk label next n.children body) (rest : Walk label body.next ns r) :
      Walk label next (n :: ns)
        ⟨.block ⟨label, body.value⟩ :: r.value, r.next, body.notices ++ r.notices⟩
  /-- A conditional takes a label before it walks its branch. -/
  | ifThen {label next n ns test first body r} (hk : n.kind = .conditional)
      (hc : n.children = [test, first]) (hf : conditionalFault? n.children = none)
      (inner : Walk (.mask next) (next + 1) first.children body)
      (rest : Walk label body.next ns r) :
      Walk label next (n :: ns)
        ⟨.ifThen label ⟨.mask next, label, (Operands.classify test.tokens).expr, test.span⟩
            ⟨.mask next, body.value⟩ n.span :: r.value,
          r.next,
          slotNotice test (Operands.classify test.tokens).slots ++ body.notices ++ r.notices⟩
  /-- The label of an else branch is taken after the first branch is walked. -/
  | ifElse {label next n ns test first second body others r} (hk : n.kind = .conditional)
      (hc : n.children = [test, first, second]) (hf : conditionalFault? n.children = none)
      (inner : Walk (.mask next) (next + 1) first.children body)
      (elseInner : Walk (.mask body.next) (body.next + 1) second.children others)
      (rest : Walk label others.next ns r) :
      Walk label next (n :: ns)
        ⟨.ifElse label ⟨.mask next, label, (Operands.classify test.tokens).expr, test.span⟩
            ⟨.mask next, body.value⟩ ⟨.mask body.next, label, .complement (.mask next), second.span⟩
            ⟨.mask body.next, others.value⟩ n.span :: r.value,
          r.next,
          slotNotice test (Operands.classify test.tokens).slots ++ body.notices ++
            others.notices ++ r.notices⟩
  | kept {label next n ns s notes r} (simple : Simple label n (some s) notes)
      (rest : Walk label next ns r) :
      Walk label next (n :: ns) ⟨s :: r.value, r.next, notes ++ r.notices⟩
  | dropped {label next n ns notes r} (simple : Simple label n none notes)
      (rest : Walk label next ns r) :
      Walk label next (n :: ns) ⟨r.value, r.next, notes ++ r.notices⟩

/-- A statement without statements inside extends a walk by what is kept of it. -/
theorem Simple.walk {label : Label} {next : Nat} {n : Node String} {ns : List (Node String)}
    {kept : Option Stmt} {notes : List (Located BodyNotice)} {r : Noted (List Stmt)}
    (h : Simple label n kept notes) (rest : Walk label next ns r) :
    Walk label next (n :: ns) ⟨kept.toList ++ r.value, r.next, notes ++ r.notices⟩ := by
  cases kept with
  | none => exact .dropped h rest
  | some s => exact .kept h rest

/-- Both branches of a conditional without fault are blocks. -/
theorem branch_kind_of_conditionalFault? {test b : Node String} {branches : List (Node String)}
    (h : conditionalFault? (test :: branches) = none) (hb : b ∈ branches) : b.kind = .block := by
  simp only [conditionalFault?] at h
  split at h
  · split at h
    · cases h
    · split at h
      · next hall => simpa using List.all_eq_true.mp hall b hb
      · cases h
  · cases h

mutual
/-- A statement that is annotated extends every walk over the statements after it. -/
theorem walk_of_annotateStmt : ∀ (n : Node String) {label : Label} {next : Nat}
    {out : Noted (Option Stmt)} {ns : List (Node String)} {r : Noted (List Stmt)},
    annotateStmt label next n = .ok out → Walk label out.next ns r →
    Walk label next (n :: ns) ⟨out.value.toList ++ r.value, r.next, out.notices ++ r.notices⟩
  | ⟨.block, _, _, children, _⟩, label, next, out, ns, r, h, rest => by
    rw [annotateStmt, bind_eq_ok_iff] at h
    obtain ⟨body, hb, hout⟩ := h
    cases hout
    exact .block rfl (walk_of_annotateStmts children hb) rest
  | ⟨.conditional, _, _, [test, ⟨kind, name, tokens, stmts, thenSpan⟩], _⟩,
      label, next, out, ns, r, h, rest => by
    rw [annotateStmt] at h
    cases hf : conditionalFault? [test, ⟨kind, name, tokens, stmts, thenSpan⟩] with
    | some what => rw [hf] at h; cases h
    | none =>
      rw [hf, bind_eq_ok_iff] at h
      obtain ⟨body, hb, hout⟩ := h
      cases hout
      exact .ifThen rfl rfl hf (walk_of_annotateStmts stmts hb) rest
  | ⟨.conditional, _, _, [test, ⟨kind, name, tokens, stmts, thenSpan⟩,
      ⟨elseKind, elseName, elseTokens, others, elseSpan⟩], _⟩,
      label, next, out, ns, r, h, rest => by
    rw [annotateStmt] at h
    cases hf : conditionalFault? [test, ⟨kind, name, tokens, stmts, thenSpan⟩,
        ⟨elseKind, elseName, elseTokens, others, elseSpan⟩] with
    | some what => rw [hf] at h; cases h
    | none =>
      rw [hf, bind_eq_ok_iff] at h
      obtain ⟨body, hb, h⟩ := h
      rw [bind_eq_ok_iff] at h
      obtain ⟨elseBody, he, hout⟩ := h
      cases hout
      exact @Walk.ifElse label next _ ns test ⟨kind, name, tokens, stmts, thenSpan⟩
        ⟨elseKind, elseName, elseTokens, others, elseSpan⟩ body elseBody r rfl rfl hf
        (walk_of_annotateStmts stmts hb) (walk_of_annotateStmts others he) rest
  | ⟨.conditional, _, _, [], _⟩, _, _, _, _, _, h, _ => by cases h
  | ⟨.conditional, _, _, [_], _⟩, _, _, _, _, _, h, _ => by cases h
  | ⟨.conditional, _, _, _ :: ⟨_, _, _, _, _⟩ :: ⟨_, _, _, _, _⟩ :: _ :: _, _⟩,
      _, _, _, _, _, h, _ => by cases h
  | ⟨.operation, _, _, _, _⟩, _, _, _, _, _, h, rest => by
    cases h
    exact (Simple.operation rfl rfl).walk rest
  | ⟨.declaration, _, _, _, _⟩, _, _, _, _, _, h, rest => by
    cases h
    exact (Simple.declaration rfl).walk rest
  | ⟨.call, _, _, _, _⟩, _, _, _, _, _, h, rest => by
    rw [annotateStmt, bind_eq_ok_iff] at h
    obtain ⟨⟨kept, notes⟩, hcall, hout⟩ := h
    cases hout
    exact (Simple.call rfl hcall).walk rest
  | ⟨.return, _, _, _, _⟩, _, _, _, _, _, h, rest => by
    cases h
    exact (Simple.return rfl).walk rest
  | ⟨.other, _, _, _, _⟩, _, _, _, _, _, h, rest => by
    cases h
    exact (Simple.other rfl).walk rest
/-- A successful annotation of statements is a walk over them. -/
theorem walk_of_annotateStmts : ∀ (ns : List (Node String)) {label : Label} {next : Nat}
    {r : Noted (List Stmt)}, annotateStmts label next ns = .ok r → Walk label next ns r
  | [], label, next, r, h => by
    cases h
    exact .nil
  | n :: ns, label, next, r, h => by
    rw [annotateStmts, bind_eq_ok_iff] at h
    obtain ⟨first, hfirst, h⟩ := h
    rw [bind_eq_ok_iff] at h
    obtain ⟨others, hothers, hr⟩ := h
    cases hr
    exact walk_of_annotateStmt n hfirst (walk_of_annotateStmts ns hothers)
end

/-- An annotated body was a block, and its statements were walked from the root label and the
number one. -/
theorem walk_of_annotate {body : Node String} {a : Annotated} (h : annotate body = .ok a) :
    body.kind = .block ∧
      ∃ r, Walk .root 1 body.children r ∧ a = ⟨⟨.root, r.value⟩, r.next - 1, r.notices⟩ := by
  by_cases hk : body.kind = .block
  · simp only [annotate, hk, ne_eq, not_true_eq_false, ↓reduceIte] at h
    obtain ⟨r, hr, hout⟩ := bind_eq_ok_iff.mp h
    cases hout
    exact ⟨hk, r, walk_of_annotateStmts _ hr, rfl⟩
  · simp only [annotate, ne_eq, hk, not_false_eq_true, ↓reduceIte] at h
    cases h

/-- Numbers are only handed out, never taken back. -/
theorem Walk.next_le {label : Label} {next : Nat} {ns : List (Node String)}
    {r : Noted (List Stmt)} (h : Walk label next ns r) : next ≤ r.next := by
  induction h with
  | nil => exact Nat.le_refl _
  | block _ _ _ ihInner ihRest => exact Nat.le_trans ihInner ihRest
  | ifThen _ _ _ _ _ ihInner ihRest => simp only at *; omega
  | ifElse _ _ _ _ _ _ ihInner ihElse ihRest => simp only at *; omega
  | kept _ _ ih => exact ih
  | dropped _ _ ih => exact ih

/-- Whether an expression is the complement of a mask. -/
def LaneExpr.isComplement : LaneExpr → Bool
  | .complement _ => true
  | _ => false

/-- An expression read from tokens is never a complement. -/
theorem classify_not_complement (tokens : List String) :
    (Operands.classify tokens).expr.isComplement = false := by
  unfold Operands.classify Operands.applied
  split
  · simp only
    split
    · rfl
    · split <;> rfl
    · rfl
  · rfl

/-- What is kept of an operation is an assignment under the label of the walk. -/
theorem annotateOperation_kept {label : Label} {n : Node String} {s : Stmt}
    {notes : List (Located BodyNotice)} (h : annotateOperation label n = (some s, notes)) :
    ∃ target value, s = .assign label target value n.span ∧ value.isComplement = false := by
  unfold annotateOperation at h
  split at h
  · cases h
  · split at h
    · cases h
    · simp only at h
      split at h
      · cases h
        exact ⟨_, _, rfl, classify_not_complement _⟩
      · cases h
        exact ⟨_, _, rfl, rfl⟩
      · cases h

/-- What is kept of a call is a send under the label of the walk. -/
theorem annotateCall_kept {label : Label} {n : Node String} {s : Stmt}
    {notes : List (Located BodyNotice)} (h : annotateCall label n = .ok (some s, notes)) :
    ∃ vertex message, s = .send label vertex message n.span := by
  unfold annotateCall at h
  split at h
  · split at h
    · cases h
      exact ⟨_, _, rfl⟩
    · cases h
  · cases h

/-- The statements that are kept of simple ones, by the kind they come from. -/
theorem Simple.kept_cases {label : Label} {n : Node String} {s : Stmt}
    {notes : List (Located BodyNotice)} (h : Simple label n (some s) notes) :
    (n.kind = .operation ∧ ∃ target value,
        s = .assign label target value n.span ∧ value.isComplement = false) ∨
      (n.kind = .declaration ∧ ∃ tokens, s = .declare label tokens) ∨
      (n.kind = .call ∧ ∃ vertex message, s = .send label vertex message n.span) ∨
      (n.kind = .return ∧ ∃ expr, s = .return label expr) := by
  cases h with
  | operation hk h => exact Or.inl ⟨hk, annotateOperation_kept h⟩
  | declaration hk => exact Or.inr (Or.inl ⟨hk, _, rfl⟩)
  | call hk h => exact Or.inr (Or.inr (Or.inl ⟨hk, annotateCall_kept h⟩))
  | «return» hk => exact Or.inr (Or.inr (Or.inr ⟨hk, _, rfl⟩))

end VertexLanes
