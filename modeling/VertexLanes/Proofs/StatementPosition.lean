import Mathlib.Data.List.Basic
import VertexLanes.Proofs.Annotation

/-!
# Statements in statement position

The statements that an annotation looks at are those that can be reached from a
body through blocks and through the branches of conditionals; what stands inside
a call, a test or a declaration is none of them. Whether an annotation fails is
decided by these statements one at a time: it fails at the first of them, in the
order of the source, that does not have the shape of its kind.
-/

namespace VertexLanes

section
variable {τ : Type}

mutual
/-- The statements in statement position inside a statement. -/
def Node.inner : Node τ → List (Node τ)
  | ⟨.block, _, _, children, _⟩ => positions children
  | ⟨.conditional, _, _, _ :: branches, _⟩ => innerOf branches
  | _ => []
/-- The statements in statement position inside the branches of a conditional. -/
def innerOf : List (Node τ) → List (Node τ)
  | [] => []
  | b :: bs => b.inner ++ innerOf bs
/-- The statements in statement position of a sequence, each before those inside it. -/
def positions : List (Node τ) → List (Node τ)
  | [] => []
  | n :: ns => n :: (n.inner ++ positions ns)
end

/-- The kinds of statement that hold statements. -/
def NodeKind.nests (kind : NodeKind) : Bool := kind == .block || kind == .conditional

/-- Inside a block are the positions of its statements. -/
theorem Node.inner_of_block {n : Node τ} (hk : n.kind = .block) :
    n.inner = positions n.children := by
  obtain ⟨kind, spelling, tokens, children, span⟩ := n
  cases hk
  rfl

/-- Inside a conditional are the positions in its branches. -/
theorem Node.inner_of_conditional {n test : Node τ} {branches : List (Node τ)}
    (hk : n.kind = .conditional) (hc : n.children = test :: branches) :
    n.inner = innerOf branches := by
  obtain ⟨kind, spelling, tokens, children, span⟩ := n
  cases hk
  cases hc
  rfl

theorem Node.inner_of_simple {n : Node τ} (hk : n.kind.nests = false) : n.inner = [] := by
  obtain ⟨kind, spelling, tokens, children, span⟩ := n
  cases kind with
  | block => cases hk
  | conditional => cases hk
  | _ => rfl

/-- The positions in two lists are those in the one and then in the other. -/
theorem positions_append (ns ms : List (Node τ)) :
    positions (ns ++ ms) = positions ns ++ positions ms := by
  induction ns with
  | nil => rfl
  | cons n ns ih => simp only [List.cons_append, positions, ih, List.append_assoc]

/-- The positions in branches are those inside each of them. -/
theorem innerOf_eq_flatMap (branches : List (Node τ)) :
    innerOf branches = branches.flatMap Node.inner := by
  induction branches with
  | nil => rfl
  | cons b bs ih => rw [innerOf, ih, List.flatMap_cons]

/-- A block is a position, before those inside it. -/
theorem positions_cons_block {n : Node τ} (hk : n.kind = .block) (ns : List (Node τ)) :
    positions (n :: ns) = n :: (positions n.children ++ positions ns) := by
  rw [positions, Node.inner_of_block hk]

/-- A simple statement is one position. -/
theorem positions_cons_simple {n : Node τ} (hk : n.kind.nests = false) (ns : List (Node τ)) :
    positions (n :: ns) = n :: positions ns := by
  rw [positions, Node.inner_of_simple hk, List.nil_append]

/-- Every statement in statement position has a property. -/
def AllPositions (p : Node τ → Prop) (ns : List (Node τ)) : Prop := ∀ n ∈ positions ns, p n

variable {p : Node τ → Prop}

theorem allPositions_nil : AllPositions p [] := by
  intro n hn
  cases hn

/-- A property holds at all positions of two lists if it does in each of them. -/
theorem allPositions_append {ns ms : List (Node τ)} :
    AllPositions p (ns ++ ms) ↔ AllPositions p ns ∧ AllPositions p ms := by
  rw [AllPositions, positions_append, List.forall_mem_append]
  rfl

/-- A simple statement has no other position than itself. -/
theorem allPositions_simple {n : Node τ} (hk : n.kind.nests = false) :
    AllPositions p [n] ↔ p n := by
  rw [AllPositions, positions_cons_simple hk, positions, List.forall_mem_singleton]

/-- The positions of a block are itself and those of its statements. -/
theorem allPositions_block {n : Node τ} (hk : n.kind = .block) :
    AllPositions p [n] ↔ p n ∧ AllPositions p n.children := by
  rw [AllPositions, positions_cons_block hk, positions, List.append_nil, List.forall_mem_cons]
  rfl

/-- The positions of a conditional are itself and those of the statements in its branches. -/
theorem allPositions_conditional {n test : Node τ} {branches : List (Node τ)}
    (hk : n.kind = .conditional) (hc : n.children = test :: branches)
    (hb : ∀ b ∈ branches, b.kind = .block) :
    AllPositions p [n] ↔ p n ∧ ∀ b ∈ branches, AllPositions p b.children := by
  rw [AllPositions, positions, positions, List.append_nil, Node.inner_of_conditional hk hc,
    innerOf_eq_flatMap, List.forall_mem_cons, List.forall_mem_flatMap]
  refine and_congr_right fun _ => forall_congr' fun b => forall_congr' fun hmem => ?_
  rw [Node.inner_of_block (hb b hmem)]
  rfl

end

/-- The branches of a conditional without fault hold the statements of their blocks. -/
theorem innerOf_of_conditionalFault? {test : Node String} {branches : List (Node String)}
    (h : conditionalFault? (test :: branches) = none) :
    innerOf branches = branches.flatMap fun b => positions b.children := by
  rw [innerOf_eq_flatMap]
  exact List.flatMap_congr fun b hb => Node.inner_of_block (branch_kind_of_conditionalFault? h hb)

/-- A conditional is a position, before those in its branches. -/
theorem positions_cons_conditional {n test : Node String} {branches : List (Node String)}
    (hk : n.kind = .conditional) (hc : n.children = test :: branches)
    (hf : conditionalFault? n.children = none) (ns : List (Node String)) :
    positions (n :: ns) =
      n :: ((branches.flatMap fun b => positions b.children) ++ positions ns) := by
  rw [hc] at hf
  rw [positions, Node.inner_of_conditional hk hc, innerOf_of_conditionalFault? hf]

/-- Whether the name of a call tells the vertex and the message of a send: it has exactly four
parts, and the last two are not empty. -/
def Node.namesSend (n : Node String) : Bool :=
  match Text.splitAtChar '_' n.spelling.toList with
  | [_, _, vertex, message] => !vertex.isEmpty && !message.isEmpty
  | _ => false

/-- Whether a statement is a call that is named like a send, but neither by its name nor by two
arguments tells its vertex and its message. -/
def Node.unreadableSend (n : Node String) : Bool :=
  n.kind == .call && sendMarker.toList.isPrefixOf n.spelling.toList && !n.namesSend &&
    n.children.length != 2

/-- What is wrong with a statement, the statements inside it apart. -/
def Node.malformation? (n : Node String) : Option Malformation :=
  match n.kind with
  | .conditional => conditionalFault? n.children
  | _ => if n.unreadableSend then some .unreadableSend else none

/-- The fault of a statement at its place. -/
def Node.bodyFault? (n : Node String) : Option (Located BodyFault) :=
  n.malformation?.map fun what => ⟨.malformed what, n.span⟩

/-- A call tells no vertex and message exactly if neither its name nor two arguments do. -/
theorem sendParts?_eq_none_iff (n : Node String) :
    sendParts? n = none ↔ n.namesSend = false ∧ n.children.length ≠ 2 := by
  unfold sendParts? Node.namesSend
  split
  · next vertex message hc =>
    rw [hc]
    split
    · split <;> simp
    · simp
  · next hc =>
    have hlen : n.children.length ≠ 2 := by
      intro h
      obtain ⟨vertex, message, he⟩ := List.length_eq_two.mp h
      exact hc vertex message he
    split
    · split <;> grind
    · simp [hlen]

/-- A computation in two steps fails as its first step does, else as its second. -/
theorem fault?_bind {ε α β : Type} {x : Except ε α} {f : α → Except ε β}
    {first second whole : Option ε} (hx : fault? x = first) (hf : ∀ a, fault? (f a) = second)
    (h : first.or second = whole) : fault? (x >>= f) = whole := by
  subst hx h
  cases x with
  | error e => rfl
  | ok a => exact hf a

/-- A call fails exactly if it is an unreadable send. -/
theorem fault?_annotateCall (label : Label) {n : Node String} (hk : n.kind = .call) :
    fault? (annotateCall label n) = n.bodyFault? := by
  have hm : n.malformation? = if n.unreadableSend then some .unreadableSend else none := by
    simp [Node.malformation?, hk]
  rw [Node.bodyFault?, hm, annotateCall]
  by_cases hp : sendMarker.toList.isPrefixOf n.spelling.toList = true
  · have hu : n.unreadableSend = true ↔ sendParts? n = none := by
      simp [Node.unreadableSend, hk, hp, sendParts?_eq_none_iff]
    rw [if_pos hp]
    cases hs : sendParts? n with
    | none => rw [if_pos (hu.mpr hs)]; rfl
    | some parts => rw [if_neg (by simp [hu, hs])]; rfl
  · have hu : n.unreadableSend = false := by simp [Node.unreadableSend, hp]
    rw [if_neg hp, hu]
    rfl

/-- The first fault of a statement is its own or, if it has none, the first of those inside it. -/
theorem findSome?_cons_inner (n : Node String) :
    (n :: n.inner).findSome? Node.bodyFault? =
      n.bodyFault?.or (n.inner.findSome? Node.bodyFault?) := by
  rw [List.findSome?_cons]
  cases n.bodyFault? <;> rfl

/-- A conditional fails by its own shape, else as its branches do. -/
theorem findSome?_conditional {n test : Node String} {branches : List (Node String)}
    (hk : n.kind = .conditional) (hc : n.children = test :: branches) :
    (n :: n.inner).findSome? Node.bodyFault? =
      match conditionalFault? (test :: branches) with
      | some what => some ⟨.malformed what, n.span⟩
      | none => (branches.flatMap fun b => positions b.children).findSome? Node.bodyFault? := by
  rw [findSome?_cons_inner, Node.inner_of_conditional hk hc, Node.bodyFault?, Node.malformation?,
    hk, ← hc]
  cases hf : conditionalFault? n.children with
  | some what => rfl
  | none =>
    rw [hc] at hf
    rw [innerOf_of_conditionalFault? hf]
    rfl

mutual
/-- Annotating a statement fails at the first malformed one among it and those inside it. -/
theorem fault?_annotateStmt : ∀ (n : Node String) (label : Label) (next : Nat),
    fault? (annotateStmt label next n) = (n :: n.inner).findSome? Node.bodyFault?
  | ⟨.block, spelling, tokens, children, span⟩, label, next => by
    rw [annotateStmt, findSome?_cons_inner]
    exact fault?_bind (fault?_annotateStmts children label next) (fun _ => rfl) Option.or_none
  | ⟨.conditional, spelling, tokens, [test, ⟨kind, name, inside, stmts, thenSpan⟩], span⟩,
      label, next => by
    rw [annotateStmt, findSome?_conditional rfl rfl]
    cases hf : conditionalFault? [test, ⟨kind, name, inside, stmts, thenSpan⟩] with
    | some what => rfl
    | none => exact fault?_bind (fault?_annotateStmts stmts _ _) (fun _ => rfl) (by simp)
  | ⟨.conditional, spelling, tokens, [test, ⟨kind, name, inside, stmts, thenSpan⟩,
      ⟨elseKind, elseName, elseTokens, others, elseSpan⟩], span⟩, label, next => by
    rw [annotateStmt, findSome?_conditional rfl rfl]
    cases hf : conditionalFault? [test, ⟨kind, name, inside, stmts, thenSpan⟩,
        ⟨elseKind, elseName, elseTokens, others, elseSpan⟩] with
    | some what => rfl
    | none =>
      have ihElse := fault?_annotateStmts others
      refine fault?_bind (fault?_annotateStmts stmts _ _) (fun body =>
        fault?_bind (ihElse _ _) (fun _ => rfl) Option.or_none) ?_
      simp
  | ⟨.conditional, _, _, [], _⟩, _, _ => rfl
  | ⟨.conditional, _, _, [_], _⟩, _, _ => rfl
  | ⟨.conditional, _, _, _ :: ⟨_, _, _, _, _⟩ :: ⟨_, _, _, _, _⟩ :: _ :: _, _⟩, _, _ => by
    rw [findSome?_conditional rfl rfl, conditionalFault?, if_neg (by simp)]
    rfl
  | ⟨.operation, _, _, _, _⟩, _, _ => rfl
  | ⟨.declaration, _, _, _, _⟩, _, _ => rfl
  | ⟨.call, spelling, tokens, children, span⟩, label, next => by
    rw [annotateStmt, findSome?_cons_inner, Node.inner_of_simple rfl]
    exact fault?_bind (fault?_annotateCall label rfl) (fun _ => rfl) rfl
  | ⟨.return, _, _, _, _⟩, _, _ => rfl
  | ⟨.other, _, _, _, _⟩, _, _ => rfl
/-- Annotating statements fails at the first malformed one in statement position. -/
theorem fault?_annotateStmts : ∀ (ns : List (Node String)) (label : Label) (next : Nat),
    fault? (annotateStmts label next ns) = (positions ns).findSome? Node.bodyFault?
  | [], _, _ => rfl
  | n :: ns, label, next => by
    rw [annotateStmts, positions, ← List.cons_append, List.findSome?_append]
    have ihRest := fault?_annotateStmts ns label
    exact fault?_bind (fault?_annotateStmt n label next) (fun first =>
      fault?_bind (ihRest first.next) (fun _ => rfl) Option.or_none) rfl
end

/-- A body that is a block fails at its first malformed statement, and otherwise is annotated. -/
theorem fault?_annotate {body : Node String} (hk : body.kind = .block) :
    fault? (annotate body) = (positions body.children).findSome? Node.bodyFault? := by
  simp only [annotate, hk, ne_eq, not_true_eq_false, ↓reduceIte]
  exact fault?_bind (fault?_annotateStmts body.children .root 1) (fun _ => rfl) Option.or_none

end VertexLanes
