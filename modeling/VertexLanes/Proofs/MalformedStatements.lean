import VertexLanes.Proofs.StatementPosition

/-!
# Malformed statements

A body is refused because it is no block or because of a malformed statement, and
nothing else. A conditional is malformed if it does not have a test and one or two
blocks; a call is if it is named like a send and tells no vertex and message. The
annotation comes to the statements of a body in their order and does not look into
a malformed one, so what it reports is the first malformed statement it comes to.
-/

namespace VertexLanes

/-- A statement that does not have the shape of its kind. -/
inductive Node.Malformed (n : Node String) : Prop
  /-- A conditional with too few or too many children. -/
  | count (hk : n.kind = .conditional) (hcount : n.children.length ≠ 2 ∧ n.children.length ≠ 3)
  /-- A conditional that begins with a block. -/
  | test {test : Node String} (hk : n.kind = .conditional) (htest : n.children.head? = some test)
      (hblock : test.kind = .block)
  /-- A conditional with a branch that is no block. -/
  | branch {b : Node String} (hk : n.kind = .conditional) (hb : b ∈ n.children.tail)
      (hblock : b.kind ≠ .block)
  /-- A call that is named like a send, and neither by the parts of its name nor by two arguments
  tells its vertex and its message. -/
  | send (hk : n.kind = .call) (hmarker : sendMarker.toList <+: n.spelling.toList)
      (hparts : ¬∃ first second vertex message,
        Text.splitAtChar '_' n.spelling.toList = [first, second, vertex, message] ∧
          vertex ≠ [] ∧ message ≠ [])
      (hcount : n.children.length ≠ 2)

/-- A spelling names a send if its third and fourth word are there and are the last. -/
theorem Node.namesSend_iff (n : Node String) :
    n.namesSend = true ↔ ∃ first second vertex message,
      Text.splitAtChar '_' n.spelling.toList = [first, second, vertex, message] ∧
        vertex ≠ [] ∧ message ≠ [] := by
  unfold Node.namesSend
  constructor
  · intro h
    split at h
    · next first second vertex message hsplit =>
      exact ⟨first, second, vertex, message, hsplit, by simpa using h⟩
    · cases h
  · rintro ⟨first, second, vertex, message, hsplit, hvertex, hmessage⟩
    simp [hsplit, hvertex, hmessage]

/-- The shape of a conditional without fault. -/
theorem conditionalFault?_eq_none_iff (children : List (Node String)) :
    conditionalFault? children = none ↔
      (children.length = 2 ∨ children.length = 3) ∧
        (∀ test, children.head? = some test → test.kind ≠ .block) ∧
        ∀ b ∈ children.tail, b.kind = .block := by
  cases children with
  | nil => simp [conditionalFault?]
  | cons test branches =>
    have hcount : ((test :: branches).length = 2 ∨ (test :: branches).length = 3) ↔
        branches.length = 1 ∨ branches.length = 2 := by
      rw [List.length_cons]
      omega
    have htest : (∀ u, (test :: branches).head? = some u → u.kind ≠ .block) ↔
        test.kind ≠ .block := by simp
    rw [hcount, htest, conditionalFault?]
    by_cases hlength : branches.length = 1 ∨ branches.length = 2
    · by_cases hblock : test.kind = .block
      · simp [hlength, hblock]
      · simp [hlength, hblock]
    · simp [hlength]

/-- A statement is malformed exactly if the annotation finds something wrong with it. -/
theorem Node.malformed_iff (n : Node String) : n.Malformed ↔ n.malformation? ≠ none := by
  have hconditional := conditionalFault?_eq_none_iff n.children
  have hnames := n.namesSend_iff
  constructor
  · intro h
    cases h with
    | count hk hcount =>
      rw [Node.malformation?, hk]
      intro hnone
      have hlength := (hconditional.mp hnone).1
      omega
    | test hk htest hblock =>
      rw [Node.malformation?, hk]
      exact fun hnone => (hconditional.mp hnone).2.1 _ htest hblock
    | branch hk hb hblock =>
      rw [Node.malformation?, hk]
      exact fun hnone => hblock ((hconditional.mp hnone).2.2 _ hb)
    | send hk hmarker hparts hcount =>
      have hsend : n.unreadableSend = true := by
        simp [Node.unreadableSend, hk, hcount, hmarker, mt hnames.mp hparts]
      simp [Node.malformation?, hk, hsend]
  · intro h
    by_cases hk : n.kind = .conditional
    · have hfault : conditionalFault? n.children ≠ none := by
        simpa [Node.malformation?, hk] using h
      by_cases hcount : n.children.length = 2 ∨ n.children.length = 3
      · by_cases htest : ∀ test, n.children.head? = some test → test.kind ≠ .block
        · have hbranch : ¬∀ b ∈ n.children.tail, b.kind = .block :=
            fun hbranches => hfault (hconditional.mpr ⟨hcount, htest, hbranches⟩)
          push Not at hbranch
          obtain ⟨b, hb, hblock⟩ := hbranch
          exact .branch hk hb hblock
        · push Not at htest
          obtain ⟨test, hhead, hblock⟩ := htest
          exact .test hk hhead hblock
      · exact .count hk (by omega)
    · have hsend : n.unreadableSend = true := by
        by_contra hnot
        apply h
        unfold Node.malformation?
        split
        · next hc => exact absurd hc hk
        · rw [if_neg hnot]
      simp only [Node.unreadableSend, Bool.and_eq_true, beq_iff_eq, Bool.not_eq_true',
        bne_iff_ne, List.isPrefixOf_iff_prefix] at hsend
      obtain ⟨⟨⟨hcall, hmarker⟩, hunnamed⟩, hcount⟩ := hsend
      refine .send hcall hmarker (fun hparts => ?_) hcount
      rw [hnames.mpr hparts] at hunnamed
      cases hunnamed

instance (n : Node String) : Decidable n.Malformed :=
  decidable_of_iff (n.malformation? ≠ none) n.malformed_iff.symm

theorem Node.not_malformed_of_block {n : Node String} (hk : n.kind = .block) : ¬n.Malformed := by
  intro h
  cases h with
  | count hc => cases hk.symm.trans hc
  | test hc => cases hk.symm.trans hc
  | branch hc => cases hk.symm.trans hc
  | send hc => cases hk.symm.trans hc

mutual
/-- The statements that are reached inside a statement: those of a block, and those of the branches
of a conditional that is not malformed. -/
def Node.reachedInside : Node String → List (Node String)
  | ⟨.block, _, _, children, _⟩ => reached children
  | ⟨.conditional, spelling, tokens, test :: branches, span⟩ =>
    if (⟨.conditional, spelling, tokens, test :: branches, span⟩ : Node String).Malformed then []
    else reachedInBranches branches
  | _ => []
/-- The statements that are reached inside branches. -/
def reachedInBranches : List (Node String) → List (Node String)
  | [] => []
  | b :: bs => b.reachedInside ++ reachedInBranches bs
/-- The statements that are reached in a sequence, each before those inside it. -/
def reached : List (Node String) → List (Node String)
  | [] => []
  | n :: ns => n :: (n.reachedInside ++ reached ns)
end

theorem Node.bodyFault?_eq_none_iff (n : Node String) : n.bodyFault? = none ↔ ¬n.Malformed := by
  rw [Node.malformed_iff, not_not, Node.bodyFault?, Option.map_eq_none_iff]

mutual
/-- Below a statement that is not malformed, the first fault is found among what is reached. -/
theorem Node.findSome?_reachedInside : ∀ n : Node String, ¬n.Malformed →
    n.reachedInside.findSome? Node.bodyFault? = n.inner.findSome? Node.bodyFault?
  | ⟨.block, _, _, children, _⟩, _ => findSome?_reached children
  | ⟨.conditional, _, _, [], _⟩, _ => rfl
  | ⟨.conditional, _, _, test :: branches, _⟩, h => by
    rw [Node.reachedInside, if_neg h]
    refine findSome?_reachedInBranches branches fun b hb => Node.not_malformed_of_block ?_
    by_contra hblock
    exact h (.branch rfl hb hblock)
  | ⟨.operation, _, _, _, _⟩, _ => rfl
  | ⟨.declaration, _, _, _, _⟩, _ => rfl
  | ⟨.call, _, _, _, _⟩, _ => rfl
  | ⟨.return, _, _, _, _⟩, _ => rfl
  | ⟨.other, _, _, _, _⟩, _ => rfl
/-- With well-formed branches, the first fault that is reached in them is the first inside them. -/
theorem findSome?_reachedInBranches : ∀ branches : List (Node String),
    (∀ b ∈ branches, ¬b.Malformed) →
    (reachedInBranches branches).findSome? Node.bodyFault? =
      (innerOf branches).findSome? Node.bodyFault?
  | [], _ => rfl
  | b :: bs, h => by
    obtain ⟨hb, hbs⟩ := List.forall_mem_cons.mp h
    rw [reachedInBranches, innerOf, List.findSome?_append, List.findSome?_append,
      Node.findSome?_reachedInside b hb, findSome?_reachedInBranches bs hbs]
/-- What is not reached stands below a malformed statement, whose fault comes first. -/
theorem findSome?_reached : ∀ ns : List (Node String),
    (reached ns).findSome? Node.bodyFault? = (positions ns).findSome? Node.bodyFault?
  | [] => rfl
  | n :: ns => by
    have ihInside := Node.findSome?_reachedInside n
    have ihRest := findSome?_reached ns
    rw [reached, positions, List.findSome?_cons, List.findSome?_cons]
    cases hfault : n.bodyFault? with
    | some fault => rfl
    | none =>
      rw [List.findSome?_append, List.findSome?_append, ihRest,
        ihInside (n.bodyFault?_eq_none_iff.mp hfault)]
end

/-- The fault of a body that is a block is that of the first malformed statement it reaches. -/
theorem fault?_annotate_reached {body : Node String} (hk : body.kind = .block) :
    fault? (annotate body) = (reached body.children).findSome? Node.bodyFault? :=
  (fault?_annotate hk).trans (findSome?_reached body.children).symm

/-- A fault is what a computation failed with. -/
theorem fault?_eq_some_iff {ε α : Type} {x : Except ε α} {e : ε} :
    fault? x = some e ↔ x = .error e := by
  cases x <;> simp [fault?]

/-- The annotation of a body fails exactly if the body is no block or a malformed statement is
reached in it. A body that is no block is reported at its own place, and otherwise the report is at
the place of the first malformed statement that is reached. -/
theorem annotate_fails_iff_malformed (body : Node String) :
    ((∃ fault, annotate body = .error fault) ↔
      body.kind ≠ .block ∨ ∃ n ∈ reached body.children, n.Malformed) ∧
    (body.kind ≠ .block → annotate body = .error ⟨.notBlock body.kind, body.span⟩) ∧
    ∀ before n after, body.kind = .block → reached body.children = before ++ n :: after →
      (∀ m ∈ before, ¬m.Malformed) → n.Malformed →
      ∃ what, n.malformation? = some what ∧ annotate body = .error ⟨.malformed what, n.span⟩ := by
  have hother : body.kind ≠ .block → annotate body = .error ⟨.notBlock body.kind, body.span⟩ := by
    intro hk
    simp only [annotate, ne_eq, hk, not_false_eq_true, ↓reduceIte]
    rfl
  refine ⟨⟨?_, ?_⟩, hother, ?_⟩
  · rintro ⟨fault, hfault⟩
    by_cases hk : body.kind = .block
    · right
      rw [← fault?_eq_some_iff, fault?_annotate_reached hk] at hfault
      obtain ⟨n, hn, hat⟩ := List.exists_of_findSome?_eq_some hfault
      refine ⟨n, hn, by_contra fun hnot => ?_⟩
      rw [n.bodyFault?_eq_none_iff.mpr hnot] at hat
      cases hat
    · exact Or.inl hk
  · rintro (hk | ⟨n, hn, hbad⟩)
    · exact ⟨_, hother hk⟩
    · by_cases hk : body.kind = .block
      · cases hfirst : (reached body.children).findSome? Node.bodyFault? with
        | none =>
          have hgood := List.findSome?_eq_none_iff.mp hfirst n hn
          exact absurd hbad (n.bodyFault?_eq_none_iff.mp hgood)
        | some fault =>
          rw [← fault?_annotate_reached hk] at hfirst
          exact ⟨fault, fault?_eq_some_iff.mp hfirst⟩
      · exact ⟨_, hother hk⟩
  · intro before n after hk hreached hbefore hbad
    obtain ⟨what, hwhat⟩ := Option.ne_none_iff_exists'.mp (n.malformed_iff.mp hbad)
    have hearlier : before.findSome? Node.bodyFault? = none :=
      List.findSome?_eq_none_iff.mpr fun m hm => m.bodyFault?_eq_none_iff.mpr (hbefore m hm)
    refine ⟨what, hwhat, ?_⟩
    rw [← fault?_eq_some_iff, fault?_annotate_reached hk, hreached, List.findSome?_append, hearlier,
      Option.none_or, List.findSome?_cons, Node.bodyFault?, hwhat]
    rfl

/-- A body with a conditional around a second one, which has no test and holds a send that tells no
vertex. A send that tells no message follows. -/
def crookedBody : Node String :=
  let send (name : String) (start : Nat) : Node String :=
    ⟨.call, name, [], [], ⟨start, start + 1⟩⟩
  let block (stmts : List (Node String)) : Node String := ⟨.block, "", [], stmts, ⟨0, 9⟩⟩
  let test : Node String := ⟨.other, "", ["x"], [], ⟨1, 2⟩⟩
  let untested : Node String := ⟨.conditional, "", [], [block [send "context_signal__m" 3]], ⟨2, 4⟩⟩
  block [⟨.conditional, "", [], [test, block [untested]], ⟨0, 4⟩⟩, send "context_signal_v" 5]

/-- The conditional without a test is reported. The send inside it is not reached, and the other one
comes later. -/
theorem annotate_fails_iff_malformed_crooked :
    (reached crookedBody.children).map Node.span = [⟨0, 4⟩, ⟨2, 4⟩, ⟨5, 6⟩] ∧
      (∃ n ∈ reached crookedBody.children, n.Malformed) ∧
      annotate crookedBody = .error ⟨.malformed .branchCount, ⟨2, 4⟩⟩ := by
  obtain ⟨before, n, after, hreached, hbefore, hbad, hspan⟩ : ∃ before n after,
      reached crookedBody.children = before ++ n :: after ∧ (∀ m ∈ before, ¬m.Malformed) ∧
        n.malformation? = some .branchCount ∧ n.span = ⟨2, 4⟩ :=
    ⟨(reached crookedBody.children).take 1, _, _, rfl, by decide +kernel, rfl, rfl⟩
  have hmalformed : n.Malformed := n.malformed_iff.mpr (by simp [hbad])
  obtain ⟨what, hwhat, hfault⟩ :=
    (annotate_fails_iff_malformed crookedBody).2.2 before n after rfl hreached hbefore hmalformed
  cases hbad.symm.trans hwhat
  refine ⟨by decide +kernel, ⟨n, ?_, hmalformed⟩, ?_⟩
  · rw [hreached]
    exact List.mem_append_right before List.mem_cons_self
  · rw [hfault, hspan]

end VertexLanes
