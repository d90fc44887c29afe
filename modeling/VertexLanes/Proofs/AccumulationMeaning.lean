import VertexLanes.Program.Recovery
import VertexLanes.Proofs.CompoundAssignment
import VertexLanes.Proofs.MergeExpr

/-!
# What accumulations compute

A statement that merges a field of two messages is replaced by a reduction of the
field of both. The reduction is the first of the table whose spelling occurs in
what is assigned, or that of a compound sign, and the operands are not looked at.
So the merged value is kept where the statement reduces just these two fields, and
it is lost, without notice, where it reads anything less.
-/

namespace VertexLanes

/-- The operator of a compound sign. -/
def signOp? (sign : String) : Option BinaryOp := (compoundOp? sign).bind VectorOp.joins?

namespace MergeExpr

/-- What an assignment of an expression to a field assigns. -/
def assigned (field sign : String) (e : MergeExpr) : MergeExpr :=
  (signOp? sign).elim e fun o => .bin o (.field .plain field) (.group e)

/-- A single operator or call is the one that is found. -/
theorem find?_uses_assigned {field sign : String} {e : MergeExpr} {op : PairwiseOp}
    (hop : (signOp? sign).elim (PairwiseOp.all.find? fun q => e.uses q) BinaryOp.reduction? =
      some op)
    (h : (e.assigned field sign).isSingle = true) :
    PairwiseOp.all.find? (fun q => (e.assigned field sign).uses q) = some op := by
  unfold assigned at h ⊢
  cases hsign : signOp? sign with
  | none =>
    rw [hsign] at hop
    exact hop
  | some o =>
    rw [hsign] at hop h
    obtain ⟨hown, hvalue⟩ := Bool.and_eq_true_iff.mp h
    simp only [Option.elim_some, uses_bin o hown hvalue, PairwiseOp.occursIn_reduction hop]
    exact op.find?_beq

end MergeExpr

/-- A text that begins with another is that and what is left behind it. -/
theorem Text.eq_append_of_isPrefixOf {first text : String}
    (h : first.toList.isPrefixOf text.toList = true) :
    text = first ++ String.ofList (text.toList.drop first.toList.length) := by
  obtain ⟨rest, hrest⟩ := List.isPrefixOf_iff_prefix.mp h
  apply String.toList_injective
  rw [← hrest, List.drop_left, String.toList_append, String.toList_ofList, hrest]

namespace Recovery

/-- A compound sign decides the reduction, and after a plain one it is looked for in the value. -/
theorem reduction?_eq {sign : String} (h : isAssignmentSign sign = true) (value : List String) :
    reduction? sign value =
      (signOp? sign).elim (PairwiseOp.all.find? fun q => q.occursIn value) BinaryOp.reduction? := by
  rcases Bool.or_eq_true_iff.mp h with heq | hop
  · rw [eq_of_beq heq]
    rfl
  · unfold compoundOp? at hop
    split at hop
    case h_7 => cases hop
    all_goals rfl

/-- The field that is assigned is named alone or as a member of the object. -/
theorem join_of_assignedField {target : List String} {field : String}
    (h : assignedField target = field) :
    String.join target = field ∨ String.join target = "this->" ++ field := by
  subst h
  unfold assignedField
  dsimp only
  split
  · next hown => exact .inr (Text.eq_append_of_isPrefixOf hown)
  · exact .inl String.ofList_toList.symm

/-- What a reduction was read from. -/
theorem exists_of_accumulated {fields : List Field} {n : Node String} {a : Accumulation}
    (h : accumulated fields n = .reduction a) :
    ∃ target sign value, cutAssignment? n.tokens = some (target, sign, value) ∧
      assignedField target = a.field ∧ reduction? sign value = some a.op ∧
      ∃ f ∈ fields, f.name = a.field := by
  unfold accumulated at h
  split at h
  · cases h
  · split at h
    · cases h
    · next target sign value hcut =>
      split at h
      · cases h
      · next op hop =>
        dsimp only at h
        split at h
        · next hfield =>
          cases h
          obtain ⟨f, hf, hname⟩ := List.any_eq_true.mp hfield
          exact ⟨target, sign, value, hcut, rfl, hop, f, hf, eq_of_beq hname⟩
        · cases h
  · cases h

end Recovery

/-- Of a statement that is turned into a reduction of a field, the reduction is the one of a
compound sign or else the first of the table that the assigned expression uses. The statement
assigns the reduction of the field of both messages if that is what it spells out, in either order.
Otherwise it can do so only if it reads the field in both messages, and with a single operator or
call it never does. -/
theorem accumulated_keeps_value {fields : List Field} {n : Node String} {field : String}
    {op : PairwiseOp} (h : Recovery.accumulated fields n = .reduction ⟨field, op⟩) :
    ∃ target sign value, cutAssignment? n.tokens = some (target, sign, value) ∧
      n.tokens = target ++ sign :: value ∧
      (String.join target = field ∨ String.join target = "this->" ++ field) ∧
      (∃ f ∈ fields, f.name = field) ∧
      ∀ e : MergeExpr, e.WellFormed → e.tokens = value →
        (signOp? sign).elim (PairwiseOp.all.find? fun q => e.uses q) BinaryOp.reduction? = some op ∧
        (∀ q, (e.assigned field sign).Reduces q field →
          q = op ∧ ∀ s, (e.assigned field sign).Keeps s op field) ∧
        ∀ s,
          ((e.assigned field sign).isClosed = true → (e.assigned field sign).Keeps s op field →
            ∀ owner, (e.assigned field sign).mentions owner field = true) ∧
          ((e.assigned field sign).isSingle = true →
            ((e.assigned field sign).Keeps s op field ↔
              (e.assigned field sign).Reduces op field)) := by
  obtain ⟨target, sign, value, hcut, hfield, hop, hmember⟩ := Recovery.exists_of_accumulated h
  obtain ⟨htokens, hsign⟩ := Nesting.exists_of_cut? hcut
  refine ⟨target, sign, value, hcut, htokens, Recovery.join_of_assignedField hfield, hmember, ?_⟩
  rintro e he rfl
  rw [Recovery.reduction?_eq hsign] at hop
  simp only [MergeExpr.occursIn_tokens he] at hop
  refine ⟨hop, fun q hreduces => ?_, fun s => ⟨fun hclosed hkeeps => hkeeps.mentions hclosed,
    fun hsingle => ?_⟩⟩
  · obtain ⟨hsingle, huses⟩ := hreduces.isSingle_and_uses
    have hfound := MergeExpr.find?_uses_assigned hop hsingle
    simp only [huses, q.find?_beq] at hfound
    obtain rfl := Option.some.inj hfound
    exact ⟨rfl, hreduces.keeps⟩
  · exact MergeExpr.keeps_iff_reduces s hsingle (MergeExpr.find?_uses_assigned hop hsingle)

/-- The statement `this->x = std::min((other.x), x)`. -/
def leastStatement : Node String :=
  ⟨.operation, "", ["this", "->", "x", "=", "std", "::", "min", "(", "(", "other", ".", "x", ")",
    ",", "x", ")"], [], ⟨0, 0⟩⟩

/-- What is assigned in `leastStatement`. -/
def leastValue : MergeExpr := .extremum .min (.group (.field .other "x")) (.field .plain "x")

/-- An assignment of the smaller of two values is taken for a minimum and keeps its value. -/
theorem accumulated_keeps_value_least :
    Recovery.accumulated [⟨"x", "int", none⟩] leastStatement = .reduction ⟨"x", .min⟩ ∧
      ∀ s, leastValue.Keeps s .min "x" := by
  have h : Recovery.accumulated [⟨"x", "int", none⟩] leastStatement = .reduction ⟨"x", .min⟩ := by
    decide
  obtain ⟨target, sign, value, hcut, -, -, -, hvalue⟩ := accumulated_keeps_value h
  have hparts : cutAssignment? leastStatement.tokens =
      some (["this", "->", "x"], "=", leastValue.tokens) := by
    decide
  cases hcut.symm.trans hparts
  have hformed : leastValue.WellFormed := ⟨rfl, rfl⟩
  obtain ⟨-, hreduces, -⟩ := hvalue leastValue hformed rfl
  exact ⟨h, (hreduces .min ⟨_, _, rfl, .inr ⟨rfl, rfl⟩⟩).2⟩

/-- A program that merges messages by `x = other.x + 1`. -/
def successorSource : String :=
  "struct vertex_data\x7b\x7d;" ++
    "struct msg_type\x7bint x;msg_type& operator+=(msg_type& other)\x7bx=other.x+1;\x7d\x7d;" ++
    "struct vertex_program\x7bf gather()\x7by;\x7df apply(f m)\x7by=m;\x7d" ++
    "f scatter()\x7by;\x7d\x7d;"

/-- The value `other.x + 1`. -/
def successorValue : MergeExpr := .bin .add (.field .other "x") (.number 1)

/-- A successor is taken for the sum of a field of both messages, and nothing is reported. -/
theorem successor_accumulated_as_sum :
    (parseProgram successorSource.toList).toOption.map
        (fun p => (p.message.accumulations, p.notices)) = some ([⟨"x", .add⟩], []) ∧
      Recovery.accumulated [⟨"x", "int", none⟩]
        ⟨.operation, "", "x" :: "=" :: successorValue.tokens, [], ⟨0, 0⟩⟩ =
          .reduction ⟨"x", .add⟩ ∧
      successorValue.WellFormed ∧ ∀ s, ¬successorValue.Keeps s .add "x" := by
  refine ⟨by decide +kernel, by decide, ⟨rfl, trivial, by decide, by decide⟩, ?_⟩
  intro s hkeeps
  cases hkeeps fun _ _ => 0

end VertexLanes
