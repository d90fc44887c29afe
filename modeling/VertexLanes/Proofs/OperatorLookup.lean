import VertexLanes.Proofs.MergeExpr
import VertexLanes.Proofs.OperandSlots

/-!
# The two lookups of a vector operator

A text is searched for the spellings of the table, the tokens of an expression for
operators that stand outside all brackets and join or negate operands. Both take
the first entry of the table that they find. Since every spelling stands before
the shorter ones that occur in it, the first lookup never takes a part of a longer
spelling; and what the second one finds is in the text too, so that the first one
finds the same entry or an earlier one.
-/

namespace VertexLanes

namespace VectorOp

/-- The place of an operator in the table. -/
def rank (op : VectorOp) : Nat := all.idxOf op

/-- Whether the spelling of an operator occurs in a text. -/
def OccursIn (op : VectorOp) (text : String) : Prop := op.spelling.toList <:+: text.toList

theorem mem_all (op : VectorOp) : op ∈ all := by
  cases op <;> decide

theorem rank_injective : Function.Injective rank := fun op _ h =>
  (List.idxOf_inj (mem_all op)).mp h

/-- Searching a text finds the operators that occur in it. -/
theorem occursIn_iff {op : VectorOp} {text : String} :
    Text.occursIn op.spelling.toList text.toList = true ↔ op.OccursIn text :=
  Text.occursIn_iff

/-- Something is found where any entry of the table occurs. -/
theorem isSome_find?_iff (text : String) :
    (find? text).isSome = true ↔ ∃ op : VectorOp, op.OccursIn text := by
  rw [find?, List.find?_isSome]
  constructor
  · rintro ⟨op, -, hop⟩
    exact ⟨op, occursIn_iff.mp hop⟩
  · rintro ⟨op, hop⟩
    exact ⟨op, mem_all op, occursIn_iff.mpr hop⟩

/-- What is found occurs in the text, and nothing that occurs there stands before it in the
table. -/
theorem rank_le_of_find? {text : String} {op : VectorOp} (h : find? text = some op) :
    op.OccursIn text ∧ ∀ other : VectorOp, other.OccursIn text → op.rank ≤ other.rank := by
  obtain ⟨hop, before, after, hall, hbefore⟩ := List.find?_eq_some_iff_append.mp h
  have hoccurs := occursIn_iff.mp hop
  have hrank : ∀ other : VectorOp, other.OccursIn text →
      other.rank = before.length + (op :: after).idxOf other := by
    intro other hother
    have hnot : other ∉ before := by
      intro hmem
      have hno := hbefore other hmem
      rw [occursIn_iff.mpr hother] at hno
      cases hno
    rw [rank, hall, List.idxOf_append_of_notMem hnot]
  refine ⟨hoccurs, fun other hother => ?_⟩
  rw [hrank op hoccurs, hrank other hother, List.idxOf_cons_self]
  exact Nat.le_add_right _ _

/-- A spelling stands in the table before those that are parts of it. -/
theorem rank_le_of_spelling_within {op other : VectorOp}
    (h : op.spelling.toList <:+: other.spelling.toList) : other.rank ≤ op.rank := by
  have htable : all.all (fun op => all.all fun other =>
      !Text.occursIn op.spelling.toList other.spelling.toList || other.rank ≤ op.rank) = true := by
    decide
  have hrow := List.all_eq_true.mp (List.all_eq_true.mp htable op (mem_all op)) other
    (mem_all other)
  rw [Text.occursIn_iff.mpr h] at hrow
  simpa using hrow

/-- What is found is no part of a longer spelling that occurs in the text. -/
theorem eq_of_find?_of_spelling_within {text : String} {op other : VectorOp}
    (h : find? text = some op) (hother : other.OccursIn text)
    (hpart : op.spelling.toList <:+: other.spelling.toList) : op = other := by
  obtain ⟨-, hfirst⟩ := rank_le_of_find? h
  exact rank_injective (Nat.le_antisymm (hfirst other hother) (rank_le_of_spelling_within hpart))

/-- An operator that stands among some tokens occurs in their text. -/
theorem occursIn_join {op : VectorOp} {ts : List String} (h : op.tokens <:+: ts) :
    op.OccursIn (String.join ts) := by
  obtain ⟨before, after, rfl⟩ := h
  rw [OccursIn, spelling, String.toList_join, String.toList_join, List.flatMap_append,
    List.flatMap_append]
  exact ⟨_, _, rfl⟩

end VectorOp

namespace Operands

/-- The operator of a classification stands among the tokens. -/
theorem tokens_infix_of_classify {ts : List String} {op : VectorOp}
    (h : (classify ts).expr.op? = some op) : op.tokens <:+: ts := by
  cases hc : chosen? ts with
  | none =>
    rw [(accounts_classify ts).passed hc] at h
    cases h
  | some chosen =>
    obtain rfl : chosen = op := by
      rcases (accounts_classify ts).operator chosen hc with happlied | ⟨-, hpass⟩
      · exact Option.some.inj (happlied.symm.trans h)
      · rw [hpass] at h
        cases h
    obtain ⟨i, hi⟩ := List.exists_mem_of_ne_nil _ (qualifying_ne_nil hc)
    have hqualifies : Qualifies chosen ts i := by
      simpa using (List.mem_filter.mp hi).2
    exact hqualifies.2.1.isInfix.trans (ts.drop_suffix i).isInfix

end Operands

/-- The two lookups are consistent. A text has an operator exactly if a spelling of the table occurs
in it, and the spelling that is found is no proper part of another one that occurs. Where the tokens
of an expression have an operator, so has their text, at the same place of the table or an earlier
one. -/
theorem operator_lookups_consistent (text : String) (ts : List String) :
    ((VectorOp.find? text).isSome = true ↔ ∃ op : VectorOp, op.OccursIn text) ∧
      (∀ op, VectorOp.find? text = some op → op.OccursIn text ∧
        ∀ other : VectorOp, other.OccursIn text →
          op.spelling.toList <:+: other.spelling.toList → op.spelling = other.spelling) ∧
      ∀ op, (Operands.classify ts).expr.op? = some op →
        ∃ found, VectorOp.find? (String.join ts) = some found ∧ found.rank ≤ op.rank := by
  refine ⟨VectorOp.isSome_find?_iff text, fun op hop => ?_, fun op hop => ?_⟩
  · refine ⟨(VectorOp.rank_le_of_find? hop).1, fun other hother hpart => ?_⟩
    rw [VectorOp.eq_of_find?_of_spelling_within hop hother hpart]
  · have hoccurs := VectorOp.occursIn_join (Operands.tokens_infix_of_classify hop)
    obtain ⟨found, hfound⟩ :=
      Option.isSome_iff_exists.mp ((VectorOp.isSome_find?_iff (String.join ts)).mpr ⟨op, hoccurs⟩)
    exact ⟨found, hfound, (VectorOp.rank_le_of_find? hfound).2 op hoccurs⟩

/-- A text with both a spelling and a longer one around it, and tokens whose only operator outside
brackets comes later in the table than the one inside. -/
theorem operator_lookups_consistent_bracketed :
    VectorOp.find? "a &~ b" = some .andNot ∧ VectorOp.and.OccursIn "a &~ b" ∧
      (∀ other : VectorOp, other.OccursIn "a &~ b" →
        VectorOp.andNot.spelling.toList <:+: other.spelling.toList →
          VectorOp.andNot.spelling = other.spelling) ∧
      (Operands.classify ["x", "[", "i", "+", "1", "]", "<=", "y"]).expr.op? = some .le ∧
      VectorOp.find? "x[i+1]<=y" = some .add ∧
      ∃ found, VectorOp.find? (String.join ["x", "[", "i", "+", "1", "]", "<=", "y"]) =
        some found ∧ found.rank ≤ VectorOp.le.rank := by
  have htext : VectorOp.find? "a &~ b" = some .andNot := by decide
  have htokens : (Operands.classify ["x", "[", "i", "+", "1", "]", "<=", "y"]).expr.op? =
      some .le := by decide +kernel
  obtain ⟨-, hpart, hfound⟩ :=
    operator_lookups_consistent "a &~ b" ["x", "[", "i", "+", "1", "]", "<=", "y"]
  exact ⟨htext, VectorOp.occursIn_iff.mp (by decide), (hpart .andNot htext).2, htokens, by decide,
    hfound .le htokens⟩

end VertexLanes
