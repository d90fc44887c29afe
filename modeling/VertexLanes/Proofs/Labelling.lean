import Mathlib.Data.List.Range
import VertexLanes.Proofs.Annotation

/-!
# The labels of an annotated body

The tests of a body carry the numbers from one up to the number of masks, in the
order in which the tests stand in it. Every other label of the body is the label
of the scope around it, so a statement never runs under the mask of a branch it
is not in, and a complement is only ever taken of the first mask of its own
conditional.
-/

namespace VertexLanes

/-- The decimal digits of a number determine it. -/
theorem toString_nat_injective {j k : Nat} (h : toString j = toString k) : j = k := by
  have hvalue : ∀ n : Nat, Nat.ofDigitChars 10 (toString n).toList 0 = n := by
    intro n
    change Nat.ofDigitChars 10 n.repr.toList 0 = n
    rw [Nat.toList_repr, Nat.ofDigitChars_toDigits (by decide) (by decide)]
  rw [← hvalue j, h, hvalue k]

/-- Masks with different numbers have different names. -/
theorem Label.name_mask_ne {j k : Nat} (h : j ≠ k) : (Label.mask j).name ≠ (Label.mask k).name :=
  fun hname => h (toString_nat_injective ((String.append_right_inj "mask_").mp hname))

/-- The labels handed out from the number `first` up to, but not including, `stop`. -/
def minted (first stop : Nat) : List Label := (List.range' first (stop - first)).map .mask

@[simp] theorem minted_self (n : Nat) : minted n n = [] := by simp [minted]

theorem mem_minted {first stop k : Nat} : .mask k ∈ minted first stop ↔ first ≤ k ∧ k < stop := by
  simp only [minted, List.mem_map, Label.mask.injEq, exists_eq_right, List.mem_range'_1]
  omega

/-- Labels handed out in two runs, one after the other, are those of one run. -/
theorem minted_append {first mid stop : Nat} (h : first ≤ mid) (h' : mid ≤ stop) :
    minted first mid ++ minted mid stop = minted first stop := by
  have hs : stop - first = (mid - first) + (stop - mid) := by omega
  have hm : mid = first + (mid - first) := by omega
  rw [minted, minted, minted, hs, ← List.range'_append_1, List.map_append, ← hm]

/-- The first mask handed out has the first number. -/
theorem minted_of_lt {first stop : Nat} (h : first < stop) :
    minted first stop = .mask first :: minted (first + 1) stop := by
  have hs : stop - first = (stop - (first + 1)) + 1 := by omega
  rw [minted, minted, hs, List.range'_succ, List.map_cons]

/-- The label of the test that an entry of a listing stands for. -/
def Entry.conditionLabel? : Entry → Option Label
  | .condition label _ _ => some label
  | _ => none

/-- The labels of all tests, in the order of the preorder listing. -/
def conditionLabels (stmts : List Stmt) : List Label :=
  (entriesOf stmts).filterMap Entry.conditionLabel?

section
variable (label : Label) (test otherwise : Condition) (body elseBody : Scope Stmt) (span : Span)
  (ss : List Stmt)

@[simp] theorem conditionLabels_nil : conditionLabels [] = [] := rfl

@[simp] theorem conditionLabels_block :
    conditionLabels (.block body :: ss) = conditionLabels body.stmts ++ conditionLabels ss := by
  simp [conditionLabels, entriesOf, Stmt.entries, Entry.conditionLabel?, List.filterMap_cons]

@[simp] theorem conditionLabels_ifThen :
    conditionLabels (.ifThen label test body span :: ss) =
      test.label :: (conditionLabels body.stmts ++ conditionLabels ss) := by
  simp [conditionLabels, entriesOf, Stmt.entries, Condition.entries, Entry.conditionLabel?,
    List.filterMap_cons]

@[simp] theorem conditionLabels_ifElse :
    conditionLabels (.ifElse label test body otherwise elseBody span :: ss) =
      test.label :: (conditionLabels body.stmts ++
        otherwise.label :: (conditionLabels elseBody.stmts ++ conditionLabels ss)) := by
  simp [conditionLabels, entriesOf, Stmt.entries, Condition.entries, Entry.conditionLabel?,
    List.filterMap_cons]

end

/-- A simple statement that is kept has no test in it. -/
theorem Simple.conditionLabels_cons {label : Label} {n : Node String} {s : Stmt}
    {notes : List (Located BodyNotice)} (h : Simple label n (some s) notes) (ss : List Stmt) :
    conditionLabels (s :: ss) = conditionLabels ss := by
  obtain ⟨-, target, value, rfl, -⟩ | ⟨-, tokens, rfl⟩ | ⟨-, vertex, message, rfl⟩ |
    ⟨-, expr, rfl⟩ := h.kept_cases
  all_goals
    simp [conditionLabels, entriesOf, Stmt.entries, Entry.conditionLabel?, List.filterMap_cons]

/-- The tests of a walk carry exactly the labels the walk hands out, in order. -/
theorem Walk.conditionLabels_eq {label : Label} {next : Nat} {ns : List (Node String)}
    {r : Noted (List Stmt)} (h : Walk label next ns r) :
    conditionLabels r.value = minted next r.next := by
  induction h with
  | nil => simp
  | block _ inner rest ihInner ihRest =>
    rw [conditionLabels_block, ihInner, ihRest]
    exact minted_append inner.next_le rest.next_le
  | ifThen _ _ _ inner rest ihInner ihRest =>
    have hinner := inner.next_le
    have hrest := rest.next_le
    rw [conditionLabels_ifThen, ihInner, ihRest, minted_append hinner hrest]
    exact (minted_of_lt (by omega)).symm
  | ifElse _ _ _ inner elseInner rest ihInner ihElse ihRest =>
    have hinner := inner.next_le
    have helse := elseInner.next_le
    have hrest := rest.next_le
    rw [conditionLabels_ifElse, ihInner, ihElse, ihRest, minted_append helse hrest,
      ← minted_of_lt (by omega), minted_append hinner (by omega)]
    exact (minted_of_lt (by omega)).symm
  | kept simple _ ih => rw [simple.conditionLabels_cons, ih]
  | dropped _ _ ih => exact ih

/-- The labels that occur in an expression. -/
def LaneExpr.labels : LaneExpr → List Label
  | .complement label => [label]
  | _ => []

/-- The labels that occur in a test. -/
def Condition.labels (c : Condition) : List Label := c.label :: c.guard :: c.test.labels

mutual
/-- Every label that occurs in a statement, at whatever place. -/
def Stmt.labels : Stmt → List Label
  | .block ⟨label, stmts⟩ => label :: labelsOf stmts
  | .ifThen label test ⟨inner, stmts⟩ _ => label :: inner :: (test.labels ++ labelsOf stmts)
  | .ifElse label test ⟨inner, stmts⟩ otherwise ⟨elseInner, others⟩ _ =>
    label :: inner :: elseInner ::
      (test.labels ++ labelsOf stmts ++ otherwise.labels ++ labelsOf others)
  | .assign label _ value _ => label :: value.labels
  | .declare label _ => [label]
  | .send label _ _ _ => [label]
  | .return label _ => [label]
/-- Every label that occurs in a statement sequence. -/
def labelsOf : List Stmt → List Label
  | [] => []
  | s :: ss => s.labels ++ labelsOf ss
end

/-- Every label that occurs in a scope, its own included. -/
def Scope.labels (body : Scope Stmt) : List Label := body.label :: labelsOf body.stmts

/-- A complement names the mask it is of. -/
theorem LaneExpr.labels_complement (label : Label) :
    (LaneExpr.complement label).labels = [label] := rfl

/-- Any other expression names no mask. -/
theorem LaneExpr.labels_eq_nil {value : LaneExpr} (h : value.isComplement = false) :
    value.labels = [] := by
  cases value with
  | complement label => cases h
  | _ => rfl

section
variable {l outer mask elseMask : Label} {e : LaneExpr} {stmts others ss : List Stmt}
  {testSpan elseSpan span : Span}

/-- The labels of a block are its own and those inside. -/
theorem mem_labelsOf_block :
    l ∈ labelsOf (.block ⟨outer, stmts⟩ :: ss) ↔
      l = outer ∨ l ∈ labelsOf stmts ∨ l ∈ labelsOf ss := by
  simp only [labelsOf, Stmt.labels, List.mem_append, List.mem_cons, or_assoc]

/-- The labels of a conditional are the two masks of its test and those inside. -/
theorem mem_labelsOf_ifThen (he : e.isComplement = false) :
    l ∈ labelsOf (.ifThen outer ⟨mask, outer, e, testSpan⟩ ⟨mask, stmts⟩ span :: ss) ↔
      l = outer ∨ l = mask ∨ l ∈ labelsOf stmts ∨ l ∈ labelsOf ss := by
  simp only [labelsOf, Stmt.labels, Condition.labels, LaneExpr.labels_eq_nil he, List.mem_append,
    List.mem_cons, List.not_mem_nil, or_false]
  grind

/-- A conditional with two branches has the mask of the second one besides. -/
theorem mem_labelsOf_ifElse (he : e.isComplement = false) :
    l ∈ labelsOf (.ifElse outer ⟨mask, outer, e, testSpan⟩ ⟨mask, stmts⟩
        ⟨elseMask, outer, .complement mask, elseSpan⟩ ⟨elseMask, others⟩ span :: ss) ↔
      l = outer ∨ l = mask ∨ l ∈ labelsOf stmts ∨ l = elseMask ∨ l ∈ labelsOf others ∨
        l ∈ labelsOf ss := by
  simp only [labelsOf, Stmt.labels, Condition.labels, LaneExpr.labels_eq_nil he,
    LaneExpr.labels_complement, List.mem_append, List.mem_cons, List.not_mem_nil, or_false]
  grind

end

/-- A simple statement that is kept has the label of the walk and no other. -/
theorem Simple.labels_eq {label : Label} {n : Node String} {s : Stmt}
    {notes : List (Located BodyNotice)} (h : Simple label n (some s) notes) :
    s.labels = [label] := by
  obtain ⟨-, target, value, rfl, hv⟩ | ⟨-, tokens, rfl⟩ | ⟨-, vertex, message, rfl⟩ |
    ⟨-, expr, rfl⟩ := h.kept_cases
  · rw [Stmt.labels, LaneExpr.labels_eq_nil hv]
  all_goals rfl

/-- The labels a walk under `label` may use, if it hands out the numbers from `first` to `stop`. -/
def Usable (label : Label) (first stop : Nat) (l : Label) : Prop :=
  l = label ∨ l ∈ minted first stop

/-- A mask with a number of the range may be used. -/
theorem Usable.mask {label : Label} {first stop k : Nat} (h : first ≤ k) (h' : k < stop) :
    Usable label first stop (.mask k) := Or.inr (mem_minted.mpr ⟨h, h'⟩)

/-- What a part of a walk may use, the whole walk may use. -/
theorem Usable.mono {label l : Label} {first first' stop stop' : Nat}
    (h : Usable label first stop l) (hf : first' ≤ first) (hs : stop ≤ stop') :
    Usable label first' stop' l := by
  refine h.imp_right fun hl => ?_
  cases l with
  | root => simp [minted] at hl
  | mask k =>
    rw [mem_minted] at hl ⊢
    omega

/-- What the walk over a branch may use, the walk around it may use. -/
theorem Usable.of_branch {label l : Label} {first k stop stop' : Nat}
    (h : Usable (.mask k) (k + 1) stop l) (hf : first ≤ k) (hk : k < stop) (hs : stop ≤ stop') :
    Usable label first stop' l := by
  rcases h with rfl | hl
  · exact .mask hf (by omega)
  · exact .mono (Or.inr hl) (by omega) hs

/-- The labels of a walk are the one it goes under and those it hands out. -/
theorem Walk.usable {label l : Label} {next : Nat} {ns : List (Node String)}
    {r : Noted (List Stmt)} (h : Walk label next ns r) (hl : l ∈ labelsOf r.value) :
    Usable label next r.next l := by
  induction h with
  | nil => simp [labelsOf] at hl
  | block _ inner rest ihInner ihRest =>
    rcases mem_labelsOf_block.mp hl with rfl | hl | hl
    · exact Or.inl rfl
    · exact (ihInner hl).mono (Nat.le_refl _) rest.next_le
    · exact (ihRest hl).mono inner.next_le (Nat.le_refl _)
  | ifThen _ _ _ inner rest ihInner ihRest =>
    have hinner := inner.next_le
    have hrest := rest.next_le
    rcases (mem_labelsOf_ifThen (classify_not_complement _)).mp hl with rfl | rfl | hl | hl
    · exact Or.inl rfl
    · exact .mask (Nat.le_refl _) (Nat.lt_of_lt_of_le hinner hrest)
    · exact (ihInner hl).of_branch (Nat.le_refl _) hinner hrest
    · exact (ihRest hl).mono (Nat.le_of_lt hinner) (Nat.le_refl _)
  | @ifElse _ next _ _ _ _ _ body others r _ _ _ inner elseInner rest ihInner ihElse ihRest =>
    have hinner : next < body.next := inner.next_le
    have helse : body.next < others.next := elseInner.next_le
    have hrest := rest.next_le
    have hbody : body.next < r.next := Nat.lt_of_lt_of_le helse hrest
    rcases (mem_labelsOf_ifElse (classify_not_complement _)).mp hl with
      rfl | rfl | hl | rfl | hl | hl
    · exact Or.inl rfl
    · exact .mask (Nat.le_refl _) (Nat.lt_trans hinner hbody)
    · exact (ihInner hl).of_branch (Nat.le_refl _) hinner (Nat.le_of_lt hbody)
    · exact .mask (Nat.le_of_lt hinner) hbody
    · exact (ihElse hl).of_branch (Nat.le_of_lt hinner) helse hrest
    · exact (ihRest hl).mono (by omega) (Nat.le_refl _)
  | kept simple _ ih =>
    rw [labelsOf, simple.labels_eq] at hl
    rcases List.mem_append.mp hl with hl | hl
    · exact Or.inl (List.mem_singleton.mp hl)
    · exact ih hl
  | dropped _ _ ih => exact ih hl

/-- The first of two labels has the smaller number. -/
def Label.Precedes : Label → Label → Prop
  | .mask m, .mask n => m < n
  | _, _ => False

/-- Masks are handed out in ascending order. -/
theorem minted_pairwise (first stop : Nat) : (minted first stop).Pairwise Label.Precedes :=
  List.pairwise_map.mpr List.pairwise_lt_range'

/-- The tests of an annotated body are numbered from one to the number of masks, without gap and
in the order of the listing, and no other mask occurs in the body. -/
theorem annotate_conditionLabels {body : Node String} {a : Annotated}
    (h : annotate body = .ok a) :
    conditionLabels a.root.stmts = (List.range' 1 a.masks).map .mask ∧
      (conditionLabels a.root.stmts).Pairwise Label.Precedes ∧
      ∀ k, .mask k ∈ a.root.labels → .mask k ∈ conditionLabels a.root.stmts := by
  obtain ⟨-, r, hw, rfl⟩ := walk_of_annotate h
  rw [hw.conditionLabels_eq]
  refine ⟨rfl, minted_pairwise _ _, fun k hk => ?_⟩
  rcases List.mem_cons.mp hk with hroot | hin
  · cases hroot
  · exact (hw.usable hin).resolve_left (by simp)

/-- A conditional in each branch of another; one branch holds an expression that is left out. -/
def nestedBody : Node String :=
  let test (name : String) : Node String := ⟨.other, "", [name], [], ⟨0, 0⟩⟩
  let block (stmts : List (Node String)) : Node String := ⟨.block, "", [], stmts, ⟨0, 0⟩⟩
  let operation (tokens : List String) : Node String := ⟨.operation, "", tokens, [], ⟨0, 0⟩⟩
  let conditional (children : List (Node String)) : Node String :=
    ⟨.conditional, "", [], children, ⟨0, 0⟩⟩
  block
    [conditional
      [test "a",
        block
          [conditional
            [test "b", block [operation ["x", "=", "y"]], block [operation ["x", "+", "y"]]]],
        block [conditional [test "c", block [operation ["x", "-=", "y"]]]]]]

/-- The five tests of the nested body carry the first five labels. -/
theorem annotate_conditionLabels_nested :
    ∃ a, annotate nestedBody = .ok a ∧ a.masks = 5 ∧
      conditionLabels a.root.stmts = (List.range' 1 a.masks).map .mask ∧
      (conditionLabels a.root.stmts).Pairwise Label.Precedes ∧
      ∀ k, .mask k ∈ a.root.labels → .mask k ∈ conditionLabels a.root.stmts := by
  have hmasks : (annotate nestedBody).toOption.map Annotated.masks = some 5 := by decide +kernel
  obtain ⟨a, ha, hm⟩ := exists_eq_ok hmasks
  exact ⟨a, ha, hm, annotate_conditionLabels ha⟩

/-- The test of a branch in a scope: it is guarded by the scope's label and compares values. -/
structure Condition.Tests (c : Condition) (outer : Label) : Prop where
  guard : c.guard = outer
  test : c.test.isComplement = false

/-- The test of an else branch in a scope: it is guarded by the scope's label and fills a mask of
its own with the complement of the first branch's mask. -/
structure Condition.Complements (c : Condition) (outer : Label) (first : Condition) : Prop where
  guard : c.guard = outer
  test : c.test = .complement first.label
  label : c.label ≠ first.label

mutual
/-- A statement is consistently labelled in a scope: it carries the label of the scope, its branches
carry the labels of their tests, and only an else test is a complement. -/
def Stmt.Labelled (outer : Label) : Stmt → Prop
  | .block ⟨label, stmts⟩ => label = outer ∧ AllLabelled label stmts
  | .ifThen label test ⟨inner, stmts⟩ _ =>
    label = outer ∧ test.Tests outer ∧ inner = test.label ∧ AllLabelled inner stmts
  | .ifElse label test ⟨inner, stmts⟩ otherwise ⟨elseInner, others⟩ _ =>
    label = outer ∧ test.Tests outer ∧ inner = test.label ∧ AllLabelled inner stmts ∧
      otherwise.Complements outer test ∧ elseInner = otherwise.label ∧ AllLabelled elseInner others
  | .assign label _ value _ => label = outer ∧ value.isComplement = false
  | .declare label _ => label = outer
  | .send label _ _ _ => label = outer
  | .return label _ => label = outer
/-- Every statement of a sequence is consistently labelled in a scope. -/
def AllLabelled (outer : Label) : List Stmt → Prop
  | [] => True
  | s :: ss => s.Labelled outer ∧ AllLabelled outer ss
end

/-- A simple statement that is kept carries the label of the walk. -/
theorem Simple.labelled {label : Label} {n : Node String} {s : Stmt}
    {notes : List (Located BodyNotice)} (h : Simple label n (some s) notes) : s.Labelled label := by
  obtain ⟨-, target, value, rfl, hv⟩ | ⟨-, tokens, rfl⟩ | ⟨-, vertex, message, rfl⟩ |
    ⟨-, expr, rfl⟩ := h.kept_cases
  · exact ⟨rfl, hv⟩
  all_goals exact rfl

/-- A walk labels every statement it keeps consistently. -/
theorem Walk.allLabelled {label : Label} {next : Nat} {ns : List (Node String)}
    {r : Noted (List Stmt)} (h : Walk label next ns r) : AllLabelled label r.value := by
  induction h with
  | nil => trivial
  | block _ _ _ ihInner ihRest => exact ⟨⟨rfl, ihInner⟩, ihRest⟩
  | ifThen _ _ _ _ _ ihInner ihRest =>
    exact ⟨⟨rfl, ⟨rfl, classify_not_complement _⟩, rfl, ihInner⟩, ihRest⟩
  | @ifElse label next n ns test first second body others r _ _ _ inner _ _ ihInner ihElse ihRest =>
    -- The first branch took at least one number, so the else branch has another one.
    have hne : Label.mask body.next ≠ Label.mask next := by
      have := inner.next_le
      simp only [ne_eq, Label.mask.injEq]
      omega
    exact ⟨⟨rfl, ⟨rfl, classify_not_complement _⟩, rfl, ihInner, ⟨rfl, rfl, hne⟩, rfl, ihElse⟩,
      ihRest⟩
  | kept simple _ ih => exact ⟨simple.labelled, ih⟩
  | dropped _ _ ih => exact ih

/-- An annotated body is under the root label and consistently labelled throughout. -/
theorem annotate_labelled {body : Node String} {a : Annotated} (h : annotate body = .ok a) :
    a.root.label = .root ∧ AllLabelled a.root.label a.root.stmts := by
  obtain ⟨-, r, hw, rfl⟩ := walk_of_annotate h
  exact ⟨rfl, hw.allLabelled⟩

/-- The nested body has five masks and is consistently labelled. -/
theorem annotate_labelled_nested :
    ∃ a, annotate nestedBody = .ok a ∧ a.masks = 5 ∧ a.root.label = .root ∧
      AllLabelled a.root.label a.root.stmts := by
  have hmasks : (annotate nestedBody).toOption.map Annotated.masks = some 5 := by decide +kernel
  obtain ⟨a, ha, hm⟩ := exists_eq_ok hmasks
  exact ⟨a, ha, hm, annotate_labelled ha⟩

end VertexLanes
