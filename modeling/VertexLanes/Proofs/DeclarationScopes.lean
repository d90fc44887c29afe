import Mathlib.Data.List.TakeWhile
import VertexLanes.Proofs.MaskOrder

/-!
# Declarations in the scopes of code

The only braces of lowered code are those around sends under a mask. No
declaration stands in them, so all declarations of a body, from whatever block or
branch they come, meet in the one scope of the body, next to the declarations of
its masks. Two of them clash there if they have the same text, and blocks that
kept equal declarations apart do so no longer.
-/

namespace VertexLanes

/-! ## Scopes of lines -/

namespace LineRole

/-- Whether a line declares a local name or a mask. -/
def isDeclaration : LineRole → Bool
  | .declareMask _ | .declare _ => true
  | _ => false

/-- Whether a line opens the braces around a send. -/
def opensGuard : LineRole → Bool
  | .openGuard _ => true
  | _ => false

/-- The tokens of the declaration of a local name. -/
def local? : LineRole → Option (List String)
  | .declare tokens => some tokens
  | _ => none

end LineRole

/-- The guard whose braces are around a line, by its number among the guards; none for a line of the
body itself. -/
def guardAround (lines : List TextLine) (i : Nat) : Option Nat :=
  if guardDepth (lines.take i) = 0 then none
  else some ((lines.take i).countP fun line => line.role.opensGuard)

/-- A text without the blanks in front of it. -/
def unindented (text : String) : List Char := text.toList.dropWhile (· == ' ')

/-- No two declarations in the same scope have the same text, indentation apart. -/
def ClashFree (p : Policy) (lines : List TextLine) : Prop :=
  ∀ i j a b, i < j → lines[i]? = some a → lines[j]? = some b →
    a.role.isDeclaration = true → b.role.isDeclaration = true →
    guardAround lines i = guardAround lines j → unindented (a.text p) ≠ unindented (b.text p)

/-- The declarations among some lines, without their indentation. -/
def declarations (p : Policy) (lines : List TextLine) : List (List Char) :=
  (lines.filter fun line => line.role.isDeclaration).map fun line => unindented (line.text p)

/-- Indentation does not change the text without it. -/
theorem unindented_indented (depth : Nat) (text : String) :
    unindented (indented depth text) = unindented text := by
  have hstep : ∀ text, unindented (indentStep ++ text) = unindented text := by
    intro text
    rw [unindented, String.toList_append]
    rfl
  induction depth generalizing text with
  | zero => simp [indented]
  | succ depth ih => rw [← indented_indentStep, ih, hstep]

/-- An instruction with a declaration has no other line. -/
theorem eq_zero_of_isDeclaration {instr : Instr} {depth i : Nat} {line : TextLine}
    (h : (instr.textLines depth)[i]? = some line) (hd : line.role.isDeclaration = true) :
    i = 0 := by
  cases instr with
  | declareMask label => exact Nat.lt_one_iff.mp (List.getElem?_eq_some_iff.mp h).1
  | declare tokens => exact Nat.lt_one_iff.mp (List.getElem?_eq_some_iff.mp h).1
  | send vertex message mask track =>
    have hmem := List.mem_of_getElem? h
    cases mask with
    | none =>
      rw [List.mem_singleton.mp hmem] at hd
      cases hd
    | some m =>
      cases track with
      | false =>
        simp only [Instr.textLines, Bool.false_eq_true, ↓reduceIte, List.nil_append, List.mem_cons,
          List.not_mem_nil, or_false] at hmem
        rcases hmem with rfl | rfl | rfl <;> cases hd
      | true =>
        simp only [Instr.textLines, ↓reduceIte, List.cons_append, List.nil_append, List.mem_cons,
          List.not_mem_nil, or_false] at hmem
        rcases hmem with rfl | rfl | rfl | rfl <;> cases hd
  | update target value mask =>
    rw [List.mem_singleton.mp (List.mem_of_getElem? h)] at hd
    cases hd
  | «return» expr =>
    rw [List.mem_singleton.mp (List.mem_of_getElem? h)] at hd
    cases hd

/-- Every declaration stands outside all guards. -/
theorem guardAround_of_isDeclaration (code : List Line) {i : Nat} {line : TextLine}
    (h : (textLines code)[i]? = some line) (hd : line.role.isDeclaration = true) :
    guardAround (textLines code) i = none := by
  have hdepth : guardDepth ((textLines code).take i) = 0 := by
    induction code generalizing i with
    | nil => cases h
    | cons first code ih =>
      rw [textLines_cons] at h ⊢
      by_cases hi : i < (first.instr.textLines first.depth).length
      · rw [List.getElem?_append_left hi] at h
        rw [eq_zero_of_isDeclaration h hd]
        rfl
      · rw [List.getElem?_append_right (Nat.le_of_not_lt hi)] at h
        obtain ⟨j, rfl⟩ := Nat.exists_eq_add_of_le (Nat.le_of_not_lt hi)
        rw [Nat.add_sub_cancel_left] at h
        rw [List.take_length_add_append, guardDepth, List.foldl_append, foldl_nest_textLines]
        exact ih h
  rw [guardAround, if_pos hdepth]

/-- Lines whose declarations all stand in the body have no clash exactly if these differ. -/
theorem clashFree_iff_nodup {p : Policy} {lines : List TextLine}
    (h : ∀ i line, lines[i]? = some line → line.role.isDeclaration = true →
      guardAround lines i = none) :
    ClashFree p lines ↔ (declarations p lines).Nodup := by
  rw [declarations, List.Nodup, List.pairwise_map, List.pairwise_filter, List.pairwise_iff_getElem]
  constructor
  · intro hfree i j hi hj hij ha hb
    have hati := List.getElem?_eq_getElem hi
    have hatj := List.getElem?_eq_getElem hj
    exact hfree i j _ _ hij hati hatj ha hb ((h i _ hati ha).trans (h j _ hatj hb).symm)
  · intro hpairs i j a b hij hati hatj ha hb _
    obtain ⟨hi, rfl⟩ := List.getElem?_eq_some_iff.mp hati
    obtain ⟨hj, rfl⟩ := List.getElem?_eq_some_iff.mp hatj
    exact hpairs i j hi hj hij ha hb

/-! ## Local names and masks -/

/-- The text of the declaration of a local name. -/
def localDeclaration (tokens : List String) : List Char :=
  unindented (String.intercalate " " tokens)

/-- The text of the declaration of a mask. -/
def maskDeclaration (p : Policy) (label : Label) : List Char :=
  unindented (declarationText p.vectorType label)

/-- The declarations of some lines are those of local variables and those of masks. -/
theorem declarations_perm (p : Policy) (lines : List TextLine) :
    (declarations p lines).Perm
      ((lines.filterMap fun line => line.role.local?).map localDeclaration ++
        (partsOf LineRole.declares lines).map (maskDeclaration p)) := by
  induction lines with
  | nil => exact .refl _
  | cons line lines ih =>
    obtain ⟨depth, role⟩ := line
    cases role with
    | declareMask label =>
      have htext : unindented (TextLine.text p ⟨depth, .declareMask label⟩) =
          maskDeclaration p label := unindented_indented depth _
      have hfirst : declarations p (⟨depth, .declareMask label⟩ :: lines) =
          maskDeclaration p label :: declarations p lines := by
        rw [← htext]
        rfl
      rw [hfirst]
      exact (ih.cons _).trans List.perm_middle.symm
    | declare tokens =>
      have htext : unindented (TextLine.text p ⟨depth, .declare tokens⟩) =
          localDeclaration tokens := unindented_indented depth _
      have hfirst : declarations p (⟨depth, .declare tokens⟩ :: lines) =
          localDeclaration tokens :: declarations p lines := by
        rw [← htext]
        rfl
      rw [hfirst]
      exact ih.cons _
    | _ => exact ih

mutual
/-- The declarations of local names in a statement and inside it, in order. -/
def Stmt.locals : Stmt → List (List String)
  | .block ⟨_, stmts⟩ => localsOf stmts
  | .ifThen _ _ ⟨_, stmts⟩ _ => localsOf stmts
  | .ifElse _ _ ⟨_, stmts⟩ _ ⟨_, others⟩ _ => localsOf stmts ++ localsOf others
  | .declare _ tokens => [tokens]
  | _ => []
/-- The declarations of local names in some statements and inside them, in order. -/
def localsOf : List Stmt → List (List String)
  | [] => []
  | s :: ss => s.locals ++ localsOf ss
end

/-- A condition declares no local variable. -/
theorem local?_condition (p : Policy) (depth : Nat) (c : Condition) :
    (textLines (c.lower p depth)).filterMap (fun line => line.role.local?) = [] := rfl

/-- A send declares no local variable. -/
theorem local?_send (vertex message : String) (mask : Option Mask) (track : Bool) (depth : Nat) :
    ((Instr.send vertex message mask track).textLines depth).filterMap
      (fun line => line.role.local?) = [] := by
  cases mask with
  | none => rfl
  | some m => cases track <;> rfl

mutual
/-- Every declaration of a local name becomes a line, and no other line declares one. -/
theorem Stmt.local?_lower (p : Policy) : ∀ (s : Stmt) (depth : Nat),
    (textLines (s.lower p depth)).filterMap (fun line => line.role.local?) = s.locals
  | .block ⟨_, stmts⟩, depth => local?_lowerAll p stmts (depth + 1)
  | .ifThen _ test ⟨_, stmts⟩ _, depth => by
    rw [Stmt.lower, textLines_append, List.filterMap_append, local?_condition,
      local?_lowerAll p stmts, Stmt.locals, List.nil_append]
  | .ifElse _ test ⟨_, stmts⟩ otherwise ⟨_, others⟩ _, depth => by
    simp only [Stmt.lower, textLines_append, List.filterMap_append, local?_condition,
      local?_lowerAll p stmts, local?_lowerAll p others, Stmt.locals, List.nil_append,
      List.append_nil]
  | .assign _ _ _ _, _ => rfl
  | .declare _ _, _ => rfl
  | .send _ vertex message _, depth => by
    rw [Stmt.lower, textLines_cons, textLines_nil, List.append_nil]
    exact local?_send vertex message _ _ depth
  | .return _ _, _ => rfl
/-- Lowered statements declare their local variables, in order. -/
theorem local?_lowerAll (p : Policy) : ∀ (ss : List Stmt) (depth : Nat),
    (textLines (lowerAll p depth ss)).filterMap (fun line => line.role.local?) = localsOf ss
  | [], _ => rfl
  | s :: ss, depth => by
    rw [lowerAll, textLines_append, List.filterMap_append, s.local?_lower p, local?_lowerAll p ss,
      localsOf]
end

/-- Masks with different numbers have different declarations. -/
theorem eq_of_maskDeclaration_eq {p : Policy} {j k : Nat}
    (h : maskDeclaration p (.mask j) = maskDeclaration p (.mask k)) : j = k := by
  have hsplit : ∀ n, maskDeclaration p (.mask n) =
      (p.vectorType.toList ++ "<bool> mask_".toList).dropWhile (· == ' ') ++
        ((toString n).toList ++ [';']) := by
    intro n
    have happend : ∀ a b c d e : String, (a ++ b ++ (c ++ d) ++ e).toList =
        a.toList ++ (b.toList ++ c.toList) ++ (d.toList ++ e.toList) := by
      intro a b c d e
      simp
    have hlist : (declarationText p.vectorType (.mask n)).toList =
        p.vectorType.toList ++ "<bool> mask_".toList ++ ((toString n).toList ++ [';']) :=
      happend _ _ _ _ _
    -- The angle bracket is no blank, so nothing behind it is dropped.
    have hne : (p.vectorType.toList ++ "<bool> mask_".toList).dropWhile (· == ' ') ≠ [] := by
      intro hnil
      have hblank := List.dropWhile_eq_nil_iff.mp hnil '<'
        (List.mem_append_right _ (by decide))
      cases hblank
    rw [maskDeclaration, unindented, hlist, List.dropWhile_append, if_neg (by simpa using hne)]
  rw [hsplit, hsplit] at h
  have hdigits : (toString j).toList = (toString k).toList :=
    List.append_cancel_right (List.append_cancel_left h)
  exact toString_nat_injective (String.toList_injective hdigits)

/-- The lines of an annotated body have no clash exactly if its local declarations and those of its
masks have different texts. -/
theorem clashFree_lowerBody_iff_nodup {body : Node String} {a : Annotated}
    (h : annotate body = .ok a) (p : Policy) :
    ClashFree p (textLines (lowerBody p a.root)) ↔
      ((localsOf a.root.stmts).map localDeclaration ++
        (minted 1 (a.masks + 1)).map (maskDeclaration p)).Nodup := by
  obtain ⟨-, r, hw, rfl⟩ := walk_of_annotate h
  have hlocals : (textLines (lowerBody p ⟨.root, r.value⟩)).filterMap
      (fun line => line.role.local?) = localsOf r.value := local?_lowerAll p r.value 1
  have hmasks : partsOf LineRole.declares (textLines (lowerBody p ⟨.root, r.value⟩)) =
      minted 1 (r.next - 1 + 1) := by
    rw [Nat.sub_add_cancel hw.next_le]
    exact (hw.partsOf_eq p 1).1.trans hw.conditionLabels_eq
  have hperm := declarations_perm p (textLines (lowerBody p ⟨.root, r.value⟩))
  rw [hlocals, hmasks] at hperm
  rw [clashFree_iff_nodup fun _ _ => guardAround_of_isDeclaration _]
  exact hperm.nodup_iff

/-- No mask is declared twice. -/
theorem maskDeclaration_nodup (p : Policy) (n : Nat) :
    ((minted 1 n).map (maskDeclaration p)).Nodup := by
  refine List.Nodup.map_on (fun l hl l' hl' heq => ?_) (minted_nodup 1 n)
  obtain ⟨j, -, rfl⟩ := List.mem_map.mp hl
  obtain ⟨k, -, rfl⟩ := List.mem_map.mp hl'
  rw [eq_of_maskDeclaration_eq heq]

/-- Declarations meet in the scope of the body. The lines of an annotated body declare nothing in
the braces around a send. In the body itself no two declarations are equal up to indentation exactly
if the local declarations of all its blocks and branches have different texts, and none has the text
of the declaration of one of its masks. -/
theorem lowerBody_clashFree_iff {body : Node String} {a : Annotated} (h : annotate body = .ok a)
    (p : Policy) :
    render p (lowerBody p a.root) = (textLines (lowerBody p a.root)).map (TextLine.text p) ∧
      (∀ i line, (textLines (lowerBody p a.root))[i]? = some line →
        line.role.isDeclaration = true → guardAround (textLines (lowerBody p a.root)) i = none) ∧
      (ClashFree p (textLines (lowerBody p a.root)) ↔
        ((localsOf a.root.stmts).map localDeclaration).Nodup ∧
          ∀ tokens ∈ localsOf a.root.stmts, ∀ k, 1 ≤ k → k ≤ a.masks →
            localDeclaration tokens ≠ maskDeclaration p (.mask k)) := by
  refine ⟨render_eq_map_text p _, fun _ _ => guardAround_of_isDeclaration _, ?_⟩
  rw [clashFree_lowerBody_iff_nodup h p, List.nodup_append']
  constructor
  · rintro ⟨hdistinct, -, hdisjoint⟩
    refine ⟨hdistinct, fun tokens ht k hk hle heq => ?_⟩
    have hmem : .mask k ∈ minted 1 (a.masks + 1) := mem_minted.mpr ⟨hk, Nat.lt_succ_of_le hle⟩
    exact hdisjoint (List.mem_map_of_mem ht) (heq ▸ List.mem_map_of_mem hmem)
  · rintro ⟨hdistinct, hne⟩
    refine ⟨hdistinct, maskDeclaration_nodup p _, fun text hlocal hmask => ?_⟩
    obtain ⟨tokens, ht, rfl⟩ := List.mem_map.mp hlocal
    obtain ⟨l, hl, heq⟩ := List.mem_map.mp hmask
    obtain ⟨k, -, rfl⟩ := List.mem_map.mp hl
    obtain ⟨hk, hlt⟩ := mem_minted.mp hl
    exact hne tokens ht k hk (Nat.le_of_lt_succ hlt) heq.symm

/-- A block of a source tree. -/
def blockOf (stmts : List (Node String)) : Node String := ⟨.block, "", [], stmts, ⟨0, 0⟩⟩

/-- A declaration of an integer in a source tree. -/
def integerNamed (name : String) : Node String :=
  ⟨.declaration, "", ["int", name, ";"], [], ⟨0, 0⟩⟩

/-- A body that declares two names in blocks and a third one in a branch. -/
def scatteredNames : Node String :=
  blockOf [blockOf [integerNamed "x"], blockOf [integerNamed "y"],
    ⟨.conditional, "", [], [⟨.other, "", ["c"], [], ⟨0, 0⟩⟩, blockOf [integerNamed "z"]], ⟨0, 0⟩⟩]

/-- Different names of blocks and branches, and the mask of a branch, can stand together. -/
theorem lowerBody_clashFree_scatteredNames :
    ∃ a, annotate scatteredNames = .ok a ∧
      (localsOf a.root.stmts).length = 3 ∧ a.masks = 1 ∧
      ClashFree ⟨true, "m", defaultVectorType⟩
        (textLines (lowerBody ⟨true, "m", defaultVectorType⟩ a.root)) := by
  have hbody : (annotate scatteredNames).toOption.map
      (fun a => (localsOf a.root.stmts, a.masks)) =
        some ([["int", "x", ";"], ["int", "y", ";"], ["int", "z", ";"]], 1) := by
    decide +kernel
  obtain ⟨a, ha, hpair⟩ := exists_eq_ok hbody
  obtain ⟨hlocals, hmasks⟩ := Prod.mk.inj hpair
  refine ⟨a, ha, by rw [hlocals]; rfl, hmasks, ?_⟩
  refine (lowerBody_clashFree_iff ha ⟨true, "m", defaultVectorType⟩).2.2.mpr ?_
  rw [hlocals, hmasks]
  refine ⟨by decide +kernel, fun tokens ht k hk hle => ?_⟩
  obtain rfl : k = 1 := Nat.le_antisymm hle hk
  revert tokens
  decide +kernel

mutual
/-- The statement sequences of the blocks and branches in a statement. -/
def Stmt.sequences : Stmt → List (List Stmt)
  | .block ⟨_, stmts⟩ => stmts :: sequencesOf stmts
  | .ifThen _ _ ⟨_, stmts⟩ _ => stmts :: sequencesOf stmts
  | .ifElse _ _ ⟨_, stmts⟩ _ ⟨_, others⟩ _ =>
    stmts :: (sequencesOf stmts ++ others :: sequencesOf others)
  | _ => []
/-- The statement sequences of the blocks and branches in some statements. -/
def sequencesOf : List Stmt → List (List Stmt)
  | [] => []
  | s :: ss => s.sequences ++ sequencesOf ss
end

/-- The tokens of a statement that declares a local name. -/
def Stmt.local? : Stmt → Option (List String)
  | .declare _ tokens => some tokens
  | _ => none

/-- No block or branch, and not the body itself, holds two declarations with the same tokens. -/
def ScopedApart (stmts : List Stmt) : Prop :=
  ∀ sequence ∈ stmts :: sequencesOf stmts, (sequence.filterMap Stmt.local?).Nodup

instance (stmts : List Stmt) : Decidable (ScopedApart stmts) := List.decidableBAll ..

/-- A body of two blocks that declare the same name. -/
def twinNames : Node String := blockOf [blockOf [integerNamed "x"], blockOf [integerNamed "x"]]

/-- Declarations that blocks keep apart clash once they stand in the scope of the body. -/
theorem lowerBody_clash_twinNames :
    ∃ a, annotate twinNames = .ok a ∧ ScopedApart a.root.stmts ∧
      ∀ p, ¬ClashFree p (textLines (lowerBody p a.root)) := by
  have hbody : (annotate twinNames).toOption.map
      (fun a => (decide (ScopedApart a.root.stmts), localsOf a.root.stmts)) =
        some (true, [["int", "x", ";"], ["int", "x", ";"]]) := by
    decide +kernel
  obtain ⟨a, ha, hpair⟩ := exists_eq_ok hbody
  obtain ⟨hapart, hlocals⟩ := Prod.mk.inj hpair
  refine ⟨a, ha, of_decide_eq_true hapart, fun p hfree => ?_⟩
  have hnodup := (List.nodup_append'.mp ((clashFree_lowerBody_iff_nodup ha p).mp hfree)).1
  rw [hlocals] at hnodup
  revert hnodup
  decide +kernel

end VertexLanes
