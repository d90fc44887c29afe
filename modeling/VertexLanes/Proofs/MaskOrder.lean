import Mathlib.Data.List.Nodup
import VertexLanes.Proofs.CodeLines
import VertexLanes.Proofs.Labelling

/-!
# Masks are declared, filled and used in this order

The blocks of a body are written one after the other, so only the order of the
lines says where a mask can be used. Each mask of an annotated body is declared
on one line, outside the braces of every send, and filled on one later line. All
lines that use it come after that.
-/

namespace VertexLanes

/-- The mask of a branch that a mask argument names, if it names one. -/
def argumentLabels : Option Mask → List Label
  | some (.minted k) => [.mask k]
  | _ => []

theorem Policy.argumentLabels_root (p : Policy) : argumentLabels (p.mask .root) = [] := by
  cases htrack : p.tracking <;> simp [Policy.mask, htrack, argumentLabels]

/-- A mask argument under a label names no other mask than that of the label. -/
theorem Policy.eq_of_mem_argumentLabels {p : Policy} {label l : Label}
    (h : l ∈ argumentLabels (p.mask label)) : l = label := by
  cases label with
  | root =>
    rw [p.argumentLabels_root] at h
    cases h
  | mask k => simpa [Policy.mask, argumentLabels] using h

namespace LineRole

/-- The masks that a line declares. -/
def declares : LineRole → List Label
  | .declareMask label => [label]
  | _ => []

/-- The masks that a line fills. -/
def fills : LineRole → List Label
  | .update (.mask label) _ _ => [label]
  | _ => []

/-- The masks that a line uses: as a mask argument, as what a complement is taken of, in the guard
of a send, or in the record of a message. -/
def uses : LineRole → List Label
  | .update _ value mask => argumentLabels mask ++ value.labels
  | .openGuard mask => argumentLabels (some mask)
  | .record _ mask => argumentLabels (some mask)
  | _ => []

/-- The number of braces around the lines after a line, given that around the line. -/
def nest (depth : Nat) : LineRole → Nat
  | .openGuard _ => depth + 1
  | .closeGuard => depth - 1
  | _ => depth

end LineRole

/-- The number of guards that are open after some lines. -/
def guardDepth (lines : List TextLine) : Nat :=
  lines.foldl (fun depth line => line.role.nest depth) 0

/-! ## Where a mask takes part -/

/-- The masks that take part in lines, in order. -/
def partsOf (part : LineRole → List Label) (lines : List TextLine) : List Label :=
  lines.flatMap fun line => part line.role

/-- A mask takes part in the line of a given number. -/
def MaskAt (part : LineRole → List Label) (lines : List TextLine) (l : Label) (i : Nat) : Prop :=
  ∃ line, lines[i]? = some line ∧ l ∈ part line.role

section
variable {part : LineRole → List Label} {lines rest : List TextLine} {line : TextLine} {l : Label}
  {i : Nat}

@[simp] theorem partsOf_cons :
    partsOf part (line :: lines) = part line.role ++ partsOf part lines := rfl

@[simp] theorem partsOf_append :
    partsOf part (lines ++ rest) = partsOf part lines ++ partsOf part rest :=
  List.flatMap_append

@[simp] theorem maskAt_cons_zero : MaskAt part (line :: lines) l 0 ↔ l ∈ part line.role := by
  simp [MaskAt]

@[simp] theorem maskAt_cons_succ :
    MaskAt part (line :: lines) l (i + 1) ↔ MaskAt part lines l i := by
  simp [MaskAt]

theorem MaskAt.mem_partsOf (h : MaskAt part lines l i) : l ∈ partsOf part lines := by
  obtain ⟨line, hline, hl⟩ := h
  exact List.mem_flatMap.mpr ⟨line, List.mem_of_getElem? hline, hl⟩

/-- A mask at a line of two runs is at one of the first, or at one of the second counted behind it.
-/
theorem maskAt_append :
    MaskAt part (lines ++ rest) l i ↔
      MaskAt part lines l i ∨ ∃ j, i = lines.length + j ∧ MaskAt part rest l j := by
  induction lines generalizing i with
  | nil => simp [MaskAt]
  | cons line lines ih =>
    cases i with
    | zero => simp [Nat.add_right_comm]
    | succ i => simp [ih, Nat.add_right_comm]

/-- A mask that takes part once does so in exactly one line. -/
theorem exists_maskAt_iff (hn : (partsOf part lines).Nodup) (hl : l ∈ partsOf part lines) :
    ∃ i, ∀ j, MaskAt part lines l j ↔ j = i := by
  induction lines with
  | nil => cases hl
  | cons line lines ih =>
    change (part line.role ++ partsOf part lines).Nodup at hn
    change l ∈ part line.role ++ partsOf part lines at hl
    obtain ⟨-, hrest, hdisjoint⟩ := List.nodup_append'.mp hn
    rcases List.mem_append.mp hl with hhere | hlater
    · refine ⟨0, fun j => ?_⟩
      cases j with
      | zero => simpa using hhere
      | succ j =>
        have hnot : ¬ MaskAt part lines l j := fun h => hdisjoint hhere h.mem_partsOf
        simpa using hnot
    · obtain ⟨i, hi⟩ := ih hrest hlater
      refine ⟨i + 1, fun j => ?_⟩
      cases j with
      | zero =>
        have hnot : l ∉ part line.role := fun h => hdisjoint h hlater
        simpa using hnot
      | succ j => simpa using hi j

end

/-! ## The order of the lines -/

/-- Lines that need only masks which an earlier line provides, or which are ready from the start. -/
def Ordered (provides needs : LineRole → List Label) (ready : Label → Prop) :
    List TextLine → Prop
  | [] => True
  | line :: lines =>
    (∀ l ∈ needs line.role, ready l) ∧
      Ordered provides needs (fun l => ready l ∨ l ∈ provides line.role) lines

section
variable {provides needs : LineRole → List Label} {ready ready' : Label → Prop}
  {lines rest : List TextLine} {l : Label} {i : Nat}

/-- Lines stay ordered if more masks are ready from the start. -/
theorem Ordered.mono (h : Ordered provides needs ready lines) (hr : ∀ l, ready l → ready' l) :
    Ordered provides needs ready' lines := by
  induction lines generalizing ready ready' with
  | nil => trivial
  | cons line lines ih =>
    obtain ⟨hneeds, hlines⟩ := h
    exact ⟨fun l hl => hr l (hneeds l hl), ih hlines fun l => Or.imp_left (hr l)⟩

/-- Lines that are in order from the same start are in order one after the other. -/
theorem Ordered.append (h : Ordered provides needs ready lines)
    (hrest : Ordered provides needs ready rest) : Ordered provides needs ready (lines ++ rest) := by
  induction lines generalizing ready with
  | nil => exact hrest
  | cons line lines ih =>
    obtain ⟨hneeds, hlines⟩ := h
    exact ⟨hneeds, ih hlines (hrest.mono fun _ => Or.inl)⟩

/-- Lines that need only what is ready from the start are in order. -/
theorem ordered_of_ready (h : ∀ line ∈ lines, ∀ l ∈ needs line.role, ready l) :
    Ordered provides needs ready lines := by
  induction lines generalizing ready with
  | nil => trivial
  | cons line lines ih =>
    rw [List.forall_mem_cons] at h
    exact ⟨h.1, ih fun later hlater l hl => Or.inl (h.2 later hlater l hl)⟩

/-- What a line needs is ready from the start or provided by an earlier line. -/
theorem Ordered.provided_before (h : Ordered provides needs ready lines)
    (hi : MaskAt needs lines l i) : ready l ∨ ∃ j < i, MaskAt provides lines l j := by
  induction lines generalizing ready i with
  | nil => simp [MaskAt] at hi
  | cons line lines ih =>
    obtain ⟨hneeds, hlines⟩ := h
    cases i with
    | zero => exact Or.inl (hneeds l (by simpa using hi))
    | succ i =>
      rcases ih hlines (by simpa using hi) with (hready | hhere) | ⟨j, hj, hlater⟩
      · exact Or.inl hready
      · exact Or.inr ⟨0, Nat.succ_pos i, by simpa using hhere⟩
      · exact Or.inr ⟨j + 1, Nat.succ_lt_succ hj, by simpa using hlater⟩

end

/-! ## The lines of a body -/

/-- A condition is a declaration of its mask and an update of it. -/
theorem textLines_condition (p : Policy) (depth : Nat) (c : Condition) :
    textLines (c.lower p depth) =
      [⟨depth, .declareMask c.label⟩, ⟨depth, .update (.mask c.label) c.test (p.mask c.guard)⟩] :=
  rfl

/-- The lines of a send under a mask argument use at most the mask that it names. -/
theorem uses_send {vertex message : String} {mask : Option Mask} {track : Bool} {depth : Nat}
    {line : TextLine} (h : line ∈ (Instr.send vertex message mask track).textLines depth) :
    line.role.declares = [] ∧ line.role.fills = [] ∧ line.role.uses ⊆ argumentLabels mask := by
  cases mask with
  | none =>
    obtain rfl := List.mem_singleton.mp h
    exact ⟨rfl, rfl, List.nil_subset _⟩
  | some m =>
    cases track with
    | false =>
      simp only [Instr.textLines, Bool.false_eq_true, ↓reduceIte, List.nil_append, List.mem_cons,
        List.not_mem_nil, or_false] at h
      rcases h with rfl | rfl | rfl
      all_goals simp [LineRole.declares, LineRole.fills, LineRole.uses]
    | true =>
      simp only [Instr.textLines, ↓reduceIte, List.cons_append, List.nil_append, List.mem_cons,
        List.not_mem_nil, or_false] at h
      rcases h with rfl | rfl | rfl | rfl
      all_goals simp [LineRole.declares, LineRole.fills, LineRole.uses]

/-- The lines of a simple statement declare and fill no mask, and use at most that of the
statement's label. -/
theorem Simple.textLines_cases {label : Label} {n : Node String} {s : Stmt}
    {notes : List (Located BodyNotice)} (h : Simple label n (some s) notes) (p : Policy)
    (depth : Nat) : ∀ line ∈ textLines (s.lower p depth),
      line.role.declares = [] ∧ line.role.fills = [] ∧
        line.role.uses ⊆ argumentLabels (p.mask label) := by
  intro line hline
  obtain ⟨-, target, value, rfl, hv⟩ | ⟨-, tokens, rfl⟩ | ⟨-, vertex, message, rfl⟩ |
    ⟨-, expr, rfl⟩ := h.kept_cases
  · obtain rfl := List.mem_singleton.mp hline
    simp [LineRole.declares, LineRole.fills, LineRole.uses, LaneExpr.labels_eq_nil hv]
  · obtain rfl := List.mem_singleton.mp hline
    exact ⟨rfl, rfl, List.nil_subset _⟩
  · rw [Stmt.lower, textLines_cons, textLines_nil, List.append_nil] at hline
    exact uses_send hline
  · obtain rfl := List.mem_singleton.mp hline
    exact ⟨rfl, rfl, List.nil_subset _⟩

/-- Lines without masks have none together. -/
theorem partsOf_eq_nil {part : LineRole → List Label} {lines : List TextLine}
    (h : ∀ line ∈ lines, part line.role = []) : partsOf part lines = [] :=
  List.flatMap_eq_nil_iff.mpr h

/-- The lines of a walk declare the masks of its tests and fill them, each once and in the order of
the tests. -/
theorem Walk.partsOf_eq {label : Label} {next : Nat} {ns : List (Node String)}
    {r : Noted (List Stmt)} (h : Walk label next ns r) (p : Policy) (depth : Nat) :
    partsOf LineRole.declares (textLines (lowerAll p depth r.value)) = conditionLabels r.value ∧
      partsOf LineRole.fills (textLines (lowerAll p depth r.value)) = conditionLabels r.value := by
  induction h generalizing depth with
  | nil => exact ⟨rfl, rfl⟩
  | block _ _ _ ihInner ihRest =>
    simp [lowerAll, Stmt.lower, ihInner (depth + 1), ihRest depth]
  | ifThen _ _ _ _ _ ihInner ihRest =>
    simp [lowerAll, Stmt.lower, textLines_condition, LineRole.declares, LineRole.fills,
      ihInner (depth + 1), ihRest depth]
  | ifElse _ _ _ _ _ _ ihInner ihElse ihRest =>
    simp [lowerAll, Stmt.lower, textLines_condition, LineRole.declares, LineRole.fills,
      ihInner (depth + 1), ihElse (depth + 1), ihRest depth]
  | kept simple _ ih =>
    have hlines := simple.textLines_cases p depth
    rw [lowerAll, textLines_append, partsOf_append, partsOf_append, simple.conditionLabels_cons,
      partsOf_eq_nil fun line hline => (hlines line hline).1,
      partsOf_eq_nil fun line hline => (hlines line hline).2.1]
    exact ih depth
  | dropped _ _ ih => exact ih depth

/-- A test declares its mask before it fills it, so the lines after it need not. -/
theorem ordered_fills_condition {ready : Label → Prop} (p : Policy) (depth : Nat) (c : Condition)
    {rest : List TextLine} (hrest : Ordered LineRole.declares LineRole.fills ready rest) :
    Ordered LineRole.declares LineRole.fills ready (textLines (c.lower p depth) ++ rest) := by
  refine ⟨List.forall_mem_nil _, fun l hl => Or.inr hl, ?_⟩
  exact hrest.mono fun l hl => Or.inl (Or.inl hl)

/-- In the lines of a walk every mask is declared before it is filled. -/
theorem Walk.ordered_fills {label : Label} {next : Nat} {ns : List (Node String)}
    {r : Noted (List Stmt)} (h : Walk label next ns r) (p : Policy) (depth : Nat)
    (ready : Label → Prop) :
    Ordered LineRole.declares LineRole.fills ready (textLines (lowerAll p depth r.value)) := by
  induction h generalizing depth with
  | nil => trivial
  | block _ _ _ ihInner ihRest =>
    rw [lowerAll, Stmt.lower, textLines_append]
    exact (ihInner (depth + 1)).append (ihRest depth)
  | ifThen _ _ _ _ _ ihInner ihRest =>
    rw [lowerAll, Stmt.lower, textLines_append, textLines_append]
    exact (ordered_fills_condition p depth _ (ihInner (depth + 1))).append (ihRest depth)
  | ifElse _ _ _ _ _ _ ihInner ihElse ihRest =>
    simp only [lowerAll, Stmt.lower, textLines_append, List.append_assoc]
    refine ordered_fills_condition p depth _ ((ihInner (depth + 1)).append ?_)
    exact ordered_fills_condition p depth _ ((ihElse (depth + 1)).append (ihRest depth))
  | kept simple _ ih =>
    rw [lowerAll, textLines_append]
    refine Ordered.append (ordered_of_ready fun line hline l hl => ?_) (ih depth)
    rw [(simple.textLines_cases p depth line hline).2.1] at hl
    cases hl
  | dropped _ _ ih => exact ih depth

/-- A test uses its guard and what it is a complement of; after it, its own mask is filled. -/
theorem ordered_uses_condition {ready : Label → Prop} {p : Policy} (depth : Nat) {c : Condition}
    {rest : List TextLine} (hguard : ∀ l ∈ argumentLabels (p.mask c.guard), ready l)
    (htest : ∀ l ∈ c.test.labels, ready l)
    (hrest : Ordered LineRole.fills LineRole.uses (fun l => ready l ∨ l = c.label) rest) :
    Ordered LineRole.fills LineRole.uses ready (textLines (c.lower p depth) ++ rest) := by
  refine ⟨List.forall_mem_nil _, fun l hl => Or.inl ?_, ?_⟩
  · exact (List.mem_append.mp hl).elim (hguard l) (htest l)
  · refine hrest.mono fun l hl => ?_
    exact hl.imp Or.inl List.mem_singleton.mpr

/-- In the lines of a walk every mask is filled before it is used, if the mask of the walk's own
label is filled. -/
theorem Walk.ordered_uses {label : Label} {next : Nat} {ns : List (Node String)}
    {r : Noted (List Stmt)} (h : Walk label next ns r) (p : Policy) (depth : Nat)
    {ready : Label → Prop} (hlabel : ∀ l ∈ argumentLabels (p.mask label), ready l) :
    Ordered LineRole.fills LineRole.uses ready (textLines (lowerAll p depth r.value)) := by
  induction h generalizing depth ready with
  | nil => trivial
  | block _ _ _ ihInner ihRest =>
    rw [lowerAll, Stmt.lower, textLines_append]
    exact (ihInner (depth + 1) hlabel).append (ihRest depth hlabel)
  | ifThen _ _ _ _ _ ihInner ihRest =>
    rw [lowerAll, Stmt.lower, textLines_append, textLines_append]
    refine Ordered.append (ordered_uses_condition depth hlabel ?_ ?_) (ihRest depth hlabel)
    · simp [LaneExpr.labels_eq_nil (classify_not_complement _)]
    · exact ihInner (depth + 1) fun l hl => Or.inr (Policy.eq_of_mem_argumentLabels hl)
  | @ifElse label next _ _ _ _ _ _ _ _ _ _ _ _ _ _ ihInner ihElse ihRest =>
    simp only [lowerAll, Stmt.lower, textLines_append, List.append_assoc]
    -- The first mask is filled before the else branch takes its complement.
    have houter : ∀ l ∈ argumentLabels (p.mask label), ready l ∨ l = .mask next :=
      fun l hl => Or.inl (hlabel l hl)
    refine ordered_uses_condition depth hlabel ?_ (Ordered.append ?_ ?_)
    · simp [LaneExpr.labels_eq_nil (classify_not_complement _)]
    · exact ihInner (depth + 1) fun l hl => Or.inr (Policy.eq_of_mem_argumentLabels hl)
    · refine ordered_uses_condition depth houter ?_ (Ordered.append ?_ (ihRest depth ?_))
      · exact fun l hl => Or.inr (List.mem_singleton.mp hl)
      · exact ihElse (depth + 1) fun l hl => Or.inr (Policy.eq_of_mem_argumentLabels hl)
      · exact fun l hl => Or.inl (houter l hl)
  | kept simple _ ih =>
    rw [lowerAll, textLines_append]
    refine Ordered.append (ordered_of_ready fun line hline l hl => ?_) (ih depth hlabel)
    exact hlabel l ((simple.textLines_cases p depth line hline).2.2 hl)
  | dropped _ _ ih => exact ih depth hlabel

/-! ## Guards -/

/-- An instruction closes every guard that it opens. -/
theorem foldl_nest_textLines (instr : Instr) (indent depth : Nat) :
    (instr.textLines indent).foldl (fun depth line => line.role.nest depth) depth = depth := by
  cases instr with
  | send vertex message mask track =>
    cases mask with
    | none => rfl
    | some m => cases track <;> rfl
  | _ => rfl

/-- An instruction with a line that declares a mask has no other line. -/
theorem eq_zero_of_declares {instr : Instr} {depth i : Nat} {l : Label}
    (h : MaskAt LineRole.declares (instr.textLines depth) l i) : i = 0 := by
  obtain ⟨line, hline, hl⟩ := h
  cases instr with
  | declareMask label => exact Nat.lt_one_iff.mp (List.getElem?_eq_some_iff.mp hline).1
  | send vertex message mask track =>
    rw [(uses_send (List.mem_of_getElem? hline)).1] at hl
    cases hl
  | _ =>
    obtain rfl := List.mem_singleton.mp (List.mem_of_getElem? hline)
    cases hl

/-- A mask is declared outside all guards. -/
theorem guardDepth_of_declares (code : List Line) {l : Label} {i : Nat}
    (h : MaskAt LineRole.declares (textLines code) l i) :
    guardDepth ((textLines code).take i) = 0 := by
  induction code generalizing i with
  | nil => simp [MaskAt] at h
  | cons line code ih =>
    rw [textLines_cons] at h ⊢
    rcases maskAt_append.mp h with hfirst | ⟨j, rfl, hlater⟩
    · rw [eq_zero_of_declares hfirst]
      rfl
    · rw [List.take_length_add_append, guardDepth, List.foldl_append, foldl_nest_textLines]
      exact ih hlater

/-! ## Annotated bodies -/

/-- A mask is declared on one line, outside all guards, filled on one line after that, and used
only after it is filled. -/
def ReadyBeforeUse (lines : List TextLine) (l : Label) : Prop :=
  ∃ declared filled, declared < filled ∧
    (∀ i, MaskAt LineRole.declares lines l i ↔ i = declared) ∧
    guardDepth (lines.take declared) = 0 ∧
    (∀ i, MaskAt LineRole.fills lines l i ↔ i = filled) ∧
    ∀ i, MaskAt LineRole.uses lines l i → filled < i

/-- A mask that lines declare and fill once, in this order and before it is used, is ready before
use. -/
theorem readyBeforeUse_of_ordered {lines : List TextLine} {l : Label}
    (hdeclares : (partsOf LineRole.declares lines).Nodup)
    (hfills : (partsOf LineRole.fills lines).Nodup)
    (hld : l ∈ partsOf LineRole.declares lines) (hlf : l ∈ partsOf LineRole.fills lines)
    (hguard : ∀ i, MaskAt LineRole.declares lines l i → guardDepth (lines.take i) = 0)
    (hdeclared : Ordered LineRole.declares LineRole.fills (fun _ => False) lines)
    (hfilled : Ordered LineRole.fills LineRole.uses (fun _ => False) lines) :
    ReadyBeforeUse lines l := by
  obtain ⟨declared, hd⟩ := exists_maskAt_iff hdeclares hld
  obtain ⟨filled, hf⟩ := exists_maskAt_iff hfills hlf
  refine ⟨declared, filled, ?_, hd, hguard declared ((hd declared).mpr rfl), hf, fun i hi => ?_⟩
  · obtain ⟨j, hj, hat⟩ := (hdeclared.provided_before ((hf filled).mpr rfl)).resolve_left id
    rwa [(hd j).mp hat] at hj
  · obtain ⟨j, hj, hat⟩ := (hfilled.provided_before hi).resolve_left id
    rwa [(hf j).mp hat] at hj

theorem minted_nodup (first stop : Nat) : (minted first stop).Nodup := by
  refine (minted_pairwise first stop).imp fun {l l'} hlt heq => ?_
  subst heq
  cases l with
  | root => exact hlt
  | mask k => exact Nat.lt_irrefl k hlt

/-- Masks are declared once and before use. Among the lines of an annotated body, each of its masks
is declared by exactly one, outside the braces of every send, and filled by exactly one after that.
Every line that uses the mask comes later still, and no other mask is used. -/
theorem lowerBody_readyBeforeUse {body : Node String} {a : Annotated} (h : annotate body = .ok a)
    (p : Policy) :
    render p (lowerBody p a.root) = (textLines (lowerBody p a.root)).map (TextLine.text p) ∧
      (∀ k, 1 ≤ k → k ≤ a.masks → ReadyBeforeUse (textLines (lowerBody p a.root)) (.mask k)) ∧
      ∀ l i, MaskAt LineRole.uses (textLines (lowerBody p a.root)) l i →
        ∃ k, 1 ≤ k ∧ k ≤ a.masks ∧ l = .mask k := by
  obtain ⟨-, r, hw, rfl⟩ := walk_of_annotate h
  obtain ⟨hdeclares, hfills⟩ := hw.partsOf_eq p 1
  rw [hw.conditionLabels_eq] at hdeclares hfills
  have hdeclared := hw.ordered_fills p 1 fun _ => False
  have hfilled : Ordered LineRole.fills LineRole.uses (fun _ => False)
      (textLines (lowerAll p 1 r.value)) := by
    refine hw.ordered_uses p 1 fun l hl => ?_
    rw [p.argumentLabels_root] at hl
    cases hl
  have hnext : 1 ≤ r.next := hw.next_le
  refine ⟨render_eq_map_text p _, fun k hk (hmasks : k ≤ r.next - 1) => ?_, fun l i hi => ?_⟩
  · have hmem : .mask k ∈ minted 1 r.next := mem_minted.mpr ⟨hk, by omega⟩
    refine readyBeforeUse_of_ordered ?_ ?_ (hdeclares ▸ hmem) (hfills ▸ hmem)
      (fun i hi => guardDepth_of_declares _ hi) hdeclared hfilled
    · exact hdeclares ▸ minted_nodup 1 r.next
    · exact hfills ▸ minted_nodup 1 r.next
  · obtain ⟨j, -, hj⟩ := (hfilled.provided_before hi).resolve_left id
    have hmem : l ∈ minted 1 r.next := hfills ▸ hj.mem_partsOf
    cases l with
    | root => simp [minted] at hmem
    | mask k =>
      obtain ⟨hk, hlt⟩ := mem_minted.mp hmem
      exact ⟨k, hk, Nat.le_pred_of_lt hlt, rfl⟩

/-- A body with a send in each branch of a conditional, one of them in a conditional of its own, and
a send after it. -/
def signallingBody : Node String :=
  let test (name : String) : Node String := ⟨.other, "", [name], [], ⟨0, 0⟩⟩
  let send (name : String) : Node String := ⟨.call, name, [], [], ⟨0, 0⟩⟩
  let block (stmts : List (Node String)) : Node String := ⟨.block, "", [], stmts, ⟨0, 0⟩⟩
  let conditional (children : List (Node String)) : Node String :=
    ⟨.conditional, "", [], children, ⟨0, 0⟩⟩
  block
    [conditional
      [test "a",
        block [conditional [test "b", block [send "context_signal_v_m"]]],
        block [send "context_signal_w_m"]],
      send "context_signal_x_m"]

/-- The three masks of a body that signals under them. -/
theorem lowerBody_readyBeforeUse_signalling :
    ∃ a, annotate signallingBody = .ok a ∧ a.masks = 3 ∧
      ∀ k, 1 ≤ k → k ≤ 3 → ReadyBeforeUse
        (textLines (lowerBody ⟨true, "vp_track", defaultVectorType⟩ a.root)) (.mask k) := by
  have hmasks : (annotate signallingBody).toOption.map Annotated.masks = some 3 := by
    decide +kernel
  obtain ⟨a, ha, hm⟩ := exists_eq_ok hmasks
  refine ⟨a, ha, hm, fun k hk hk' => ?_⟩
  exact (lowerBody_readyBeforeUse ha _).2.1 k hk (hm ▸ hk')

end VertexLanes
