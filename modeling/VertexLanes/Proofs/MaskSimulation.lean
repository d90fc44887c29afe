import VertexLanes.Proofs.Labelling
import VertexLanes.Proofs.LaneSemantics

/-!
# Masked code against scalar runs

A mask that is filled under the guard of its conditional selects exactly the lanes
that would take the branch. The masks numbered below the labels of a piece of code
stay as they are while it runs, so a guard keeps its meaning through both branches,
whatever the branches assign to names that are no masks.

All of this happens in one store. A scalar run is compared with it outside some
hidden names: those of the masks, and those of the masks that messages carry.
-/

namespace VertexLanes

/-! ## Names of masks -/

/-- The names of the first masks. -/
theorem mem_maskNames {count : Nat} {name : String} :
    name ∈ maskNames count ↔ ∃ k, 0 < k ∧ k ≤ count ∧ (Label.mask k).name = name := by
  simp only [maskNames, List.mem_map, List.mem_range'_1]
  constructor
  · rintro ⟨k, hk, rfl⟩
    exact ⟨k, by omega, by omega, rfl⟩
  · rintro ⟨k, hpos, hle, rfl⟩
    exact ⟨k, by omega, rfl⟩

/-- The name of a mask has no dot, so no message carries its mask under it. -/
theorem trackText_not_mem_maskNames (message : String) (count : Nat) :
    trackText message ∉ maskNames count := by
  intro h
  obtain ⟨k, -, -, hname⟩ := mem_maskNames.mp h
  have hdot : '.' ∈ (Label.mask k).name.toList := by
    rw [hname, trackText, String.toList_append]
    exact List.mem_append_right _ (by decide)
  have happend : ∀ s : String, '.' ∈ ("mask_" ++ s).toList → '.' ∈ s.toList := by
    intro s hs
    rw [String.toList_append, List.mem_append] at hs
    exact hs.resolve_left (by decide)
  have hdigit := happend (toString k) hdot
  change '.' ∈ k.repr.toList at hdigit
  rw [Nat.toList_repr] at hdigit
  exact absurd (Nat.isDigit_of_mem_toDigits (by decide) (by decide) hdigit) (by decide)

/-! ## Values -/

section
variable {V : Type} (M : LaneModel V)

/-- The value of an expression in a store. That of a complement is the negation of the mask. -/
def LaneModel.value (store : String → V) : LaneExpr → V
  | .pass text => M.operand text store
  | .unary op operand => M.operator op [M.operand operand store]
  | .binary op lhs rhs => M.operator op [M.operand lhs store, M.operand rhs store]
  | .complement label => M.operator .neg [M.operand label.name store]

/-- In a scalar run an expression other than a complement has its value. -/
theorem LaneModel.scalarValue_eq (vars : String → V) {e : LaneExpr} (h : e.isComplement = false) :
    M.scalarValue vars e = some (M.value vars e) := by
  cases e with
  | complement label => cases h
  | _ => rfl

/-- An expression has the same value in stores that differ only where its operands do not look. -/
theorem LaneModel.value_congr {names : List String} {e : LaneExpr} {s s' : String → V}
    (h : ∀ text ∈ e.operands, M.Ignores names text) (hs : ∀ name ∉ names, s name = s' name) :
    M.value s e = M.value s' e := by
  have hoperand : ∀ text ∈ e.operands, M.operand text s = M.operand text s' :=
    fun text ht => h text ht s s' hs
  cases e with
  | pass text => exact hoperand text (by simp [LaneExpr.operands])
  | unary op operand =>
    rw [value, value, hoperand operand (by simp [LaneExpr.operands])]
  | binary op lhs rhs =>
    rw [value, value, hoperand lhs (by simp [LaneExpr.operands]),
      hoperand rhs (by simp [LaneExpr.operands])]
  | complement label =>
    rw [value, value, hoperand label.name (by simp [LaneExpr.operands])]

/-- The complement of a mask depends only on what is stored under the name of the mask. -/
theorem LaneModel.complement_congr {store other : String → V} {k : Nat}
    (h : store (Label.mask k).name = other (Label.mask k).name) :
    M.value store (.complement (.mask k)) = M.value other (.complement (.mask k)) := by
  have hoperand : M.operand (Label.mask k).name store = M.operand (Label.mask k).name other :=
    (M.operand_mask k store).trans (h.trans (M.operand_mask k other).symm)
  rw [value, value, hoperand]

/-- The complement of a mask is true where the mask is false. -/
theorem LaneModel.truth_complement {store : String → V} {k : Nat} {bit : Bool}
    (h : store (Label.mask k).name = M.ofMask bit) :
    M.truth (M.value store (.complement (.mask k))) = !bit := by
  have hoperand : M.operand (Label.mask k).name store = M.ofMask bit :=
    (M.operand_mask k store).trans h
  rw [value, hoperand, M.truth_neg_ofMask]

/-- A function of the library is found by its documented name. -/
theorem libraryOp?_libraryName (op : VectorOp) : libraryOp? op.libraryName = some op := by
  cases op <;> decide +kernel

/-- A function of the library applies its operator to the values of the operands. -/
theorem LaneModel.result?_libraryName (op : VectorOp) (operands : List String) :
    M.result? op.libraryName operands =
      some fun store => M.operator op (operands.map fun text => M.operand text store) := by
  have hset : op.libraryName ≠ "vec_op_set" := by cases op <;> decide
  have hresult : M.result? op.libraryName operands = (libraryOp? op.libraryName).map
      fun op store => M.operator op (operands.map fun text => M.operand text store) := by
    unfold result?
    split
    · next hname => exact absurd hname hset
    · rfl
  rw [hresult, libraryOp?_libraryName]
  rfl

/-- The documented function of an expression computes its value. -/
theorem LaneModel.result?_function (e : LaneExpr) :
    M.result? e.function e.operands = some fun store => M.value store e := by
  cases e with
  | pass text => rfl
  | unary op operand => exact M.result?_libraryName op [operand]
  | binary op lhs rhs => exact M.result?_libraryName op [lhs, rhs]
  | complement label => exact M.result?_libraryName .neg [label.name]

/-- A masked name is told apart by its ending. -/
theorem plainName?_append (s : String) : plainName? (s ++ "_mask") = some s := by
  rw [plainName?, unmasked_append, if_pos rfl]

/-- No documented function of an expression has the ending of masked names. -/
theorem plainName?_function (e : LaneExpr) : plainName? e.function = none := by
  have happlied : ∀ op : VectorOp, plainName? op.libraryName = none := by
    intro op
    cases op <;> decide +kernel
  unfold LaneExpr.function
  cases e.op? with
  | none => decide +kernel
  | some op => exact happlied op

end

/-! ## Masks in the store -/

namespace Machine

variable {n : Nat} {V : Type} (M : LaneModel V) (p : Policy)

/-- Whether a lane is live under a label. -/
def live (m : Machine n V) (label : Label) (i : Fin n) : Bool :=
  match p.mask label with
  | none => true
  | some mask => M.truth (m.stores i (p.maskText mask))

/-- A mask with the given bit in each lane, and nothing else changed. -/
def fill (m : Machine n V) (name : String) (bits : Fin n → Bool) : Machine n V :=
  { m with
    stores := fun i => Function.update (m.stores i) name (M.ofMask (bits i))
    masks := name :: m.masks }

/-- The state between the lines of a body: no guard is open, and all masks are among the first
`count` that are handed out. -/
structure Ready (count : Nat) (m : Machine n V) : Prop where
  skipped : m.skipped = 0
  masks : m.masks ⊆ maskNames count

/-- Lanes with whatever stores are ready to run. -/
theorem ready_start (count : Nat) (stores : Fin n → String → V) : (start stores).Ready count :=
  ⟨rfl, List.nil_subset _⟩

variable {M p}

/-- Filling a mask of the body leaves the lanes ready. -/
theorem Ready.fill {count k : Nat} {m : Machine n V} (h : m.Ready count) (hpos : 0 < k)
    (hk : k ≤ count) (bits : Fin n → Bool) : (m.fill M (Label.mask k).name bits).Ready count :=
  ⟨h.skipped, List.cons_subset.mpr ⟨mem_maskNames.mpr ⟨k, hpos, hk, rfl⟩, h.masks⟩⟩

/-- A filled mask holds its bits. -/
theorem stores_fill_self (m : Machine n V) (name : String) (bits : Fin n → Bool) (i : Fin n) :
    (m.fill M name bits).stores i name = M.ofMask (bits i) :=
  Function.update_self name _ _

/-- Filling a mask changes nothing under another name. -/
theorem stores_fill_of_ne (m : Machine n V) {name other : String} (h : other ≠ name)
    (bits : Fin n → Bool) (i : Fin n) : (m.fill M name bits).stores i other = m.stores i other :=
  Function.update_of_ne h _ _

/-- An update changes nothing under another name than its target. -/
theorem stores_write_of_ne (m : Machine n V) (selected : Fin n → Bool) {target name : String}
    (h : name ≠ target) (value : (String → V) → V) (i : Fin n) :
    (m.write M selected target value).stores i name = m.stores i name := by
  simp only [write]
  split
  · exact Function.update_of_ne h _ _
  · rfl

/-- A message that is given a mask carries its lanes. -/
theorem truth_record (m : Machine n V) (message mask : String) (i : Fin n) :
    M.truth ((m.record M message mask).stores i (trackText message)) =
      M.truth (m.stores i mask) := by
  simp only [record, Function.update_self]
  exact M.truth_ofMask _

/-- A lane is live under a label as long as the mask of the label is kept. -/
theorem live_congr {m m' : Machine n V} {label : Label} {i : Fin n}
    (h : ∀ mask, p.mask label = some mask →
      m'.stores i (p.maskText mask) = m.stores i (p.maskText mask)) :
    m'.live M p label i = m.live M p label i := by
  unfold live
  split
  · rfl
  · next mask hmask => rw [h mask hmask]

/-- A message is sent for the lanes of the mask it carries. -/
theorem sentFor_signal (m : Machine n V) (vertex message : String) (i : Fin n) :
    (m.signal M vertex message).sentFor i = m.sentFor i ++
      if M.truth (m.stores i (trackText message)) then [M.sent vertex message (m.stores i)]
      else [] := by
  rw [sentFor, sentFor, signal, List.filter_append, List.map_append]
  cases htruth : M.truth (m.stores i (trackText message)) with
  | false => simp [htruth]
  | true => simp [htruth]

/-- The line of an update writes the value of its expression in the lanes that are live. -/
theorem step_update {m : Machine n V} (h : m.skipped = 0) (target : Target) (e : LaneExpr)
    (label : Label) :
    m.step M ((LineRole.update target e (p.mask label)).vectorLine p) =
      some (m.write M (m.live M p label) target.text fun store => M.value store e) := by
  unfold live
  cases p.mask label with
  | none =>
    simp only [LineRole.vectorLine, step, h, call, plainName?_function, M.result?_function,
      Option.map_some]
  | some mask =>
    simp only [LineRole.vectorLine, step, h, call, plainName?_append, M.result?_function,
      Option.map_some]

/-- The lines of a test fill the mask of its branch: a lane is selected if it is live under the
guard and the test is true in it. -/
theorem run_condition {m : Machine n V} (h : m.skipped = 0) (depth : Nat) {c : Condition}
    (hguard : (m.declare M c.label.name).live M p c.guard = m.live M p c.guard)
    (htest : ∀ i, M.value ((m.declare M c.label.name).stores i) c.test =
      M.value (m.stores i) c.test) :
    m.run M (vectorLines p (c.lower p depth)) = some (m.fill M c.label.name fun i =>
      m.live M p c.guard i && M.truth (M.value (m.stores i) c.test)) := by
  have hlines : vectorLines p (c.lower p depth) =
      [.declare p.vectorType c.label.name,
        (LineRole.update (.mask c.label) c.test (p.mask c.guard)).vectorLine p] := rfl
  have hdeclare : m.step M (.declare p.vectorType c.label.name) =
      some (m.declare M c.label.name) := by
    simp only [step, h]
  have hwrite : (m.declare M c.label.name).write M (m.live M p c.guard) c.label.name
      (fun store => M.value store c.test) = m.fill M c.label.name fun i =>
        m.live M p c.guard i && M.truth (M.value (m.stores i) c.test) := by
    have hmem : c.label.name ∈ (m.declare M c.label.name).masks := List.mem_cons_self
    simp only [write, fitted, if_pos hmem, htest, fill, mk.injEq]
    refine ⟨funext fun i => ?_, rfl, rfl, rfl⟩
    cases m.live M p c.guard i with
    | false => simp [declare]
    | true => simp [declare]
  rw [hlines, run_cons, hdeclare, Option.bind_some, run_cons,
    step_update (m := m.declare M c.label.name) h, hguard, Option.bind_some]
  exact congrArg some hwrite

end Machine

/-! ## Names that are kept apart -/

/-- The label of an enclosing scope is that of the entry, or has a smaller number than the labels
inside. -/
def Label.Below (stop : Nat) : Label → Prop
  | .root => True
  | .mask k => 0 < k ∧ k < stop

/-- The mask of a label is that of the entry, with tracking, or one of the body's. -/
theorem Policy.mask_eq_some_cases {p : Policy} {label : Label} {mask : Mask}
    (h : p.mask label = some mask) :
    (label = .root ∧ p.tracking = true ∧ mask = .ambient) ∨
      ∃ k, label = .mask k ∧ mask = .minted k := by
  cases label with
  | root =>
    cases htrack : p.tracking with
    | false => simp [Policy.mask, htrack] at h
    | true =>
      simp only [Policy.mask, htrack, ↓reduceIte, Option.some.injEq] at h
      exact .inl ⟨rfl, rfl, h.symm⟩
  | mask k => exact .inr ⟨k, rfl, (Option.some.inj h).symm⟩

/-- Labels that are outside stay outside when numbers are handed out. -/
theorem Label.Below.mono {label : Label} {a b : Nat} (h : label.Below a) (hab : a ≤ b) :
    label.Below b := by
  cases label with
  | root => trivial
  | mask k => exact ⟨h.1, Nat.lt_of_lt_of_le h.2 hab⟩

/-- The masks of a body are hidden from scalar runs, and the mask of the entry is none of them. -/
structure Hides (p : Policy) (hidden : List String) (count : Nat) : Prop where
  masks : maskNames count ⊆ hidden
  ambient : p.tracking = true → p.ambient ∉ maskNames count

/-- The uses of texts by some statements are apart from the names that their code adds. -/
structure UsesApart {V : Type} (M : LaneModel V) (p : Policy) (hidden : List String) (count : Nat)
    (uses : List TextUse) : Prop where
  reads : ∀ text, .reads text ∈ uses → M.Ignores hidden text
  assigns : ∀ text, .assigns text ∈ uses →
    text ∉ maskNames count ∧ (p.tracking = true → text ≠ p.ambient)
  sends : ∀ message, .sends message ∈ uses →
    p.tracking = true ∧ trackText message ∈ hidden ∧ trackText message ≠ p.ambient

section
variable {V : Type} {M : LaneModel V} {p : Policy} {hidden : List String} {count next : Nat}

/-- Part of the uses are apart if all are. -/
theorem UsesApart.subset {uses part : List TextUse} (h : UsesApart M p hidden count uses)
    (hsub : part ⊆ uses) : UsesApart M p hidden count part where
  reads text hmem := h.reads text (hsub hmem)
  assigns text hmem := h.assigns text (hsub hmem)
  sends message hmem := h.sends message (hsub hmem)

/-- The name of the next mask is one of the body. -/
theorem name_mem_maskNames (hpos : 0 < next) (hle : next ≤ count) :
    (Label.mask next).name ∈ maskNames count :=
  mem_maskNames.mpr ⟨next, hpos, hle, rfl⟩

/-- The mask of an enclosing scope has another name than the next mask. -/
theorem Hides.maskText_ne (h : Hides p hidden count) {label : Label} (hl : label.Below next)
    (hpos : 0 < next) (hle : next ≤ count) {mask : Mask} (hm : p.mask label = some mask) :
    p.maskText mask ≠ (Label.mask next).name := by
  obtain ⟨rfl, htrack, rfl⟩ | ⟨k, rfl, rfl⟩ := Policy.mask_eq_some_cases hm
  · intro hname
    have hmem : p.maskText .ambient ∈ maskNames count := hname ▸ name_mem_maskNames hpos hle
    exact h.ambient htrack hmem
  · exact Label.name_mask_ne (Nat.ne_of_lt hl.2)

end

/-! ## Simulation -/

/-- What a lane sees of vector code outside the hidden names: a scalar run with the same variables,
which has sent what is sent for the lane. -/
structure Machine.Sees {n : Nat} {V : Type} (hidden : List String) (m : Machine n V) (i : Fin n)
    (t : Thread V) : Prop where
  vars : ∀ name ∉ hidden, t.vars name = m.stores i name
  sent : t.sent = m.sentFor i

section
variable {n : Nat} {V : Type} {M : LaneModel V} {hidden : List String} {m : Machine n V} {i : Fin n}
  {t : Thread V}

/-- A lane does not see that a hidden mask is filled. -/
theorem Machine.Sees.fill (h : m.Sees hidden i t) {name : String} (hname : name ∈ hidden)
    (bits : Fin n → Bool) : (m.fill M name bits).Sees hidden i t where
  vars other hother := by
    have hne : other ≠ name := fun he => hother (he ▸ hname)
    rw [stores_fill_of_ne m hne]
    exact h.vars other hother
  sent := h.sent

/-- An expression that looks at no hidden name has in a scalar run the value it has in the lane. -/
theorem Machine.Sees.scalarValue (h : m.Sees hidden i t) {e : LaneExpr}
    (he : e.isComplement = false) (hreads : ∀ text ∈ e.operands, M.Ignores hidden text) :
    M.scalarValue t.vars e = some (M.value (m.stores i) e) := by
  rw [M.scalarValue_eq t.vars he, M.value_congr hreads h.vars]

end

/-- A run from `m` to `m'` does to the selected lanes what the statements say. It comes from code
that hands out no number below `next`. -/
structure Simulates {n : Nat} {V : Type} (M : LaneModel V) (p : Policy) (hidden : List String)
    (selected : Fin n → Bool) (next : Nat) (stmts : List Stmt) (m m' : Machine n V) : Prop where
  /-- The masks with smaller numbers stay. -/
  masks : ∀ i k, 0 < k → k < next → m'.stores i (Label.mask k).name = m.stores i (Label.mask k).name
  /-- The mask of the entry stays. -/
  ambient : p.tracking = true → ∀ i, m'.stores i p.ambient = m.stores i p.ambient
  /-- A selected lane sees a scalar run of the statements. -/
  live : ∀ i, selected i = true → ∀ t, m.Sees hidden i t →
    ∃ t', runAll M stmts t = some t' ∧ m'.Sees hidden i t'
  /-- Any other lane sees nothing. -/
  idle : ∀ i, selected i = false → ∀ t, m.Sees hidden i t → m'.Sees hidden i t
  /-- What is sent is sent for some lane. -/
  signals : ∃ new, m'.signals = m.signals ++ new ∧ ∀ s ∈ new, ∃ i, s.track i = true

namespace Simulates

variable {n : Nat} {V : Type} {M : LaneModel V} {p : Policy} {hidden : List String}
  {selected : Fin n → Bool} {count next mid : Nat} {m m₁ m₂ : Machine n V}

/-- No code does nothing. -/
theorem nil : Simulates M p hidden selected next [] m m where
  masks _ _ _ _ := rfl
  ambient _ _ := rfl
  live _ _ t ht := ⟨t, rfl, ht⟩
  idle _ _ _ ht := ht
  signals := ⟨[], by simp, by simp⟩

/-- With no lane selected, doing nothing is as good as any statements. -/
theorem of_none_selected (stmts : List Stmt) (h : ∀ i, selected i = false) :
    Simulates M p hidden selected next stmts m m where
  masks _ _ _ _ := rfl
  ambient _ _ := rfl
  live i hi := by
    rw [h i] at hi
    cases hi
  idle _ _ _ ht := ht
  signals := ⟨[], by simp, by simp⟩

/-- A label that is in use stays live in the same lanes. -/
theorem live_eq {stmts : List Stmt} (h : Simulates M p hidden selected next stmts m m₁)
    {guard : Label} (hg : guard.Below next) : m₁.live M p guard = m.live M p guard := by
  funext i
  refine Machine.live_congr fun mask hmask => ?_
  obtain ⟨rfl, htrack, rfl⟩ | ⟨k, rfl, rfl⟩ := Policy.mask_eq_some_cases hmask
  · exact h.ambient htrack i
  · exact h.masks i k hg.1 hg.2

/-- The messages of two runs, one after the other, are all sent for some lane. -/
theorem signals_trans {ss ts : List Stmt} {others : Fin n → Bool}
    (first : Simulates M p hidden selected next ss m m₁)
    (second : Simulates M p hidden others mid ts m₁ m₂) :
    ∃ new, m₂.signals = m.signals ++ new ∧ ∀ s ∈ new, ∃ i, s.track i = true := by
  obtain ⟨new, hnew, hsome⟩ := first.signals
  obtain ⟨more, hmore, hsome'⟩ := second.signals
  refine ⟨new ++ more, by rw [hmore, hnew, List.append_assoc], fun s hs => ?_⟩
  exact (List.mem_append.mp hs).elim (hsome s) (hsome' s)

/-- A run of one statement and a run of those after it are a run of all. -/
theorem cons {s : Stmt} {ss : List Stmt} (first : Simulates M p hidden selected next [s] m m₁)
    (rest : Simulates M p hidden selected mid ss m₁ m₂) (hmid : next ≤ mid) :
    Simulates M p hidden selected next (s :: ss) m m₂ where
  masks i k hpos hk := (rest.masks i k hpos (by omega)).trans (first.masks i k hpos hk)
  ambient htrack i := (rest.ambient htrack i).trans (first.ambient htrack i)
  live i hi t ht := by
    obtain ⟨t₁, hrun, ht₁⟩ := first.live i hi t ht
    obtain ⟨t₂, hrun', ht₂⟩ := rest.live i hi t₁ ht₁
    simp only [runAll, Option.bind_eq_some_iff] at hrun ⊢
    obtain ⟨t', hs, hnil⟩ := hrun
    obtain rfl := Option.some.inj hnil
    exact ⟨t₂, ⟨t', hs, hrun'⟩, ht₂⟩
  idle i hi t ht := rest.idle i hi t (first.idle i hi t ht)
  signals := first.signals_trans rest

/-- A block runs its statements. -/
theorem block {label : Label} {stmts : List Stmt}
    (h : Simulates M p hidden selected next stmts m m₁) :
    Simulates M p hidden selected next [.block ⟨label, stmts⟩] m m₁ :=
  { h with
    live := fun i hi t ht => by
      obtain ⟨t', hrun, ht'⟩ := h.live i hi t ht
      refine ⟨t', ?_, ht'⟩
      rw [runAll, Stmt.run, hrun]
      rfl }

/-- Filling the mask of a branch is no more than the branch may do to masks. -/
theorem of_fill (hides : Hides p hidden count) (hpos : 0 < next) (hle : next ≤ count)
    {stmts : List Stmt} {bits : Fin n → Bool}
    (h : Simulates M p hidden selected (next + 1) stmts (m.fill M (Label.mask next).name bits) m₁) :
    Simulates M p hidden selected next stmts m m₁ := by
  have hname := name_mem_maskNames hpos hle
  refine ⟨fun i k hk hlt => ?_, fun htrack i => ?_, fun i hi t ht => ?_, fun i hi t ht => ?_,
    h.signals⟩
  · rw [h.masks i k hk (by omega), m.stores_fill_of_ne (Label.name_mask_ne (Nat.ne_of_lt hlt))]
  · have hne : p.ambient ≠ (Label.mask next).name :=
      fun he => hides.ambient htrack (he ▸ hname)
    rw [h.ambient htrack i, m.stores_fill_of_ne hne]
  · exact h.live i hi t (ht.fill (hides.masks hname) bits)
  · exact h.idle i hi t (ht.fill (hides.masks hname) bits)

/-- A conditional runs its branch in the selected lanes in which the test is true. -/
theorem ifThen {label inner : Label} {test : Condition} {stmts : List Stmt} {span : Span}
    {v : Fin n → V} (hv : ∀ i t, m.Sees hidden i t → M.scalarValue t.vars test.test = some (v i))
    (h : Simulates M p hidden (fun i => selected i && M.truth (v i)) next stmts m m₁) :
    Simulates M p hidden selected next [.ifThen label test ⟨inner, stmts⟩ span] m m₁ where
  masks := h.masks
  ambient := h.ambient
  live i hi t ht := by
    have hrun : ∃ t', Stmt.run M (.ifThen label test ⟨inner, stmts⟩ span) t = some t' ∧
        m₁.Sees hidden i t' := by
      rw [Stmt.run, hv i t ht, Option.bind_some]
      cases htruth : M.truth (v i) with
      | true => exact h.live i (by simp [hi, htruth]) t ht
      | false => exact ⟨t, rfl, h.idle i (by simp [htruth]) t ht⟩
    obtain ⟨t', hrun, ht'⟩ := hrun
    exact ⟨t', by rw [runAll, hrun]; rfl, ht'⟩
  idle i hi t ht := h.idle i (by simp [hi]) t ht
  signals := h.signals

/-- A conditional with both branches runs the second one in the other selected lanes. The first
branch leaves those lanes alone, so it does not matter what it assigns. -/
theorem ifElse {label inner elseInner : Label} {test otherwise : Condition}
    {stmts others : List Stmt} {span : Span} {v : Fin n → V}
    (hv : ∀ i t, m.Sees hidden i t → M.scalarValue t.vars test.test = some (v i))
    (first : Simulates M p hidden (fun i => selected i && M.truth (v i)) next stmts m m₁)
    (second : Simulates M p hidden (fun i => selected i && !M.truth (v i)) mid others m₁ m₂)
    (hmid : next ≤ mid) :
    Simulates M p hidden selected next
      [.ifElse label test ⟨inner, stmts⟩ otherwise ⟨elseInner, others⟩ span] m m₂ where
  masks i k hpos hk := (second.masks i k hpos (by omega)).trans (first.masks i k hpos hk)
  ambient htrack i := (second.ambient htrack i).trans (first.ambient htrack i)
  live i hi t ht := by
    have hrun : ∃ t', Stmt.run M
        (.ifElse label test ⟨inner, stmts⟩ otherwise ⟨elseInner, others⟩ span) t = some t' ∧
        m₂.Sees hidden i t' := by
      rw [Stmt.run, hv i t ht, Option.bind_some]
      cases htruth : M.truth (v i) with
      | true =>
        obtain ⟨t', hrun, ht'⟩ := first.live i (by simp [hi, htruth]) t ht
        exact ⟨t', hrun, second.idle i (by simp [htruth]) t' ht'⟩
      | false =>
        exact second.live i (by simp [hi, htruth]) t (first.idle i (by simp [htruth]) t ht)
    obtain ⟨t', hrun, ht'⟩ := hrun
    exact ⟨t', by rw [runAll, hrun]; rfl, ht'⟩
  idle i hi t ht := second.idle i (by simp [hi]) t (first.idle i (by simp [hi]) t ht)
  signals := first.signals_trans second

/-- A masked update is an assignment in the lanes of the mask. -/
theorem assign (hnext : next ≤ count + 1) (hm : m.Ready count)
    {label : Label} {target : String} {value : LaneExpr} {span : Span}
    (hv : value.isComplement = false) (hreads : ∀ text ∈ value.operands, M.Ignores hidden text)
    (htarget : target ∉ maskNames count) (hambient : p.tracking = true → target ≠ p.ambient) :
    Simulates M p hidden selected next [.assign label target value span] m
      (m.write M selected target fun store => M.value store value) := by
  refine ⟨fun i k hpos hk => m.stores_write_of_ne selected ?_ _ i,
    fun htrack i => m.stores_write_of_ne selected (hambient htrack).symm _ i,
    fun i hi t ht => ?_, fun i hi t ht => ?_, ⟨[], by simp [Machine.write], by simp⟩⟩
  · rintro rfl
    exact htarget (name_mem_maskNames hpos (by omega))
  · have hval := ht.scalarValue hv hreads
    -- A target that is no mask holds the value as it is.
    have hfit : m.fitted M target (M.value (m.stores i) value) = M.value (m.stores i) value :=
      if_neg fun hmem => htarget (hm.masks hmem)
    refine ⟨{ t with vars := Function.update t.vars target (M.value (m.stores i) value) },
      by rw [runAll, Stmt.run, hval]; rfl, fun name hname => ?_, ht.sent⟩
    simp only [Machine.write, hi, ↓reduceIte, hfit]
    by_cases hne : name = target
    · rw [hne, Function.update_self, Function.update_self]
    · rw [Function.update_of_ne hne, Function.update_of_ne hne]
      exact ht.vars name hname
  · refine ⟨fun name hname => ?_, ht.sent⟩
    simp only [Machine.write, hi]
    exact ht.vars name hname

/-- A tracked send under a mask that selects some lane is a send in its lanes, and is sent for no
other lane. -/
theorem send {mask : String} (hsome : ∃ i, M.truth (m.stores i mask) = true) {label : Label}
    {vertex message : String} {span : Span} (hvertex : M.Ignores hidden vertex)
    (hmessage : M.Ignores hidden message) (hhidden : trackText message ∈ hidden)
    (hambient : p.tracking = true → trackText message ≠ p.ambient) :
    Simulates M p hidden (fun i => M.truth (m.stores i mask)) next
      [.send label vertex message span] m
      ((m.record M message mask).signal M vertex message) := by
  have hkeep : ∀ i name, trackText message ≠ name →
      ((m.record M message mask).signal M vertex message).stores i name = m.stores i name :=
    fun i name hne => Function.update_of_ne hne.symm _ _
  have hvars : ∀ i t, m.Sees hidden i t → ∀ name ∉ hidden,
      t.vars name = (m.record M message mask).stores i name := by
    intro i t ht name hname
    rw [ht.vars name hname]
    exact (hkeep i name fun he => hname (he ▸ hhidden)).symm
  refine ⟨fun i k _ _ => hkeep i _ ?_, fun ht i => hkeep i _ (hambient ht), fun i hi t ht => ?_,
    fun i hi t ht => ?_, ⟨_, rfl, fun s hs => ?_⟩⟩
  · rintro he
    exact trackText_not_mem_maskNames message k (he ▸ name_mem_maskNames ‹_› (Nat.le_refl k))
  · refine ⟨_, rfl, hvars i t ht, ?_⟩
    have hsent : M.sent vertex message t.vars =
        M.sent vertex message ((m.record M message mask).stores i) := by
      rw [LaneModel.sent, LaneModel.sent, hvertex _ _ (hvars i t ht), hmessage _ _ (hvars i t ht)]
    rw [Machine.sentFor_signal, m.truth_record, hi, if_pos rfl, ← hsent, ht.sent]
    rfl
  · refine ⟨hvars i t ht, ?_⟩
    rw [Machine.sentFor_signal, m.truth_record, hi, if_neg Bool.false_ne_true, List.append_nil,
      ht.sent]
    rfl
  · obtain ⟨i, hi⟩ := hsome
    cases List.mem_singleton.mp hs
    exact ⟨i, (m.truth_record message mask i).trans hi⟩

end Simulates

mutual
/-- A statement with a lane-wise meaning. -/
def Stmt.Runnable : Stmt → Prop
  | .block ⟨_, stmts⟩ => AllRunnable stmts
  | .ifThen _ _ ⟨_, stmts⟩ _ => AllRunnable stmts
  | .ifElse _ _ ⟨_, stmts⟩ _ ⟨_, others⟩ _ => AllRunnable stmts ∧ AllRunnable others
  | .assign _ _ _ _ => True
  | .send _ _ _ _ => True
  | .declare _ _ => False
  | .return _ _ => False
/-- Every statement of a sequence has a lane-wise meaning. -/
def AllRunnable : List Stmt → Prop
  | [] => True
  | s :: ss => s.Runnable ∧ AllRunnable ss
end

section
variable {n : Nat} {V : Type} (M : LaneModel V) (p : Policy) (hidden : List String) (count : Nat)

/-- Code runs from every state between lines to another, and does what the statements say in the
lanes that are live under `label`. -/
def Converts (n : Nat) (label : Label) (next : Nat) (code : List Line) (stmts : List Stmt) : Prop :=
  ∀ m : Machine n V, m.Ready count → ∃ m', m.run M (vectorLines p code) = some m' ∧
    m'.Ready count ∧ Simulates M p hidden (m.live M p label) next stmts m m'

variable {M p hidden count}

/-- The code of a statement goes before the code of those after it. -/
theorem Converts.cons {label : Label} {next mid depth : Nat} {s : Stmt} {ss : List Stmt}
    (hl : label.Below next) (hmid : next ≤ mid)
    (first : Converts M p hidden count n label next (s.lower p depth) [s])
    (rest : Converts M p hidden count n label mid (lowerAll p depth ss) ss) :
    Converts M p hidden count n label next (lowerAll p depth (s :: ss)) (s :: ss) := by
  intro m hm
  obtain ⟨m₁, hrun, hm₁, hfirst⟩ := first m hm
  obtain ⟨m₂, hrun', hm₂, hrest⟩ := rest m₁ hm₁
  refine ⟨m₂, ?_, hm₂, ?_⟩
  · rw [lowerAll, vectorLines_append, Machine.run_append, hrun]
    exact hrun'
  · rw [hfirst.live_eq hl] at hrest
    exact hfirst.cons hrest hmid

/-- The code of a branch, after its mask is filled, runs the branch in the lanes of the mask. -/
theorem Converts.filled (hides : Hides p hidden count) {k : Nat} (hpos : 0 < k) (hle : k ≤ count)
    {code : List Line} {stmts : List Stmt}
    (h : Converts M p hidden count n (.mask k) (k + 1) code stmts) {m : Machine n V}
    (hm : m.Ready count) (bits : Fin n → Bool) :
    ∃ m', (m.fill M (Label.mask k).name bits).run M (vectorLines p code) = some m' ∧
      m'.Ready count ∧ Simulates M p hidden bits k stmts m m' ∧
      ∀ i, m'.stores i (Label.mask k).name = M.ofMask (bits i) := by
  obtain ⟨m', hrun, hm', hsim⟩ := h _ (hm.fill hpos hle bits)
  have hbits : (m.fill M (Label.mask k).name bits).live M p (.mask k) = bits := by
    funext i
    change M.truth ((m.fill M (Label.mask k).name bits).stores i (Label.mask k).name) = bits i
    rw [m.stores_fill_self, M.truth_ofMask]
  rw [hbits] at hsim
  refine ⟨m', hrun, hm', hsim.of_fill hides hpos hle, fun i => ?_⟩
  rw [hsim.masks i k hpos (Nat.lt_succ_self k), m.stores_fill_self]

/-- The lines of a test fill the next mask. Declaring it changes neither the guard, which has
another name, nor the test, as long as that does not look at the mask. -/
theorem Hides.run_condition (hides : Hides p hidden count) {label : Label} {next : Nat}
    (hl : label.Below next) (hpos : 0 < next) (hle : next ≤ count) {m : Machine n V}
    (hm : m.Ready count) (depth : Nat) (span : Span) {e : LaneExpr}
    (he : ∀ s s' : String → V, (∀ name, name ≠ (Label.mask next).name → s name = s' name) →
      M.value s e = M.value s' e) :
    m.run M (vectorLines p (Condition.lower p depth ⟨.mask next, label, e, span⟩)) =
      some (m.fill M (Label.mask next).name fun i =>
        m.live M p label i && M.truth (M.value (m.stores i) e)) := by
  refine Machine.run_condition hm.skipped depth (funext fun i => ?_) fun i => ?_
  · refine Machine.live_congr fun mask hmask => ?_
    exact Function.update_of_ne (hides.maskText_ne hl hpos hle hmask) _ _
  · exact he _ _ fun name hname => Function.update_of_ne hname _ _

/-- A value that looks at no hidden name does not look at a mask. -/
theorem Hides.value_congr (hides : Hides p hidden count) {next : Nat} (hpos : 0 < next)
    (hle : next ≤ count) {e : LaneExpr} (hreads : ∀ text ∈ e.operands, M.Ignores hidden text)
    (s s' : String → V) (h : ∀ name, name ≠ (Label.mask next).name → s name = s' name) :
    M.value s e = M.value s' e :=
  M.value_congr hreads fun name hname =>
    h name fun he => hname (he ▸ hides.masks (name_mem_maskNames hpos hle))

/-- The code of a conditional: fill the mask, then run the branch under it. -/
theorem Converts.ifThen (hides : Hides p hidden count) {label : Label} {next depth : Nat}
    {e : LaneExpr} {stmts : List Stmt} {testSpan span : Span} (hl : label.Below next)
    (hpos : 0 < next) (hle : next ≤ count) (he : e.isComplement = false)
    (hreads : ∀ text ∈ e.operands, M.Ignores hidden text)
    (inner : Converts M p hidden count n (.mask next) (next + 1)
      (lowerAll p (depth + 1) stmts) stmts) :
    let s : Stmt := .ifThen label ⟨.mask next, label, e, testSpan⟩ ⟨.mask next, stmts⟩ span
    Converts M p hidden count n label next (s.lower p depth) [s] := by
  intro s m hm
  have htest := hides.run_condition hl hpos hle hm depth testSpan
    (hides.value_congr hpos hle hreads)
  obtain ⟨m', hrun, hm', hsim, -⟩ := inner.filled hides hpos hle hm fun i =>
    m.live M p label i && M.truth (M.value (m.stores i) e)
  refine ⟨m', ?_, hm', .ifThen (fun i t ht => ht.scalarValue he hreads) hsim⟩
  rw [Stmt.lower, vectorLines_append, Machine.run_append, htest]
  exact hrun

/-- The code of a conditional with both branches. When the second mask is filled, the first one
still holds what the test was, so the complement selects the lanes in which it was false. -/
theorem Converts.ifElse (hides : Hides p hidden count) {label : Label} {next mid depth : Nat}
    {e : LaneExpr} {stmts others : List Stmt} {testSpan elseSpan span : Span}
    (hl : label.Below next) (hpos : 0 < next) (hmid : next < mid) (hle : mid ≤ count)
    (he : e.isComplement = false) (hreads : ∀ text ∈ e.operands, M.Ignores hidden text)
    (inner : Converts M p hidden count n (.mask next) (next + 1)
      (lowerAll p (depth + 1) stmts) stmts)
    (elseInner : Converts M p hidden count n (.mask mid) (mid + 1)
      (lowerAll p (depth + 1) others) others) :
    let s : Stmt := .ifElse label ⟨.mask next, label, e, testSpan⟩ ⟨.mask next, stmts⟩
      ⟨.mask mid, label, .complement (.mask next), elseSpan⟩ ⟨.mask mid, others⟩ span
    Converts M p hidden count n label next (s.lower p depth) [s] := by
  intro s m hm
  have hnext : next ≤ count := by omega
  have htest := hides.run_condition hl hpos hnext hm depth testSpan
    (hides.value_congr hpos hnext hreads)
  obtain ⟨m₁, hrun, hm₁, hsim, hbit⟩ := inner.filled hides hpos hnext hm fun i =>
    m.live M p label i && M.truth (M.value (m.stores i) e)
  -- The complement does look at a mask, but at another one than the mask it fills.
  have helse := hides.run_condition (hl.mono (Nat.le_of_lt hmid)) (by omega) hle hm₁ depth elseSpan
    fun s s' h => M.complement_congr (h _ (Label.name_mask_ne (Nat.ne_of_lt hmid)))
  have hbits : (fun i => m₁.live M p label i &&
      M.truth (M.value (m₁.stores i) (.complement (.mask next)))) =
      fun i => m.live M p label i && !M.truth (M.value (m.stores i) e) := by
    funext i
    rw [hsim.live_eq hl, M.truth_complement (hbit i)]
    cases m.live M p label i <;> simp
  rw [hbits] at helse
  obtain ⟨m₂, hrun', hm₂, hsim', -⟩ := elseInner.filled hides (by omega) hle hm₁ fun i =>
    m.live M p label i && !M.truth (M.value (m.stores i) e)
  refine ⟨m₂, ?_, hm₂, .ifElse (fun i t ht => ht.scalarValue he hreads) hsim hsim' (by omega)⟩
  rw [Stmt.lower, vectorLines_append, vectorLines_append, vectorLines_append, Machine.run_append,
    Machine.run_append, Machine.run_append, htest, Option.bind_some, hrun, Option.bind_some, helse]
  exact hrun'

/-- The lines of a tracked send: it goes out once, with its mask, if the mask selects a lane. -/
theorem Machine.run_send {m : Machine n V} (h : m.skipped = 0) (depth : Nat)
    (vertex message : String) (mask : Mask) :
    m.run M (vectorLines p [⟨depth, .send vertex message (some mask) true⟩]) =
      some (if ∃ i, M.truth (m.stores i (p.maskText mask)) = true then
        (m.record M message (p.maskText mask)).signal M vertex message else m) := by
  have hlines : vectorLines p [⟨depth, .send vertex message (some mask) true⟩] =
      [.openGuard (p.maskText mask), .record message (p.maskText mask), .signal vertex message,
        .closeGuard] := rfl
  obtain ⟨stores, masks, skipped, signals⟩ := m
  cases h
  rw [hlines]
  by_cases hsome : ∃ i, M.truth (stores i (p.maskText mask)) = true
  · simp only [run_cons, step, if_pos hsome, Option.bind_some, record, signal]
    rfl
  · simp only [run_cons, step, if_neg hsome, Option.bind_some]
    rfl

/-- With tracking every label has a mask. -/
theorem Policy.exists_mask_eq_some (hp : p.tracking = true) (label : Label) :
    ∃ mask, p.mask label = some mask := by
  cases label with
  | root => exact ⟨.ambient, by simp [Policy.mask, hp]⟩
  | mask k => exact ⟨.minted k, rfl⟩

/-- The code of a tracked send. -/
theorem Converts.send (htrack : p.tracking = true) {label : Label} {next depth : Nat}
    {vertex message : String} {span : Span} (hvertex : M.Ignores hidden vertex)
    (hmessage : M.Ignores hidden message) (hhidden : trackText message ∈ hidden)
    (hambient : trackText message ≠ p.ambient) :
    Converts M p hidden count n label next
      (Stmt.lower p depth (.send label vertex message span))
      [.send label vertex message span] := by
  intro m hm
  obtain ⟨mask, hmask⟩ := p.exists_mask_eq_some htrack label
  have hlive : m.live M p label = fun i => M.truth (m.stores i (p.maskText mask)) := by
    funext i
    rw [Machine.live, hmask]
  have hrun := m.run_send (M := M) (p := p) hm.skipped depth vertex message mask
  rw [Stmt.lower, hmask, htrack, hrun, hlive]
  by_cases hsome : ∃ i, M.truth (m.stores i (p.maskText mask)) = true
  · rw [if_pos hsome]
    exact ⟨_, rfl, ⟨hm.skipped, hm.masks⟩,
      .send hsome hvertex hmessage hhidden fun _ => hambient⟩
  · rw [if_neg hsome]
    refine ⟨m, rfl, hm, .of_none_selected _ fun i => ?_⟩
    exact eq_false_of_ne_true fun hi => hsome ⟨i, hi⟩

/-- The code of an assignment. -/
theorem Converts.assign {label : Label} {next depth : Nat}
    (hnext : next ≤ count + 1) {target : String} {value : LaneExpr} {span : Span}
    (hv : value.isComplement = false) (hreads : ∀ text ∈ value.operands, M.Ignores hidden text)
    (htarget : target ∉ maskNames count) (hambient : p.tracking = true → target ≠ p.ambient) :
    Converts M p hidden count n label next
      (Stmt.lower p depth (.assign label target value span))
      [.assign label target value span] := by
  intro m hm
  refine ⟨m.write M (m.live M p label) target fun store => M.value store value, ?_,
    ⟨hm.skipped, hm.masks⟩, .assign hnext hm hv hreads htarget hambient⟩
  change m.run M [(LineRole.update (.variable target) value (p.mask label)).vectorLine p] = _
  rw [Machine.run_cons, Machine.step_update hm.skipped, Option.bind_some]
  rfl

/-- The code of a simple statement that is kept. -/
theorem Simple.converts {label : Label} {next depth : Nat} (hnext : next ≤ count + 1)
    {node : Node String} {s : Stmt} {notes : List (Located BodyNotice)}
    (h : Simple label node (some s) notes) (hr : s.Runnable)
    (hu : UsesApart M p hidden count s.uses) :
    Converts M p hidden count n label next (s.lower p depth) [s] := by
  obtain ⟨-, target, value, rfl, hv⟩ | ⟨-, tokens, rfl⟩ | ⟨-, vertex, message, rfl⟩ |
    ⟨-, expr, rfl⟩ := h.kept_cases
  · obtain ⟨htarget, hambient⟩ := hu.assigns target (by simp [Stmt.uses])
    refine .assign hnext hv (fun text ht => hu.reads text ?_) htarget hambient
    simpa [Stmt.uses] using ht
  · exact hr.elim
  · obtain ⟨htrack, hhidden, hambient⟩ := hu.sends message (by simp [Stmt.uses])
    exact .send htrack (hu.reads vertex (by simp [Stmt.uses]))
      (hu.reads message (by simp [Stmt.uses])) hhidden hambient
  · exact hr.elim

/-- The code of every walk runs, and does in each lane what the kept statements say. -/
theorem Walk.converts (hides : Hides p hidden count) {label : Label} {next : Nat}
    {ns : List (Node String)} {r : Noted (List Stmt)} (h : Walk label next ns r)
    (hl : label.Below next) (hpos : 0 < next) (hcount : r.next ≤ count + 1)
    (hr : AllRunnable r.value) (hu : UsesApart M p hidden count (usesOf r.value)) (depth : Nat) :
    Converts M p hidden count n label next (lowerAll p depth r.value) r.value := by
  -- A branch is converted under its own label and from the next number on, so that its masks
  -- are none of those whose lanes it has to keep.
  induction h generalizing depth with
  | nil => exact fun m hm => ⟨m, rfl, hm, .nil⟩
  | block _ inner rest ihInner ihRest =>
    obtain ⟨hbody, hrest⟩ := hr
    have hle := rest.next_le
    have hle' := inner.next_le
    simp only [usesOf, Stmt.uses] at hu hcount
    have hinner := ihInner hl hpos (by omega) hbody (hu.subset (by simp)) (depth + 1)
    refine .cons hl inner.next_le (fun m hm => ?_)
      (ihRest (hl.mono inner.next_le) (by omega) hcount hrest (hu.subset (by simp)) depth)
    obtain ⟨m', hrun, hm', hsim⟩ := hinner m hm
    exact ⟨m', by rw [Stmt.lower]; exact hrun, hm', hsim.block⟩
  | ifThen _ _ _ inner rest ihInner ihRest =>
    obtain ⟨hbody, hrest⟩ := hr
    have hle := inner.next_le
    have hle' := rest.next_le
    simp only [usesOf, Stmt.uses] at hu hcount
    refine .cons hl (by omega)
      (.ifThen hides hl hpos (by omega) (classify_not_complement _)
        (fun text ht => hu.reads text (by simp [ht]))
        (ihInner ⟨hpos, Nat.lt_succ_self _⟩ (by omega) (by omega) hbody (hu.subset ?_) (depth + 1)))
      (ihRest (hl.mono (by omega)) (by omega) hcount hrest (hu.subset ?_) depth)
    all_goals
      intro use huse
      simp [huse]
  | ifElse _ _ _ inner elseInner rest ihInner ihElse ihRest =>
    obtain ⟨⟨hbody, hothers⟩, hrest⟩ := hr
    have hle := inner.next_le
    have hle' := elseInner.next_le
    have hle'' := rest.next_le
    simp only [usesOf, Stmt.uses] at hu hcount
    refine .cons hl (by omega)
      (.ifElse hides hl hpos (by omega) (by omega) (classify_not_complement _)
        (fun text ht => hu.reads text (by simp [ht]))
        (ihInner ⟨hpos, Nat.lt_succ_self _⟩ (by omega) (by omega) hbody (hu.subset ?_) (depth + 1))
        (ihElse ⟨by omega, Nat.lt_succ_self _⟩ (by omega) (by omega) hothers (hu.subset ?_)
          (depth + 1)))
      (ihRest (hl.mono (by omega)) (by omega) hcount hrest (hu.subset ?_) depth)
    all_goals
      intro use huse
      simp [huse]
  | kept simple rest ih =>
    obtain ⟨hs, hrest⟩ := hr
    simp only [usesOf] at hu
    exact .cons hl (Nat.le_refl _)
      (simple.converts (Nat.le_trans rest.next_le hcount) hs
        (hu.subset (List.subset_append_left _ _)))
      (ih hl hpos hcount hrest (hu.subset (List.subset_append_right _ _)) depth)
  | dropped _ _ ih => exact ih hl hpos hcount hr hu depth

end

end VertexLanes
