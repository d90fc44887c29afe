import VertexLanes.Proofs.MaskSimulation

/-!
# If-conversion keeps the meaning of a body

For bodies made of blocks, conditionals, assignments and sends, each lane that
enters the converted body ends with the variables of a scalar run and is named by
exactly the messages that run sends. A lane that does not enter is left alone.

Lowering does not look at the names of a body, so this needs the names of its
masks, of the mask of the entry and of the masks that messages carry to be apart
from what the body assigns and reads. Where they are not, the lines of a body can
do something else than the body.
-/

namespace VertexLanes

mutual
/-- Whether every statement of a tree is of one of the given kinds. Tests and the parts of other
statements are no statements. -/
def Node.madeOf (kinds : List NodeKind) : Node String → Bool
  | ⟨.block, _, _, stmts, _⟩ => kinds.contains .block && allMadeOf kinds stmts
  | ⟨.conditional, _, _, _ :: branches, _⟩ =>
    kinds.contains .conditional && allMadeOf kinds branches
  | ⟨kind, _, _, _, _⟩ => kinds.contains kind
/-- Whether every statement of the trees is of one of the given kinds. -/
def allMadeOf (kinds : List NodeKind) : List (Node String) → Bool
  | [] => true
  | n :: ns => n.madeOf kinds && allMadeOf kinds ns
end

section
variable {kinds : List NodeKind} {node : Node String}

/-- The statements of a block are of the given kinds if the block is made of them. -/
theorem Node.madeOf_block (hk : node.kind = .block) (h : node.madeOf kinds = true) :
    allMadeOf kinds node.children = true := by
  obtain ⟨kind, name, tokens, children, span⟩ := node
  cases hk
  simp only [madeOf, Bool.and_eq_true] at h
  exact h.2

/-- The branches of a conditional are made of the given kinds if the conditional is. -/
theorem Node.madeOf_conditional {test : Node String} {branches : List (Node String)}
    (hk : node.kind = .conditional) (hc : node.children = test :: branches)
    (h : node.madeOf kinds = true) : allMadeOf kinds branches = true := by
  obtain ⟨kind, name, tokens, children, span⟩ := node
  cases hk
  cases hc
  simp only [madeOf, Bool.and_eq_true] at h
  exact h.2

/-- The kind of a statement is one of those it is made of. -/
theorem Node.kind_mem_of_madeOf (h : node.madeOf kinds = true) : node.kind ∈ kinds := by
  obtain ⟨kind, name, tokens, children, span⟩ := node
  cases kind with
  | conditional => cases children <;> simp_all [madeOf]
  | _ => simp_all [madeOf]

end

/-- A body without declarations and returns has a lane-wise meaning, and sends nothing unless there
are calls in it. -/
theorem Walk.allRunnable {kinds : List NodeKind} {label : Label} {next : Nat}
    {ns : List (Node String)} {r : Noted (List Stmt)} (h : Walk label next ns r)
    (hk : allMadeOf kinds ns = true) (hdecl : .declaration ∉ kinds) (hret : .return ∉ kinds) :
    AllRunnable r.value ∧ ∀ message, .sends message ∈ usesOf r.value → .call ∈ kinds := by
  induction h with
  | nil => exact ⟨trivial, fun message hmem => nomatch hmem⟩
  | block hkind _ _ ihInner ihRest =>
    rw [allMadeOf, Bool.and_eq_true] at hk
    obtain ⟨hbody, hsends⟩ := ihInner (Node.madeOf_block hkind hk.1)
    obtain ⟨hrest, hsends'⟩ := ihRest hk.2
    refine ⟨⟨hbody, hrest⟩, fun message hmem => ?_⟩
    simp only [usesOf, Stmt.uses, List.mem_append] at hmem
    exact hmem.elim (hsends message) (hsends' message)
  | ifThen hkind hc hf _ _ ihInner ihRest =>
    rw [allMadeOf, Bool.and_eq_true] at hk
    have hbranches := Node.madeOf_conditional hkind hc hk.1
    rw [hc] at hf
    simp only [allMadeOf, Bool.and_true] at hbranches
    have hfirst := branch_kind_of_conditionalFault? hf List.mem_cons_self
    obtain ⟨hbody, hsends⟩ := ihInner (Node.madeOf_block hfirst hbranches)
    obtain ⟨hrest, hsends'⟩ := ihRest hk.2
    refine ⟨⟨hbody, hrest⟩, fun message hmem => ?_⟩
    simp only [usesOf, Stmt.uses, List.mem_append, List.mem_map, reduceCtorEq, and_false,
      exists_false, false_or] at hmem
    exact hmem.elim (hsends message) (hsends' message)
  | ifElse hkind hc hf _ _ _ ihInner ihElse ihRest =>
    rw [allMadeOf, Bool.and_eq_true] at hk
    have hbranches := Node.madeOf_conditional hkind hc hk.1
    rw [hc] at hf
    simp only [allMadeOf, Bool.and_true, Bool.and_eq_true] at hbranches
    have hfirst := branch_kind_of_conditionalFault? hf List.mem_cons_self
    have hsecond := branch_kind_of_conditionalFault? hf (List.mem_cons_of_mem _ List.mem_cons_self)
    obtain ⟨hbody, hsends⟩ := ihInner (Node.madeOf_block hfirst hbranches.1)
    obtain ⟨hothers, helse⟩ := ihElse (Node.madeOf_block hsecond hbranches.2)
    obtain ⟨hrest, hsends'⟩ := ihRest hk.2
    refine ⟨⟨⟨hbody, hothers⟩, hrest⟩, fun message hmem => ?_⟩
    simp only [usesOf, Stmt.uses, List.mem_append, List.mem_map, reduceCtorEq, and_false,
      exists_false, false_or] at hmem
    exact hmem.elim (Or.rec (hsends message) (helse message)) (hsends' message)
  | kept simple _ ih =>
    rw [allMadeOf, Bool.and_eq_true] at hk
    have hmem := Node.kind_mem_of_madeOf hk.1
    obtain ⟨hrest, hsends⟩ := ih hk.2
    obtain ⟨-, target, value, rfl, -⟩ | ⟨hd, -⟩ | ⟨hcall, vertex, message, rfl⟩ | ⟨hr, -⟩ :=
      simple.kept_cases
    · refine ⟨⟨trivial, hrest⟩, fun message hmem => hsends message ?_⟩
      simpa [usesOf, Stmt.uses] using hmem
    · exact absurd (hd ▸ hmem) hdecl
    · exact ⟨⟨trivial, hrest⟩, fun _ _ => hcall ▸ hmem⟩
    · exact absurd (hr ▸ hmem) hret
  | dropped _ _ ih =>
    rw [allMadeOf, Bool.and_eq_true] at hk
    exact ih hk.2

/-! ## Bodies to run -/

/-- An operation with the given tokens. -/
def operationNode (tokens : List String) : Node String := ⟨.operation, "", tokens, [], ⟨0, 0⟩⟩

/-- A call with the given spelling. -/
def callNode (name : String) : Node String := ⟨.call, name, [], [], ⟨0, 0⟩⟩

/-- A block of statements. -/
def blockNode (stmts : List (Node String)) : Node String := ⟨.block, "", [], stmts, ⟨0, 0⟩⟩

/-- A conditional with the given test and branches. -/
def conditionalNode (test : List String) (branches : List (List (Node String))) : Node String :=
  ⟨.conditional, "", [], operationNode test :: branches.map blockNode, ⟨0, 0⟩⟩

/-- Tracking code with the usual mask of the entry. -/
def trackingPolicy : Policy := ⟨true, "vp_track", defaultVectorType⟩

/-- Whether a text is used apart from hidden names, if it is read, and from reserved ones, if it is
assigned. -/
def TextUse.isApart (hidden reserved : List String) : TextUse → Bool
  | .reads text => !(hidden.contains text)
  | .assigns text => !(reserved.contains text)
  | .sends _ => true

/-- Whether the names of a body are apart in integer lanes. -/
def Annotated.isApart (a : Annotated) (p : Policy) : Bool :=
  !(a.maskNames.contains p.ambient) &&
    (usesOf a.root.stmts).all
      (TextUse.isApart (a.maskNames ++ a.trackNames) (p.ambient :: a.maskNames))

/-- In integer lanes names are apart if the texts are. -/
theorem Annotated.apart_of_isApart {a : Annotated} {p : Policy} (h : a.isApart p = true) :
    a.Apart intLanes p := by
  rw [isApart, Bool.and_eq_true, List.all_eq_true] at h
  obtain ⟨hambient, huses⟩ := h
  refine ⟨fun text ht => intLanes_ignores ?_, fun text ht => ?_, fun _ => by simpa using hambient⟩
  · simpa [TextUse.isApart] using huses _ ht
  · have hnot : text ≠ p.ambient ∧ text ∉ a.maskNames := by
      simpa [TextUse.isApart] using huses _ ht
    exact ⟨hnot.2, fun _ => hnot.1⟩

/-- One integer lane with the given values, and zero elsewhere. -/
def singleStore (values : List (String × Int)) (_ : Fin 1) (name : String) : Int :=
  (values.lookup name).getD 0

/-- What is seen of an annotated body, of one integer lane after its lines have run and of its
scalar run. -/
def ends {β : Type} (p : Policy) (body : Node String) (stores : Fin 1 → String → Int)
    (view : Annotated → Machine 1 Int → Thread Int → β) : Option β :=
  (annotate body).toOption.bind fun a =>
    (Machine.run intLanes (.start stores) (vectorLines p (lowerBody p a.root))).bind fun m =>
      (runAll intLanes a.root.stmts ⟨stores 0, []⟩).map fun t => view a m t

/-- What is seen comes from an annotation and two runs. -/
theorem exists_of_ends {β : Type} {p : Policy} {body : Node String}
    {stores : Fin 1 → String → Int} {view : Annotated → Machine 1 Int → Thread Int → β} {b : β}
    (h : ends p body stores view = some b) :
    ∃ a m t, annotate body = .ok a ∧
      Machine.run intLanes (.start stores) (vectorLines p (lowerBody p a.root)) = some m ∧
      runAll intLanes a.root.stmts ⟨stores 0, []⟩ = some t ∧ view a m t = b := by
  obtain ⟨a, ha, h⟩ := Option.bind_eq_some_iff.mp h
  obtain ⟨m, hm, h⟩ := Option.bind_eq_some_iff.mp h
  obtain ⟨t, ht, h⟩ := Option.map_eq_some_iff.mp h
  refine ⟨a, m, t, ?_, hm, ht, h⟩
  cases hbody : annotate body with
  | error e =>
    rw [hbody] at ha
    cases ha
  | ok a' =>
    rw [hbody] at ha
    cases ha
    rfl

section
variable {V : Type} {n : Nat}

/-- A lane that enters the body is one that is live under the root label. -/
theorem Machine.live_root (M : LaneModel V) (p : Policy) (m : Machine n V) (i : Fin n) :
    m.live M p .root i = true ↔ (p.tracking = true → M.truth (m.stores i p.ambient) = true) := by
  cases htrack : p.tracking with
  | false => simp [Machine.live, Policy.mask, htrack]
  | true => simp [Machine.live, Policy.mask, Policy.maskText, htrack]

/-- With tracking, a lane whose mask of the entry is not set does not enter. -/
theorem Machine.live_root_eq_false {M : LaneModel V} {p : Policy} {m : Machine n V} {i : Fin n}
    (htrack : p.tracking = true) (hdead : M.truth (m.stores i p.ambient) = false) :
    m.live M p .root i = false := by
  refine eq_false_of_ne_true fun hlive => ?_
  rw [Machine.live_root, hdead] at hlive
  exact absurd (hlive htrack) Bool.false_ne_true

/-- Before any code has run, a lane sees a scalar run that has just begun. -/
theorem Machine.sees_start (hidden : List String) (stores : Fin n → String → V) (i : Fin n) :
    (start stores).Sees hidden i ⟨stores i, []⟩ := ⟨fun _ _ => rfl, rfl⟩

/-- A message that a body sends carries a mask of the body's. -/
theorem Annotated.trackText_mem {a : Annotated} {message : String}
    (h : .sends message ∈ usesOf a.root.stmts) : trackText message ∈ a.trackNames :=
  List.mem_filterMap.mpr ⟨.sends message, h, rfl⟩

/-- The code of an annotated body with a lane-wise meaning, whose names are apart. -/
theorem lowerBody_converts (M : LaneModel V) (p : Policy) {body : Node String} {a : Annotated}
    {kinds : List NodeKind} (ha : annotate body = .ok a) (hb : body.madeOf kinds = true)
    (hdecl : .declaration ∉ kinds) (hret : .return ∉ kinds) (hapart : a.Apart M p)
    (hsend : .call ∈ kinds → ∀ message, .sends message ∈ usesOf a.root.stmts →
      p.tracking = true ∧ trackText message ≠ p.ambient) :
    Converts M p (a.maskNames ++ a.trackNames) a.masks n .root 1 (lowerBody p a.root)
      a.root.stmts := by
  obtain ⟨hk, r, hw, rfl⟩ := walk_of_annotate ha
  obtain ⟨hrunnable, hcalls⟩ := hw.allRunnable (Node.madeOf_block hk hb) hdecl hret
  refine hw.converts ⟨List.subset_append_left _ _, hapart.ambient⟩ trivial (by decide) ?_ hrunnable
    ⟨hapart.reads, hapart.assigns, fun message hmem => ?_⟩ 1
  · simp only
    omega
  · obtain ⟨htrack, hne⟩ := hsend (hcalls message hmem) message hmem
    exact ⟨htrack, List.mem_append_right _ (Annotated.trackText_mem hmem), hne⟩

/-- A body made of statements other than calls has no messages that carry masks. -/
theorem Annotated.trackNames_eq_nil {body : Node String} {a : Annotated} {kinds : List NodeKind}
    (ha : annotate body = .ok a) (hb : body.madeOf kinds = true) (hdecl : .declaration ∉ kinds)
    (hret : .return ∉ kinds) (hcall : .call ∉ kinds) : a.trackNames = [] := by
  obtain ⟨hk, r, hw, rfl⟩ := walk_of_annotate ha
  obtain ⟨-, hcalls⟩ := hw.allRunnable (Node.madeOf_block hk hb) hdecl hret
  refine List.filterMap_eq_nil_iff.mpr fun use huse => ?_
  cases use with
  | sends message => exact absurd (hcalls message huse) hcall
  | _ => rfl

/-- If-conversion keeps the meaning of a body made of blocks, conditionals and assignments whose
names are apart from those of its masks and of the mask of the entry. Its text spells out code, and
after that has run each lane that entered holds, outside the masks of the body, what a scalar run
of the body gives, and each other lane holds what it held before. -/
theorem lowerBody_eq_scalar (M : LaneModel V) (p : Policy) {body : Node String} {a : Annotated}
    (ha : annotate body = .ok a)
    (hb : body.madeOf [.block, .conditional, .operation] = true) (hapart : a.Apart M p)
    (stores : Fin n → String → V) :
    Spells (render p (lowerBody p a.root)) (vectorLines p (lowerBody p a.root)) ∧
    ∃ m', Machine.run M (.start stores) (vectorLines p (lowerBody p a.root)) = some m' ∧ ∀ i,
      ((p.tracking = true → M.truth (stores i p.ambient) = true) →
        ∃ t, runAll M a.root.stmts ⟨stores i, []⟩ = some t ∧
          ∀ name ∉ a.maskNames, m'.stores i name = t.vars name) ∧
      (p.tracking = true → M.truth (stores i p.ambient) = false →
        ∀ name ∉ a.maskNames, m'.stores i name = stores i name) := by
  have hcode := lowerBody_converts (n := n) M p ha hb (by decide) (by decide) hapart
    fun hcall => absurd hcall (by decide)
  rw [Annotated.trackNames_eq_nil ha hb (by decide) (by decide) (by decide), List.append_nil]
    at hcode
  obtain ⟨m', hrun, -, hsim⟩ := hcode _ (Machine.ready_start a.masks stores)
  have hsees := Machine.sees_start a.maskNames stores
  refine ⟨spells_render p _, m', hrun, fun i => ⟨fun hlive => ?_, fun htrack hdead => ?_⟩⟩
  · obtain ⟨t, ht, hsees'⟩ := hsim.live i ((Machine.live_root M p _ i).mpr hlive) _ (hsees i)
    exact ⟨t, ht, fun name hname => (hsees'.vars name hname).symm⟩
  · have hidle := hsim.idle i (Machine.live_root_eq_false htrack hdead) _ (hsees i)
    exact fun name hname => (hidle.vars name hname).symm

/-- A body whose first branch changes the variable of its own test, which the other branch reads. -/
def countdownBody : Node String :=
  blockNode
    [conditionalNode ["x", ">", "0"]
      [[operationNode ["x", "-=", "x"]], [operationNode ["y", "=", "x", "+", "1"]]],
      operationNode ["z", "=", "x"]]

/-- Two integer lanes, with a positive `x` in the first one only; both enter. -/
def countdownStores (i : Fin 2) (name : String) : Int :=
  if name = "x" ∧ i = 0 then 5 else if name = "vp_track" then 1 else 0

/-- Both lanes enter. -/
theorem countdownStores_enters (i : Fin 2) :
    intLanes.truth (countdownStores i trackingPolicy.ambient) = true := by
  have hne : ¬(trackingPolicy.ambient = "x" ∧ i = 0) := fun h => absurd h.1 (by decide)
  rw [countdownStores, if_neg hne]
  rfl

/-- The body that counts down leaves in each lane what a scalar run leaves. -/
theorem lowerBody_eq_scalar_countdown :
    ∃ a, annotate countdownBody = .ok a ∧ a.masks = 2 ∧
      countdownBody.madeOf [.block, .conditional, .operation] = true ∧
      a.Apart intLanes trackingPolicy ∧
      Spells (render trackingPolicy (lowerBody trackingPolicy a.root))
        (vectorLines trackingPolicy (lowerBody trackingPolicy a.root)) ∧
      ∃ m', Machine.run intLanes (.start countdownStores)
          (vectorLines trackingPolicy (lowerBody trackingPolicy a.root)) = some m' ∧
        ∀ i, ∃ t, runAll intLanes a.root.stmts ⟨countdownStores i, []⟩ = some t ∧
          ∀ name ∉ a.maskNames, m'.stores i name = t.vars name := by
  have heval : (annotate countdownBody).toOption.map
      (fun a => (a.masks, a.isApart trackingPolicy)) = some (2, true) := by decide +kernel
  obtain ⟨a, ha, hvalues⟩ := exists_eq_ok heval
  obtain ⟨hmasks, hnames⟩ := Prod.mk.inj hvalues
  have hb : countdownBody.madeOf [.block, .conditional, .operation] = true := by decide
  have hapart := a.apart_of_isApart hnames
  obtain ⟨hspells, m', hrun, hlanes⟩ :=
    lowerBody_eq_scalar intLanes trackingPolicy ha hb hapart countdownStores
  exact ⟨a, ha, hmasks, hb, hapart, hspells, m', hrun,
    fun i => (hlanes i).1 fun _ => countdownStores_enters i⟩

/-- A lane that enters a body made of blocks, conditionals and assignments holds something else in
`y` after the lines of the body than after a scalar run of it. -/
def Diverges (p : Policy) (body : Node String) (stores : Fin 1 → String → Int) : Prop :=
  body.madeOf [.block, .conditional, .operation] = true ∧
    intLanes.truth (stores 0 p.ambient) = true ∧
    ∃ a m t, annotate body = .ok a ∧
      Machine.run intLanes (.start stores) (vectorLines p (lowerBody p a.root)) = some m ∧
      runAll intLanes a.root.stmts ⟨stores 0, []⟩ = some t ∧
      "y" ∉ a.maskNames ∧ m.stores 0 "y" ≠ t.vars "y"

/-- Names have to be apart. A body does something else than its lines if it assigns to the name of
one of its masks or reads that name, if it assigns to the mask of the entry, and if the mask of the
entry has the name of one of its masks. -/
theorem lowerBody_diverges_on_clash :
    Diverges trackingPolicy
        (blockNode [conditionalNode ["x"]
          [[operationNode ["mask_1", "=", "0"], operationNode ["y", "=", "1"]]]])
        (singleStore [("x", 1), ("vp_track", 1)]) ∧
      Diverges trackingPolicy
        (blockNode [conditionalNode ["x"] [[operationNode ["y", "=", "mask_1"]]]])
        (singleStore [("x", 1), ("mask_1", 7), ("vp_track", 1)]) ∧
      Diverges trackingPolicy
        (blockNode [operationNode ["vp_track", "=", "0"], operationNode ["y", "=", "1"]])
        (singleStore [("vp_track", 1)]) ∧
      Diverges ⟨true, "mask_1", defaultVectorType⟩
        (blockNode [conditionalNode ["x"] [[operationNode ["y", "=", "1"]]]])
        (singleStore [("x", 1), ("mask_1", 1)]) := by
  have hdiverges : ∀ {p : Policy} {body : Node String} {stores : Fin 1 → String → Int} {v w : Int},
      body.madeOf [.block, .conditional, .operation] = true →
      intLanes.truth (stores 0 p.ambient) = true →
      ends p body stores (fun a m t => (a.maskNames.contains "y", m.stores 0 "y", t.vars "y")) =
        some (false, v, w) → v ≠ w → Diverges p body stores := by
    intro p body stores v w hb hlive heval hne
    obtain ⟨a, m, t, ha, hrun, hscalar, hvalues⟩ := exists_of_ends heval
    obtain ⟨hmask, hvalues⟩ := Prod.mk.inj hvalues
    obtain ⟨rfl, rfl⟩ := Prod.mk.inj hvalues
    exact ⟨hb, hlive, a, m, t, ha, hrun, hscalar, by simpa using hmask, hne⟩
  refine ⟨?_, ?_, ?_, ?_⟩
  · exact @hdiverges _ _ _ 0 1 (by decide) (by decide) (by decide +kernel) (by decide)
  · exact @hdiverges _ _ _ 1 7 (by decide) (by decide) (by decide +kernel) (by decide)
  · exact @hdiverges _ _ _ 0 1 (by decide) (by decide) (by decide +kernel) (by decide)
  · exact @hdiverges _ _ _ 0 1 (by decide) (by decide) (by decide +kernel) (by decide)

/-- With tracking, and names that are apart, the messages that carry a lane which entered are those
that a scalar run of the body sends in that lane, in the same order; no message carries another
lane, and every message carries some lane. The text of the body spells out the code that sends. -/
theorem lowerBody_signals (M : LaneModel V) (p : Policy) (hp : p.tracking = true)
    {body : Node String} {a : Annotated} (ha : annotate body = .ok a)
    (hb : body.madeOf [.block, .conditional, .operation, .call] = true) (hapart : a.Apart M p)
    (hne : ∀ message, .sends message ∈ usesOf a.root.stmts → trackText message ≠ p.ambient)
    (stores : Fin n → String → V) :
    Spells (render p (lowerBody p a.root)) (vectorLines p (lowerBody p a.root)) ∧
    ∃ m', Machine.run M (.start stores) (vectorLines p (lowerBody p a.root)) = some m' ∧
      (∀ i, M.truth (stores i p.ambient) = true →
        ∃ t, runAll M a.root.stmts ⟨stores i, []⟩ = some t ∧ m'.sentFor i = t.sent) ∧
      (∀ i, M.truth (stores i p.ambient) = false → ∀ s ∈ m'.signals, s.track i = false) ∧
      ∀ s ∈ m'.signals, ∃ i, s.track i = true := by
  obtain ⟨m', hrun, -, hsim⟩ := lowerBody_converts M p ha hb (by decide) (by decide) hapart
    (fun _ message hmem => ⟨hp, hne message hmem⟩) _ (Machine.ready_start a.masks stores)
  have hsees := Machine.sees_start (a.maskNames ++ a.trackNames) stores
  refine ⟨spells_render p _, m', hrun, fun i hlive => ?_, fun i hdead s hs => ?_, ?_⟩
  · obtain ⟨t, ht, hsees'⟩ :=
      hsim.live i ((Machine.live_root M p _ i).mpr fun _ => hlive) _ (hsees i)
    exact ⟨t, ht, hsees'.sent.symm⟩
  · have hnone := (hsim.idle i (Machine.live_root_eq_false hp hdead) _ (hsees i)).sent.symm
    simp only [Machine.sentFor, List.map_eq_nil_iff, List.filter_eq_nil_iff] at hnone
    simpa using hnone s hs
  · obtain ⟨new, hnew, hsome⟩ := hsim.signals
    rw [hnew]
    exact hsome

/-- A body that sends in both branches of a conditional and after it. -/
def relayBody : Node String :=
  blockNode
    [conditionalNode ["x", ">", "0"]
      [[operationNode ["x", "-=", "x"], callNode "context_signal_v_m"],
        [callNode "context_signal_w_m"]],
      callNode "context_signal_x_m"]

/-- The relaying body signals for each lane what a scalar run sends. -/
theorem lowerBody_signals_relay :
    ∃ a, annotate relayBody = .ok a ∧ a.trackNames = ["m.track", "m.track", "m.track"] ∧
      relayBody.madeOf [.block, .conditional, .operation, .call] = true ∧
      a.Apart intLanes trackingPolicy ∧
      Spells (render trackingPolicy (lowerBody trackingPolicy a.root))
        (vectorLines trackingPolicy (lowerBody trackingPolicy a.root)) ∧
      ∃ m', Machine.run intLanes (.start countdownStores)
          (vectorLines trackingPolicy (lowerBody trackingPolicy a.root)) = some m' ∧
        (∀ i, ∃ t, runAll intLanes a.root.stmts ⟨countdownStores i, []⟩ = some t ∧
          m'.sentFor i = t.sent) ∧
        ∀ s ∈ m'.signals, ∃ i, s.track i = true := by
  have heval : (annotate relayBody).toOption.map
      (fun a => (a.trackNames, a.isApart trackingPolicy)) =
        some (["m.track", "m.track", "m.track"], true) := by decide +kernel
  obtain ⟨a, ha, hvalues⟩ := exists_eq_ok heval
  obtain ⟨htracks, hnames⟩ := Prod.mk.inj hvalues
  have hb : relayBody.madeOf [.block, .conditional, .operation, .call] = true := by decide
  have hapart := a.apart_of_isApart hnames
  have hne : ∀ message, .sends message ∈ usesOf a.root.stmts →
      trackText message ≠ trackingPolicy.ambient := by
    intro message hmem
    have htrack := Annotated.trackText_mem hmem
    rw [htracks] at htrack
    intro he
    rw [he] at htrack
    exact absurd htrack (by decide)
  obtain ⟨hspells, m', hrun, hlive, -, hsome⟩ :=
    lowerBody_signals intLanes trackingPolicy rfl ha hb hapart hne countdownStores
  exact ⟨a, ha, htracks, hb, hapart, hspells, m', hrun,
    fun i => hlive i (countdownStores_enters i), hsome⟩

/-- A lane that enters a body made of blocks, conditionals, assignments and sends, none of which
changes the mask of the entry, is carried by other messages after the lines of the body than a
scalar run of it sends. -/
def Misreports (p : Policy) (body : Node String) (stores : Fin 1 → String → Int) : Prop :=
  p.tracking = true ∧ body.madeOf [.block, .conditional, .operation, .call] = true ∧
    intLanes.truth (stores 0 p.ambient) = true ∧
    ∃ a m t, annotate body = .ok a ∧
      Machine.run intLanes (.start stores) (vectorLines p (lowerBody p a.root)) = some m ∧
      runAll intLanes a.root.stmts ⟨stores 0, []⟩ = some t ∧
      p.ambient ∉ a.trackNames ∧ m.sentFor 0 ≠ t.sent

/-- Names have to be apart for messages too. Nothing is sent for a lane whose mask the body has
assigned to, and a vertex that is read from the mask a message carries is not the one the body
means. -/
theorem lowerBody_misreports_on_clash :
    Misreports trackingPolicy
        (blockNode [conditionalNode ["x"]
          [[operationNode ["mask_1", "=", "0"], callNode "context_signal_v_m"]]])
        (singleStore [("x", 1), ("vp_track", 1)]) ∧
      Misreports trackingPolicy (blockNode [callNode "context_signal_m.track_m"])
        (singleStore [("m.track", 7), ("vp_track", 1)]) := by
  have hmisreports : ∀ {body : Node String} {stores : Fin 1 → String → Int}
      {carried sent : List (Sent Int)},
      body.madeOf [.block, .conditional, .operation, .call] = true →
      intLanes.truth (stores 0 trackingPolicy.ambient) = true →
      ends trackingPolicy body stores (fun a m t =>
        (a.trackNames.contains trackingPolicy.ambient, m.sentFor 0, t.sent)) =
          some (false, carried, sent) →
      carried ≠ sent → Misreports trackingPolicy body stores := by
    intro body stores carried sent hb hlive heval hne
    obtain ⟨a, m, t, ha, hrun, hscalar, hvalues⟩ := exists_of_ends heval
    obtain ⟨hambient, hvalues⟩ := Prod.mk.inj hvalues
    obtain ⟨rfl, rfl⟩ := Prod.mk.inj hvalues
    exact ⟨rfl, hb, hlive, a, m, t, ha, hrun, hscalar, by simpa using hambient, hne⟩
  refine ⟨?_, ?_⟩
  · exact @hmisreports _ _ [] [⟨"v", "m", 0, 0⟩] (by decide) (by decide) (by decide +kernel)
      (by decide)
  · exact @hmisreports _ _ [⟨"m.track", "m", 1, 0⟩] [⟨"m.track", "m", 7, 0⟩] (by decide)
      (by decide) (by decide +kernel) (by decide)

end

end VertexLanes
