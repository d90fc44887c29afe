import Mathlib.Computability.StateTransition
import VertexLanes.Proofs.ClassPlans
import VertexLanes.Proofs.NestingBound

/-!
# The parsers go on

The tasks of the parsers are done one after the other, the ones that a task comes
to before those behind it. Every task that may begin is finished and leads where
the parser ends, by induction on the tokens ahead and on the order of the tasks.
So every round of a loop that is followed by another one has read something, and
a run on any tokens ends without an impossible task.
-/

namespace VertexLanes.Parser

open StateTransition

/-- What is still to be done, and the place that has been reached. -/
structure State where
  /-- The tasks, the next one first. -/
  tasks : List Task
  /-- The place. -/
  cursor : Cursor

/-- Do the next task. There is no step when nothing is to be done or the task is impossible. -/
def step : State → Option State
  | ⟨[], _⟩ => none
  | ⟨t :: rest, c⟩ => (t.plan c).map fun ts => ⟨ts ++ rest, t.move c⟩

/-- Doing some tasks leads from one place to another, whatever is to be done after them. -/
def Leads (ts : List Task) (c d : Cursor) : Prop :=
  ∀ rest, Reaches step ⟨ts ++ rest, c⟩ ⟨rest, d⟩

theorem Leads.nil (c : Cursor) : Leads [] c c := fun _ => .refl

/-- Tasks lead on from where the first one leads. -/
theorem Leads.cons {t : Task} {ts : List Task} {c mid d : Cursor} (h : Leads [t] c mid)
    (h' : Leads ts mid d) : Leads (t :: ts) c d :=
  fun rest => (h (ts ++ rest)).trans (h' rest)

/-- A task leads where the tasks lead that it comes to. -/
theorem Leads.of_plan {t : Task} {ts : List Task} {c d : Cursor} (hplan : t.plan c = some ts)
    (h : Leads ts (t.move c) d) : Leads [t] c d := by
  intro rest
  refine .head ?_ (h rest)
  change step ⟨t :: rest, c⟩ = some _
  rw [step, hplan]
  rfl

/-! ## Every task is finished -/

/-- Tasks lead to their targets if all tasks below them do. -/
theorem leads_of_descends {bound : Nat} {c d : Cursor} {ts : List Task}
    (ih : ∀ u e, e.size < c.size ∨ e.size ≤ c.size ∧ u.rank < bound → u.Ready e →
      Leads [u] e (u.target e))
    (hready : Task.AllReady d ts) (hdescends : Task.Descends bound c d ts) :
    Leads ts d (Task.targets d ts) := by
  induction ts generalizing d with
  | nil => exact .nil d
  | cons t ts ihts =>
    exact (ih t d hdescends.1 hready.1).cons (ihts hready.2 hdescends.2)

/-- A task that may begin is finished, where the parser ends. -/
theorem leads_of_ready (t : Task) (c : Cursor) (h : t.Ready c) : Leads [t] c (t.target c) := by
  obtain ⟨ts, hts⟩ := Task.exists_plans h
  refine .of_plan hts.plan_eq ?_
  rw [← hts.targets_eq]
  exact leads_of_descends (fun u e _ hu => leads_of_ready u e hu) hts.ready hts.descends
termination_by (c.size, t.rank)
decreasing_by
  rename_i hlt
  rcases hlt with hlt | ⟨hle, hrank⟩
  · exact .left _ _ hlt
  · exact .right' _ hle hrank

/-- Tasks that are ready one after the other lead to their targets. -/
theorem leads_of_allReady {c : Cursor} {ts : List Task} (h : Task.AllReady c ts) :
    Leads ts c (Task.targets c ts) := by
  induction ts generalizing c with
  | nil => exact .nil c
  | cons t ts ih => exact (leads_of_ready t c h.1).cons (ih h.2)

/-! ## What is passed -/

/-- A step passes some tokens, in order. -/
theorem exists_passes_of_step {s s' : State} (h : step s = some s') :
    ∃ passed, s.cursor.Passes passed s'.cursor := by
  obtain ⟨tasks, c⟩ := s
  cases tasks with
  | nil => cases h
  | cons t rest =>
    obtain ⟨ts, hplan, rfl⟩ := Option.map_eq_some_iff.mp h
    cases t with
    | advance =>
      cases hr : c.rest with
      | nil =>
        rw [Task.plan, hr] at hplan
        cases hplan
      | cons u us => exact ⟨[u], Cursor.passes_advance hr⟩
    | _ => exact ⟨[], .refl c⟩

/-- A run passes some tokens, in order. -/
theorem exists_passes_of_reaches {s s' : State} (h : Reaches step s s') :
    ∃ passed, s.cursor.Passes passed s'.cursor := by
  induction h with
  | refl => exact ⟨[], .refl _⟩
  | tail _ hstep ih =>
    obtain ⟨first, hfirst⟩ := ih
    obtain ⟨last, hlast⟩ := exists_passes_of_step hstep
    exact ⟨first ++ last, hfirst.trans hlast⟩

/-- Tasks that lead to a place with fewer tokens ahead have passed some. -/
theorem Leads.exists_passes {ts : List Task} {c d : Cursor} (h : Leads ts c d)
    (hlt : d.size < c.size) : ∃ passed, passed ≠ [] ∧ c.Passes passed d := by
  obtain ⟨passed, hpassed⟩ := exists_passes_of_reaches (h [])
  refine ⟨passed, ?_, hpassed⟩
  rintro rfl
  exact Nat.lt_irrefl _ (Nat.lt_of_lt_of_eq hlt (congrArg List.length hpassed.rest_eq))

/-! ## Rounds of loops -/

namespace Task

/-- Tasks are ready if the first of them are, and the others at the target of the first. -/
theorem allReady_append {c : Cursor} {ts us : List Task} :
    AllReady c (ts ++ us) ↔ AllReady c ts ∧ AllReady (targets c ts) us := by
  induction ts generalizing c with
  | nil => exact (and_iff_right trivial).symm
  | cons t ts ih => exact (and_congr_right fun _ => ih).trans and_assoc.symm

/-- Where tasks descend, so do the last of them. -/
theorem descends_of_append {bound : Nat} {c d : Cursor} {ts us : List Task}
    (h : Descends bound c d (ts ++ us)) : Descends bound c (targets d ts) us := by
  induction ts generalizing d with
  | nil => exact h
  | cons t ts ih => exact ih h.2

/-- The rounds of a loop are of the same rank. -/
theorem rank_eq_of_loop {t u : Task} {loop : Loop} (ht : t.loop? = some loop)
    (hu : u.loop? = some loop) : t.rank = u.rank := by
  cases t with
  | run _ | group _ | untilSemicolon | skipItem | skipInitializers _ | statements _ | memberHead
  | members | classes =>
    cases ht
    cases u with
    | run _ | group _ | untilSemicolon | skipItem | skipInitializers _ | statements _ | memberHead
    | members | classes => cases hu <;> rfl
    | _ => cases hu
  | _ => cases ht

/-- A round of a loop comes to another one only at its end. -/
theorem loop_ne_of_mem_dropLast {t : Task} {loop : Loop} {c : Cursor} {ts : List Task}
    (hl : t.loop? = some loop) (hplan : t.plan c = some ts) :
    ∀ u ∈ ts.dropLast, u.loop? ≠ some loop := by
  cases t with
  | run _ | untilSemicolon | skipItem | skipInitializers _ | statements _ | memberHead =>
    cases hl
    rw [plan] at hplan
    repeat' split at hplan
    all_goals
      cases hplan
      simp [loop?]
  | group opened =>
    cases hl
    rw [plan] at hplan
    split at hplan
    · cases hplan
      simp
    · obtain ⟨left, -, rfl⟩ := Option.map_eq_some_iff.mp hplan
      split <;> simp [loop?]
  | members =>
    cases hl
    rw [plan] at hplan
    split at hplan
    · cases hplan
      simp
    · next t _ _ =>
      split at hplan
      · cases hplan
        simp
      · cases hplan
        rw [List.dropLast_concat]
        cases MemberOpening.ofLexeme t.item <;> simp [entryPlan, loop?]
  | classes =>
    cases hl
    rw [plan] at hplan
    split at hplan
    · cases hplan
      simp
    · next t _ _ =>
      cases hplan
      rw [List.dropLast_concat]
      cases MemberOpening.ofLexeme t.item <;> simp [itemPlan, loop?]
  | _ => cases hl

/-- A round of a loop that another one follows was fit to begin. -/
theorem ready_of_again {t u : Task} {loop : Loop} {c : Cursor} {body : List Task}
    (hl : t.loop? = some loop) (hplan : t.plan c = some (body ++ [u]))
    (hu : u.loop? = some loop) : t.Ready c := by
  cases t with
  | group opened =>
    cases opened with
    | succ depth => trivial
    | zero =>
      intro v hv
      obtain ⟨ts, hr⟩ := List.head?_eq_some_iff.mp hv
      simp only [plan, hr] at hplan
      cases hside : v.side with
      | opening => rfl
      | closing =>
        rw [hside] at hplan
        cases hplan
      | plain =>
        -- a group that begins with any other token ends with it
        rw [hside] at hplan
        have hlast := congrArg (Option.map List.getLast?) hplan
        simp only [openedAfter, Option.map_some, List.getLast?_concat] at hlast
        cases hlast
        cases hl
        cases hu
  | advance => cases hl
  | _ => trivial

end Task

/-- A round of a loop leaves it, or tokens are passed before the next round. -/
theorem loop_advances {t : Task} {loop : Loop} {c : Cursor} {ts : List Task}
    (hl : t.loop? = some loop) (hplan : t.plan c = some ts) :
    (∀ u ∈ ts, u.loop? ≠ some loop) ∨
      ∃ body again d passed, ts = body ++ [again] ∧ (∀ u ∈ body, u.loop? ≠ some loop) ∧
        again.loop? = some loop ∧ Leads body c d ∧ passed ≠ [] ∧ c.Passes passed d := by
  have hbody := Task.loop_ne_of_mem_dropLast hl hplan
  rcases List.eq_nil_or_concat' ts with rfl | ⟨body, again, rfl⟩
  · exact .inl fun u hu => absurd hu List.not_mem_nil
  · rw [List.dropLast_concat] at hbody
    by_cases hagain : again.loop? = some loop
    · right
      have hready := Task.ready_of_again hl hplan hagain
      obtain ⟨us, hus⟩ := Task.exists_plans hready
      cases hplan.symm.trans hus.plan_eq
      have hmove : t.move c = c := by
        cases t with
        | advance => cases hl
        | _ => rfl
      have hdescends := hus.descends
      have hleads := hus.ready
      rw [hmove] at hdescends hleads
      have hlt : (Task.targets c body).size < c.size := by
        rcases (Task.descends_of_append hdescends).1 with hlt | ⟨-, hrank⟩
        · exact hlt
        · exact absurd hrank (Task.rank_eq_of_loop hl hagain ▸ Nat.lt_irrefl _)
      have hleads := leads_of_allReady (Task.allReady_append.mp hleads).1
      obtain ⟨passed, hne, hpassed⟩ := hleads.exists_passes hlt
      exact ⟨body, again, _, passed, rfl, hbody, hagain, hleads, hne, hpassed⟩
    · left
      intro u hu
      rcases List.mem_append.mp hu with hu | hu
      · exact hbody u hu
      · cases List.mem_singleton.mp hu
        exact hagain

/-! ## Runs -/

/-- Whether every task that is left may begin where those before it lead. -/
def State.Sound (s : State) : Prop := Task.AllReady s.cursor s.tasks

/-- A step keeps a state sound. -/
theorem State.Sound.step {s s' : State} (h : s.Sound) (hstep : step s = some s') : s'.Sound := by
  obtain ⟨tasks, c⟩ := s
  cases tasks with
  | nil => cases hstep
  | cons t rest =>
    obtain ⟨ts, hplan, rfl⟩ := Option.map_eq_some_iff.mp hstep
    obtain ⟨us, hus⟩ := Task.exists_plans h.1
    cases hplan.symm.trans hus.plan_eq
    refine Task.allReady_append.mpr ⟨hus.ready, ?_⟩
    rw [hus.targets_eq]
    exact h.2

/-- A run keeps a state sound. -/
theorem State.Sound.reaches {s s' : State} (h : s.Sound) (hs : Reaches Parser.step s s') :
    s'.Sound := by
  induction hs with
  | refl => exact h
  | tail _ hstep ih => exact ih.step hstep

/-- A state of a run that began at `c`. -/
structure Healthy (c : Cursor) (s : State) : Prop where
  /-- It is reached by passing tokens that were ahead. -/
  passes : ∃ passed, c.Passes passed s.cursor
  /-- The next task can be done. -/
  goesOn : s.tasks ≠ [] → ∃ s', step s = some s'
  /-- A bracket that closes in a group was opened there. -/
  counted : ∀ opened rest t ts, s.tasks = .group opened :: rest → s.cursor.rest = t :: ts →
    t.side = .closing → 0 < opened

/-- A sound state with tasks left can take a step. -/
theorem State.Sound.exists_step {s : State} (h : s.Sound) (hne : s.tasks ≠ []) :
    ∃ s', Parser.step s = some s' := by
  obtain ⟨tasks, c⟩ := s
  cases tasks with
  | nil => exact absurd rfl hne
  | cons t rest =>
    obtain ⟨ts, hts⟩ := Task.exists_plans h.1
    exact ⟨_, Option.map_eq_some_iff.mpr ⟨ts, hts.plan_eq, rfl⟩⟩

/-- In a sound state a group that meets a closing bracket has an open one to close. -/
theorem State.Sound.counted {s : State} (h : s.Sound) {opened : Nat} {rest : List Task} {t : Token}
    {ts : List Token} (htasks : s.tasks = .group opened :: rest) (hr : s.cursor.rest = t :: ts)
    (hside : t.side = .closing) : 0 < opened := by
  cases opened with
  | succ depth => exact Nat.succ_pos depth
  | zero =>
    rw [State.Sound, htasks] at h
    have hopening := h.1 t (by rw [hr]; rfl)
    rw [hside] at hopening
    cases hopening

/-- Every state of a run is healthy. -/
theorem healthy_of_reaches {t : Task} {c : Cursor} (h : t.Ready c) {s : State}
    (hs : Reaches step ⟨[t], c⟩ s) : Healthy c s :=
  have hsound : s.Sound := State.Sound.reaches (s := ⟨[t], c⟩) ⟨h, trivial⟩ hs
  ⟨exists_passes_of_reaches hs, hsound.exists_step, fun _ _ _ _ => hsound.counted⟩

/-- A task that is ready ends at its target. -/
theorem mem_eval_of_ready {t : Task} {c : Cursor} (h : t.Ready c) :
    ⟨[], t.target c⟩ ∈ eval step ⟨[t], c⟩ :=
  mem_eval.mpr ⟨leads_of_ready t c h [], rfl⟩

/-- The parsers go on. Whatever the tokens are, doing a task step by step ends where the parser
ends. A statement passes tokens unless the enclosing block ends. A round of a loop leaves it or
passes tokens before the next round. Reading a body or a file never leaves the tokens there are,
closes no bracket of a group that was not opened there, and comes to its end. -/
theorem parser_makes_progress :
    (∀ (t : Task) c, t.Ready c → Leads [t] c (t.target c)) ∧
    (∀ depth (c : Cursor), c.atBlockEnd = false →
      ∃ passed, passed ≠ [] ∧ c.Passes passed (statement depth c).val.next) ∧
    (∀ (t : Task) loop c ts, t.loop? = some loop → t.plan c = some ts →
      (∀ u ∈ ts, u.loop? ≠ some loop) ∨
        ∃ body again d passed, ts = body ++ [again] ∧ (∀ u ∈ body, u.loop? ≠ some loop) ∧
          again.loop? = some loop ∧ Leads body c d ∧ passed ≠ [] ∧ c.Passes passed d) ∧
    ∀ c,
      (∀ s, Reaches step ⟨[.body], c⟩ s ∨ Reaches step ⟨[.classes], c⟩ s → Healthy c s) ∧
        ⟨[], (parseTokens c).next⟩ ∈ eval step ⟨[.body], c⟩ ∧
        ⟨[], (classes c).next⟩ ∈ eval step ⟨[.classes], c⟩ := by
  refine ⟨leads_of_ready, ?_, ?_, ?_⟩
  · intro depth c hc
    exact (leads_of_ready (.statement depth) c trivial).exists_passes
      ((statement depth c).property.2 hc)
  · intro t loop c ts hl hplan
    exact loop_advances hl hplan
  · intro c
    refine ⟨?_, mem_eval_of_ready (t := .body) trivial, mem_eval_of_ready (t := .classes) trivial⟩
    rintro s (hs | hs)
    · exact healthy_of_reaches (t := .body) trivial hs
    · exact healthy_of_reaches (t := .classes) trivial hs

/-- A parenthesis that a bracket of another kind closes, and a bracket without its partner. -/
def strayBrackets : Cursor :=
  ⟨[⟨.symbol .lparen, ⟨0, 1⟩⟩, ⟨.symbol .rbracket, ⟨1, 2⟩⟩, ⟨.symbol .rparen, ⟨2, 3⟩⟩], none, 3⟩

/-- Progress on stray brackets. -/
theorem parser_makes_progress_stray :
    strayBrackets.atBlockEnd = false ∧
      (∃ passed, passed ≠ [] ∧ strayBrackets.Passes passed (statement 0 strayBrackets).val.next) ∧
      (∃ d passed, Leads [.group 0] strayBrackets d ∧ passed ≠ [] ∧
        strayBrackets.Passes passed d) ∧
      Healthy strayBrackets ⟨[.classes], strayBrackets⟩ := by
  obtain ⟨-, hstatement, hloop, hrun⟩ := parser_makes_progress
  refine ⟨by decide, hstatement 0 strayBrackets (by decide), ?_,
    (hrun strayBrackets).1 _ (.inr .refl)⟩
  have hround := hloop .untilSemicolon .untilSemicolon strayBrackets [.group 0, .untilSemicolon]
    rfl rfl
  rcases hround with hleaves | ⟨body, again, d, passed, hts, -, -, hleads, hpassed⟩
  · exact absurd rfl (hleaves .untilSemicolon (by simp))
  · have hsplit : [Task.group 0] ++ [Task.untilSemicolon] = body ++ [again] := hts
    rw [← (List.append_inj' hsplit rfl).1] at hleads
    exact ⟨d, passed, hleads, hpassed⟩

end VertexLanes.Parser
