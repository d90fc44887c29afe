import Mathlib.Data.Int.Bitwise
import Mathlib.Data.List.Infix
import VertexLanes.Proofs.OperandSlots

/-!
# Operators that bind more or less tightly

An expression is split at the first operator of the table that qualifies, and the
table does not follow how tightly operators bind. Here an expression is a tree
whose operators bind as they do in source programs, and its tokens determine the
tree. The split gives the value of the tree under every meaning of the operators
exactly if it is made at the root. Over the integers a sum may also be split
before the terms that are subtracted from it.
-/

namespace VertexLanes

/-- An operator in front of its operand. -/
inductive PrefixOp where
  | minus | not | compl | deref
deriving DecidableEq, Repr

/-- An operator between its operands. -/
inductive BinaryOp where
  | mul | div | mod
  | add | sub
  | shl | shr
  | lt | gt | le | ge
  | eq | ne
  | and | xor | or
  | both | either
deriving DecidableEq, Repr

/-- The token of a prefix operator. -/
def PrefixOp.token : PrefixOp → String
  | .minus => "-"
  | .not => "!"
  | .compl => "~"
  | .deref => "*"

namespace BinaryOp

/-- The token of a binary operator. -/
def token : BinaryOp → String
  | .mul => "*"
  | .div => "/"
  | .mod => "%"
  | .add => "+"
  | .sub => "-"
  | .shl => "<<"
  | .shr => ">>"
  | .lt => "<"
  | .gt => ">"
  | .le => "<="
  | .ge => ">="
  | .eq => "=="
  | .ne => "!="
  | .and => "&"
  | .xor => "^"
  | .or => "|"
  | .both => "&&"
  | .either => "||"

/-- How tightly a binary operator binds; all of them group to the left. -/
def level : BinaryOp → Nat
  | .mul | .div | .mod => 10
  | .add | .sub => 9
  | .shl | .shr => 8
  | .lt | .gt | .le | .ge => 7
  | .eq | .ne => 6
  | .and => 5
  | .xor => 4
  | .or => 3
  | .both => 2
  | .either => 1

theorem token_injective {o q : BinaryOp} (h : o.token = q.token) : o = q := by
  revert h
  cases o <;> cases q <;> decide

end BinaryOp

theorem PrefixOp.token_injective {p q : PrefixOp} (h : p.token = q.token) : p = q := by
  revert h
  cases p <;> cases q <;> decide

namespace Operands

/-- A token that is no bracket and after which an operand starts. -/
def IsMark (token : String) : Prop :=
  sideOfSpelling token = .plain ∧ startsOperand (some token) = true

/-- A token that stands for itself: a name, a literal, or what joins two names to one. -/
def IsWord (token : String) : Prop :=
  sideOfSpelling token = .plain ∧ startsOperand (some token) = false

instance (token : String) : Decidable (IsWord token) := inferInstanceAs (Decidable (_ ∧ _))

private theorem isMark_prefixOp (p : PrefixOp) : IsMark p.token := by
  cases p <;> exact ⟨by decide, by decide⟩

private theorem isMark_binary (o : BinaryOp) : IsMark o.token := by
  cases o <;> exact ⟨by decide, by decide⟩

/-- An operator leaves the bracket depth as it is. -/
theorem IsMark.bracketDepth_cons {t : String} (h : IsMark t) (ts : List String) :
    bracketDepth (t :: ts) = bracketDepth ts := by
  rw [bracketDepth, h.1]
  exact Int.zero_add _

/-- Tokens in which every bracket that closes was opened before, and all are closed in the end. -/
def IsClosed (tokens : List String) : Prop :=
  bracketDepth tokens = 0 ∧ ∀ ts, ts <+: tokens → 0 ≤ bracketDepth ts

instance (tokens : List String) : Decidable (IsClosed tokens) :=
  decidable_of_iff (bracketDepth tokens = 0 ∧ ∀ ts ∈ tokens.inits, 0 ≤ bracketDepth ts)
    (by simp only [IsClosed, List.mem_inits])

/-- The tokens of an operand that no operator outside brackets divides. -/
inductive Atom : List String → Prop
  /-- A name or a literal. -/
  | word {token : String} (h : IsWord token) : Atom [token]
  /-- A member of an object or of a scope. -/
  | member {object : List String} {sign name : String} (h : Atom object)
      (hsign : sign ∈ [".", "->", "::"]) (hname : IsWord name) : Atom (object ++ [sign, name])
  /-- A call. -/
  | call {callee arguments : List String} (h : Atom callee) (harguments : IsClosed arguments) :
      Atom (callee ++ "(" :: (arguments ++ [")"]))
  /-- Anything in parentheses. -/
  | paren {inner : List String} (h : IsClosed inner) : Atom ("(" :: (inner ++ [")"]))

end Operands

open Operands

/-- An expression as the tree of its operators. -/
inductive Term where
  /-- An operand without operators outside brackets. -/
  | atom (tokens : List String)
  /-- A prefix operator and its operand. -/
  | pre (op : PrefixOp) (operand : Term)
  /-- A binary operator and its operands. -/
  | bin (op : BinaryOp) (left right : Term)
deriving DecidableEq, Repr

namespace Term

/-- The tokens of an expression. -/
def tokens : Term → List String
  | .atom ts => ts
  | .pre p e => p.token :: e.tokens
  | .bin o l r => l.tokens ++ o.token :: r.tokens

/-- The binary operators outside all brackets, from left to right. -/
def operators : Term → List BinaryOp
  | .atom _ => []
  | .pre _ _ => []
  | .bin o l r => l.operators ++ o :: r.operators

/-- The tree groups its operators by how tightly they bind: a prefix operator takes no binary one,
and a binary operator takes at its left those that bind no less tightly than itself and at its right
those that bind more tightly. -/
def WellFormed : Term → Prop
  | .atom ts => Atom ts
  | .pre _ e => e.WellFormed ∧ e.operators = []
  | .bin o l r => l.WellFormed ∧ r.WellFormed ∧ (∀ q ∈ l.operators, o.level ≤ q.level) ∧
      ∀ q ∈ r.operators, o.level < q.level

end Term

/-! ## Atoms -/

namespace Operands

/-- A token that stands outside all brackets stands so in the first or in the second part. -/
theorem outside_append {ts us before after : List String} {t : String}
    (h : ts ++ us = before ++ t :: after) (hts : bracketDepth ts = 0)
    (hd : bracketDepth before = 0) :
    (∃ between, ts = before ++ t :: between ∧ after = between ++ us) ∨
      ∃ between, before = ts ++ between ∧ us = between ++ t :: after ∧
        bracketDepth between = 0 := by
  rcases List.append_eq_append_iff.mp h with ⟨between, rfl, hus⟩ | ⟨between, hsplit, hafter⟩
  · rw [bracketDepth_append, hts, Int.zero_add] at hd
    exact Or.inr ⟨between, rfl, hus, hd⟩
  · cases between with
    | nil =>
      rw [List.append_nil] at hsplit
      exact Or.inr ⟨[], by rw [hsplit, List.append_nil], hafter.symm, rfl⟩
    | cons u between =>
      obtain ⟨rfl, rfl⟩ := List.cons.inj hafter
      exact Or.inl ⟨between, hsplit, rfl⟩

private theorem isClosed_singleton {t : String} (h : sideOfSpelling t = .plain) : IsClosed [t] := by
  have hdepth : bracketDepth [t] = 0 := by
    rw [bracketDepth, h]
    rfl
  refine ⟨hdepth, fun before hbefore => ?_⟩
  rcases List.prefix_cons_iff.mp hbefore with rfl | ⟨rest, rfl, hrest⟩
  · exact Int.le_refl 0
  · rw [List.prefix_nil.mp hrest]
    exact Int.le_of_eq hdepth.symm

/-- Two closed runs of tokens are closed together. -/
theorem IsClosed.append {ts us : List String} (hts : IsClosed ts) (hus : IsClosed us) :
    IsClosed (ts ++ us) := by
  constructor
  · rw [bracketDepth_append, hts.1, hus.1]
    rfl
  · rintro before ⟨after, h⟩
    rcases List.append_eq_append_iff.mp h with ⟨between, hin, -⟩ | ⟨between, rfl, hin⟩
    · exact hts.2 before ⟨between, hin.symm⟩
    · rw [bracketDepth_append, hts.1, Int.zero_add]
      exact hus.2 between ⟨after, hin.symm⟩

/-- Closed tokens in parentheses are closed. -/
theorem IsClosed.paren {inner : List String} (h : IsClosed inner) :
    IsClosed ("(" :: (inner ++ [")"])) := by
  have hopening : ∀ ts, bracketDepth ("(" :: ts) = 1 + bracketDepth ts := fun _ => rfl
  have hwhole : bracketDepth (inner ++ [")"]) = -1 := by
    rw [bracketDepth_concat, h.1]
    decide
  refine ⟨by rw [hopening, hwhole]; rfl, fun before hbefore => ?_⟩
  rcases List.prefix_cons_iff.mp hbefore with rfl | ⟨rest, rfl, hrest⟩
  · exact Int.le_refl 0
  · rw [hopening]
    rcases List.prefix_concat_iff.mp hrest with rfl | hrest
    · rw [hwhole]
      decide
    · have hpos := h.2 rest hrest
      omega

/-- Nothing but the opening bracket of a group stands outside it. -/
theorem IsClosed.eq_of_paren {inner before after : List String} {t : String} (h : IsClosed inner)
    (ht : "(" :: (inner ++ [")"]) = before ++ t :: after) (hd : bracketDepth before = 0) :
    t = "(" := by
  cases before with
  | nil => exact (List.cons.inj ht).1.symm
  | cons first before =>
    obtain ⟨rfl, hrest⟩ := List.cons.inj ht
    have hwhole : before ++ t :: after = inner ++ [")"] := hrest.symm
    have hlength := congrArg List.length hwhole
    simp only [List.length_append, List.length_cons, List.length_nil] at hlength
    have hprefix : before <+: inner :=
      List.prefix_of_prefix_length_le ⟨_, hwhole⟩ (List.prefix_append _ _) (by omega)
    have hpos := h.2 before hprefix
    have hfirst : bracketDepth ("(" :: before) = 1 + bracketDepth before := rfl
    omega

private theorem isWord_sign {sign : String} (h : sign ∈ [".", "->", "::"]) : IsWord sign := by
  simp only [List.mem_cons, List.not_mem_nil, or_false] at h
  rcases h with rfl | rfl | rfl <;> exact ⟨by decide, by decide⟩

namespace Atom

variable {ts : List String}

theorem ne_nil (h : Atom ts) : ts ≠ [] := by
  cases h <;> simp

theorem isClosed (h : Atom ts) : IsClosed ts := by
  induction h with
  | word h => exact isClosed_singleton h.1
  | member _ hsign hname ih =>
    exact ih.append ((isClosed_singleton (isWord_sign hsign).1).append (isClosed_singleton hname.1))
  | call _ harguments ih => exact ih.append harguments.paren
  | paren h => exact h.paren

/-- After an operand no operand starts. -/
theorem startsOperand_getLast? (h : Atom ts) : startsOperand ts.getLast? = false := by
  cases h with
  | word h => exact h.2
  | member _ _ hname =>
    rw [List.getLast?_append_of_ne_nil _ (List.cons_ne_nil _ _)]
    exact hname.2
  | call =>
    rw [← List.cons_append, ← List.append_assoc, List.getLast?_concat]
    decide
  | paren =>
    rw [← List.cons_append, List.getLast?_concat]
    decide

/-- No operator stands in an atom outside all brackets. -/
theorem not_isMark (h : Atom ts) {before after : List String} {t : String}
    (ht : ts = before ++ t :: after) (hd : bracketDepth before = 0) : ¬IsMark t := by
  rintro ⟨hside, hstarts⟩
  have hword : ¬IsWord t := fun hw => Bool.false_ne_true (hw.2.symm.trans hstarts)
  have hparen : t ≠ "(" := by
    rintro rfl
    cases hside
  induction h generalizing before after with
  | @word token h =>
    have hmem : t ∈ [token] := ht ▸ List.mem_append_right before List.mem_cons_self
    exact hword (List.mem_singleton.mp hmem ▸ h)
  | @member _ sign name hobject hsign hname ih =>
    rcases outside_append ht hobject.isClosed.1 hd with ⟨_, hin, -⟩ | ⟨between, -, hrest, -⟩
    · exact ih hin hd
    · have hmem : t ∈ [sign, name] := hrest ▸ List.mem_append_right between List.mem_cons_self
      rcases List.mem_cons.mp hmem with rfl | hmem
      · exact hword (isWord_sign hsign)
      · exact hword (List.mem_singleton.mp hmem ▸ hname)
  | call hcallee harguments ih =>
    rcases outside_append ht hcallee.isClosed.1 hd with ⟨_, hin, -⟩ | ⟨_, -, hrest, hb⟩
    · exact ih hin hd
    · exact hparen (harguments.eq_of_paren hrest hb)
  | paren h => exact hparen (h.eq_of_paren ht hd)

/-- No atom begins with a prefix operator. -/
theorem head_ne_prefixOp (h : Atom ts) (p : PrefixOp) (after : List String) :
    ts ≠ p.token :: after := by
  intro ht
  exact @not_isMark ts h [] after p.token ht rfl (isMark_prefixOp p)

end Atom

end Operands

/-! ## Trees and their tokens -/

namespace Term

variable {e f : Term}

private theorem tokens_ne_nil (he : e.WellFormed) : e.tokens ≠ [] := by
  cases e with
  | atom ts => exact he.ne_nil
  | pre => exact List.cons_ne_nil _ _
  | bin => exact List.append_ne_nil_of_right_ne_nil _ (List.cons_ne_nil _ _)

theorem isClosed_tokens (he : e.WellFormed) : IsClosed e.tokens := by
  induction e with
  | atom ts => exact he.isClosed
  | pre p e ih => exact (isClosed_singleton (isMark_prefixOp p).1).append (ih he.1)
  | bin o l r ihLeft ihRight =>
    exact (ihLeft he.1).append ((isClosed_singleton (isMark_binary o).1).append (ihRight he.2.1))

/-- An expression in parentheses is an atom. -/
theorem atom_paren (he : e.WellFormed) : Atom ("(" :: (e.tokens ++ [")"])) :=
  .paren (isClosed_tokens he)

/-- After an expression no operand starts. -/
theorem startsOperand_getLast? (he : e.WellFormed) : startsOperand e.tokens.getLast? = false := by
  induction e with
  | atom ts => exact he.startsOperand_getLast?
  | pre p e ih =>
    rw [tokens, ← List.singleton_append, List.getLast?_append_of_ne_nil _ (tokens_ne_nil he.1)]
    exact ih he.1
  | bin o l r _ ihRight =>
    obtain ⟨-, hr, -⟩ := he
    rw [tokens, List.append_cons, List.getLast?_append_of_ne_nil _ (tokens_ne_nil hr)]
    exact ihRight hr

/-- Where tokens follow an operator and an operand does not start after them, they are not empty. -/
theorem startsOperand_of_mark {before ts : List String} {t : String} (ht : IsMark t)
    (h : startsOperand (before ++ t :: ts).getLast? = false) :
    startsOperand ts.getLast? = false := by
  cases ts with
  | nil =>
    rw [List.getLast?_concat] at h
    cases ht.2.symm.trans h
  | cons u us =>
    rwa [List.append_cons, List.getLast?_append_of_ne_nil _ (List.cons_ne_nil u us)] at h

/-- An operator that joins operands outside all brackets divides the tree in two. -/
theorem exists_split (he : e.WellFormed) {before after : List String} {t : String}
    (h : e.tokens = before ++ t :: after) (ht : IsMark t) (hd : bracketDepth before = 0)
    (hs : startsOperand before.getLast? = false) :
    ∃ (o : BinaryOp) (l r : Term), o.token = t ∧ l.WellFormed ∧ r.WellFormed ∧
      l.tokens = before ∧ r.tokens = after ∧ e.operators = l.operators ++ o :: r.operators := by
  induction e generalizing before after with
  | atom ts => exact absurd ht (he.not_isMark h hd)
  | pre p e ih =>
    cases before with
    | nil => cases hs
    | cons first before =>
      obtain ⟨rfl, hrest⟩ := List.cons.inj h
      rw [(isMark_prefixOp p).bracketDepth_cons] at hd
      obtain ⟨o, l, r, -, -, -, -, -, hoperators⟩ :=
        ih he.1 hrest hd (@startsOperand_of_mark [] _ _ (isMark_prefixOp p) hs)
      rw [he.2] at hoperators
      cases (List.append_eq_nil_iff.mp hoperators.symm).2
  | bin o l r ihLeft ihRight =>
    obtain ⟨hl, hr, hleft, hright⟩ := he
    rcases outside_append h (isClosed_tokens hl).1 hd with
      ⟨between, hin, rfl⟩ | ⟨between, rfl, hrest, hb⟩
    · obtain ⟨q, first, second, hq, hfirst, hsecond, hft, hst, hoperators⟩ := ihLeft hl hin hd hs
      refine ⟨q, first, .bin o second r, hq, hfirst, ⟨hsecond, hr, ?_, hright⟩, hft, ?_, ?_⟩
      · intro u hu
        refine hleft u ?_
        rw [hoperators]
        exact List.mem_append_right _ (List.mem_cons_of_mem q hu)
      · rw [tokens, hst]
      · rw [operators, operators, hoperators, List.append_assoc, List.cons_append]
    · cases between with
      | nil =>
        obtain ⟨rfl, rfl⟩ := List.cons.inj hrest
        exact ⟨o, l, r, rfl, hl, hr, (List.append_nil _).symm, rfl, rfl⟩
      | cons u between =>
        obtain ⟨rfl, hin⟩ := List.cons.inj hrest
        rw [(isMark_binary o).bracketDepth_cons] at hb
        obtain ⟨q, first, second, hq, hfirst, hsecond, hft, hst, hoperators⟩ :=
          ihRight hr hin hb (startsOperand_of_mark (isMark_binary o) hs)
        refine ⟨q, .bin o l first, second, hq, ⟨hl, hfirst, hleft, ?_⟩, hsecond, ?_, hst, ?_⟩
        · intro u hu
          refine hright u ?_
          rw [hoperators]
          exact List.mem_append_left _ hu
        · rw [tokens, hft]
        · rw [operators, operators, hoperators, List.append_assoc, List.cons_append]

/-- Of two trees for the same tokens, neither has its root further to the left. -/
theorem not_root_before {o q : BinaryOp} {l r l' r' : Term} (h : (bin o l r).WellFormed)
    (h' : (bin q l' r').WellFormed) {between : List String}
    (hl : l'.tokens = l.tokens ++ o.token :: between)
    (hr : r.tokens = between ++ q.token :: r'.tokens) : False := by
  obtain ⟨hleftFormed, hrightFormed, -, hright⟩ := h
  obtain ⟨hleftFormed', -, hleft', -⟩ := h'
  obtain ⟨o', first, second, ho, -, hsecond, -, hst, hoperators⟩ := exists_split hleftFormed' hl
    (isMark_binary o) (isClosed_tokens hleftFormed).1 (startsOperand_getLast? hleftFormed)
  cases BinaryOp.token_injective ho
  have hloose : q.level ≤ o.level := by
    refine hleft' o ?_
    rw [hoperators]
    exact List.mem_append_right _ List.mem_cons_self
  rw [← hst] at hr
  obtain ⟨q', third, fourth, hq, -, -, -, -, hoperators'⟩ := exists_split hrightFormed hr
    (isMark_binary q) (isClosed_tokens hsecond).1 (startsOperand_getLast? hsecond)
  cases BinaryOp.token_injective hq
  have htight : o.level < q.level := by
    refine hright q ?_
    rw [hoperators']
    exact List.mem_append_right _ List.mem_cons_self
  omega

/-- A tree without binary operators outside brackets has no tokens of such an operator. -/
theorem tokens_ne_bin (he : e.WellFormed) (hoperators : e.operators = []) {o : BinaryOp}
    {l r : Term} (hl : l.WellFormed) : e.tokens ≠ l.tokens ++ o.token :: r.tokens := by
  intro h
  obtain ⟨o', first, second, -, -, -, -, -, hsplit⟩ := exists_split he h (isMark_binary o)
    (isClosed_tokens hl).1 (startsOperand_getLast? hl)
  rw [hoperators] at hsplit
  cases (List.append_eq_nil_iff.mp hsplit.symm).2

/-- The tokens of an expression determine its tree. -/
theorem eq_of_tokens_eq (he : e.WellFormed) (hf : f.WellFormed) (h : e.tokens = f.tokens) :
    e = f := by
  induction e generalizing f with
  | atom ts =>
    cases f with
    | atom us => exact congrArg Term.atom h
    | pre p f => exact absurd h (he.head_ne_prefixOp p _)
    | bin o l r => exact absurd h (tokens_ne_bin he rfl hf.1)
  | pre p e ih =>
    cases f with
    | atom us => exact absurd h.symm (hf.head_ne_prefixOp p _)
    | pre q f =>
      obtain ⟨hp, hrest⟩ := List.cons.inj h
      rw [PrefixOp.token_injective hp, ih he.1 hf.1 hrest]
    | bin o l r => exact absurd h (tokens_ne_bin he rfl hf.1)
  | bin o l r ihLeft ihRight =>
    cases f with
    | atom us => exact absurd h.symm (tokens_ne_bin hf rfl he.1)
    | pre q f => exact absurd h.symm (tokens_ne_bin hf rfl he.1)
    | bin q l' r' =>
      rcases outside_append h (isClosed_tokens he.1).1 (isClosed_tokens hf.1).1 with
        ⟨between, hl, hr⟩ | ⟨between, hl, hr, -⟩
      · exact (not_root_before hf he hl hr).elim
      · cases between with
        | nil =>
          rw [List.append_nil] at hl
          obtain ⟨ho, hrest⟩ := List.cons.inj hr
          rw [BinaryOp.token_injective ho, ihLeft he.1 hf.1 hl.symm, ihRight he.2.1 hf.2.1 hrest]
        | cons u between =>
          obtain ⟨rfl, hrest⟩ := List.cons.inj hr
          exact (not_root_before he hf hl hrest).elim

/-- A prefix operator that begins an expression belongs to its first operand; without it an
expression with the same binary operators is left. -/
theorem exists_strip (he : e.WellFormed) {p : PrefixOp} {after : List String}
    (h : e.tokens = p.token :: after) :
    ∃ f : Term, f.WellFormed ∧ f.tokens = after ∧ f.operators = e.operators ∧
      (e.operators = [] → e = pre p f) := by
  induction e generalizing after with
  | atom ts => exact absurd h (he.head_ne_prefixOp p after)
  | pre q e _ =>
    obtain ⟨hp, hrest⟩ := List.cons.inj h
    exact ⟨e, he.1, hrest, he.2, fun _ => by rw [PrefixOp.token_injective hp]⟩
  | bin o l r ihLeft _ =>
    obtain ⟨hl, hr, hleft, hright⟩ := he
    obtain ⟨first, others, hlt⟩ := List.exists_cons_of_ne_nil (tokens_ne_nil hl)
    rw [tokens, hlt] at h
    obtain ⟨rfl, hrest⟩ := List.cons.inj h
    obtain ⟨f, hf, hft, hfo, -⟩ := ihLeft hl hlt
    refine ⟨.bin o f r, ⟨hf, hr, hfo ▸ hleft, hright⟩, ?_, ?_, ?_⟩
    · rw [tokens, hft, ← hrest]
      rfl
    · rw [operators, operators, hfo]
    · intro hnil
      cases (List.append_eq_nil_iff.mp hnil).2

end Term

/-! ## Values -/

/-- A meaning of the operators over some values. -/
structure Arithmetic (α : Type) where
  /-- What a prefix operator does. -/
  prefixed : PrefixOp → α → α
  /-- What a binary operator does. -/
  binary : BinaryOp → α → α → α

namespace Term

variable {α : Type}

/-- The value of an expression, given the values of its atoms. -/
def value (A : Arithmetic α) (v : List String → α) : Term → α
  | .atom ts => v ts
  | .pre p e => A.prefixed p (e.value A v)
  | .bin o l r => A.binary o (l.value A v) (r.value A v)

/-- The meaning under which every expression is its own value. -/
def free : Arithmetic Term := ⟨pre, bin⟩

/-- Under the free meaning an expression is its own value. -/
theorem value_free (e : Term) : e.value free atom = e := by
  induction e with
  | atom => rfl
  | pre p e ih => rw [value, ih]; rfl
  | bin o l r ihLeft ihRight => rw [value, ihLeft, ihRight]; rfl

end Term

namespace VectorOp

/-- The binary operator that joins the operands of an operator of the table; the negation joins
none. -/
def joins? : VectorOp → Option BinaryOp
  | .add => some .add
  | .sub => some .sub
  | .mul => some .mul
  | .div => some .div
  | .eq => some .eq
  | .ne => some .ne
  | .le => some .le
  | .ge => some .ge
  | .lt => some .lt
  | .gt => some .gt
  | .andNot => some .and
  | .or => some .or
  | .and => some .and
  | .neg => none

/-- An operator of the table applied to two values; the conjunction with a complement takes the
complement of the second. -/
def result? {α : Type} (A : Arithmetic α) (op : VectorOp) (x y : α) : Option α :=
  op.joins?.map fun o => A.binary o x (if op = .andNot then A.prefixed .compl y else y)

/-- Joined to one expression, two expressions have the operator at the root of the tree. -/
def IsRoot (op : VectorOp) (l r : Term) : Prop :=
  ∃ o, op.joins? = some o ∧ (∀ q ∈ l.operators, o.level ≤ q.level) ∧
    (∀ q ∈ r.operators, o.level < q.level) ∧ (op = .andNot → r.operators = [])

private theorem exists_joins? {op : VectorOp} (h : op ≠ .neg) : ∃ o, op.joins? = some o := by
  cases op
  case neg => exact absurd rfl h
  all_goals exact ⟨_, rfl⟩

/-- A vector operator is written as the binary operator it joins with, followed by a complement for
the one that negates its second operand. -/
theorem tokens_of_joins? {op : VectorOp} {o : BinaryOp} (h : op.joins? = some o) :
    op.tokens = o.token :: if op = .andNot then [PrefixOp.compl.token] else [] := by
  cases op
  case neg => cases h
  all_goals
    cases h
    rfl

/-- The operator gives the value of an expression from the values of two others. -/
def GivesValue {α : Type} (op : VectorOp) (A : Arithmetic α) (v : List String → α)
    (e l r : Term) : Prop :=
  op.result? A (l.value A v) (r.value A v) = some (e.value A v)

end VectorOp

namespace Term

variable {e l r : Term} {op : VectorOp}

/-- The parts into which an operator that joins two operands splits an expression are
expressions. -/
theorem exists_parts (he : e.WellFormed) {left right : List String} (hop : op ≠ .neg)
    (h : e.tokens = left ++ op.tokens ++ right) (hd : bracketDepth left = 0)
    (hs : startsOperand left.getLast? = false) :
    ∃ l r : Term, l.WellFormed ∧ r.WellFormed ∧ l.tokens = left ∧ r.tokens = right := by
  obtain ⟨o, ho⟩ := VectorOp.exists_joins? hop
  rw [VectorOp.tokens_of_joins? ho, List.append_assoc, List.cons_append] at h
  obtain ⟨-, l, r, -, hl, hr, hlt, hrt, -⟩ := exists_split he h (isMark_binary o) hd hs
  split at hrt
  · obtain ⟨f, hf, hft, -⟩ := exists_strip (p := .compl) hr hrt
    exact ⟨l, f, hl, hf, hlt, hft⟩
  · exact ⟨l, r, hl, hr, hlt, hrt⟩

/-- An expression that an operator joins at the root of its tree. -/
theorem eq_of_isRoot (he : e.WellFormed) (hl : l.WellFormed) (hr : r.WellFormed)
    (h : e.tokens = l.tokens ++ op.tokens ++ r.tokens) (hroot : op.IsRoot l r) :
    ∃ o, op.joins? = some o ∧ e = bin o l (if op = .andNot then pre .compl r else r) := by
  obtain ⟨o, ho, hleft, hright, hnone⟩ := hroot
  rw [VectorOp.tokens_of_joins? ho, List.append_assoc, List.cons_append] at h
  refine ⟨o, ho, eq_of_tokens_eq he ?_ ?_⟩
  · split
    · next hand => exact ⟨hl, ⟨hr, hnone hand⟩, hleft, fun _ hq => absurd hq List.not_mem_nil⟩
    · exact ⟨hl, hr, hleft, hright⟩
  · rw [h, tokens]
    split <;> rfl

/-- A split gives the value of an expression under every meaning of the operators exactly if it is
made at the root of the tree. -/
theorem forall_value_eq_iff (he : e.WellFormed) (hl : l.WellFormed) (hr : r.WellFormed)
    (h : e.tokens = l.tokens ++ op.tokens ++ r.tokens) :
    (∀ (α : Type) (A : Arithmetic α) (v : List String → α), op.GivesValue A v e l r) ↔
      op.IsRoot l r := by
  constructor
  · intro hvalue
    -- Where every expression is its own value, the value shows the root.
    have hself := hvalue Term free atom
    rw [VectorOp.GivesValue, value_free, value_free, value_free] at hself
    obtain ⟨o, ho, rfl⟩ := Option.map_eq_some_iff.mp hself
    obtain ⟨-, hright, hlevels, htight⟩ := he
    refine ⟨o, ho, hlevels, ?_, ?_⟩
    · split at htight
      · next hand =>
        rw [if_pos hand] at hright
        intro q hq
        rw [hright.2] at hq
        cases hq
      · exact htight
    · intro hand
      rw [if_pos hand] at hright
      exact hright.2
  · intro hroot α A v
    obtain ⟨o, ho, rfl⟩ := eq_of_isRoot he hl hr h hroot
    rw [VectorOp.GivesValue, VectorOp.result?, ho, Option.map_some, value]
    split <;> rfl

end Term

/-! ## Integers -/

/-- The integers: comparisons give zero or one, a quotient is rounded towards zero, and only what
stands at an address is left open. -/
def integers (stored : Int → Int) : Arithmetic Int where
  prefixed
    | .minus, x => -x
    | .not, x => if x = 0 then 1 else 0
    | .compl, x => Int.lnot x
    | .deref, x => stored x
  binary
    | .mul, x, y => x * y
    | .div, x, y => x.tdiv y
    | .mod, x, y => x.tmod y
    | .add, x, y => x + y
    | .sub, x, y => x - y
    | .shl, x, y => x * 2 ^ y.toNat
    | .shr, x, y => x / 2 ^ y.toNat
    | .lt, x, y => if x < y then 1 else 0
    | .gt, x, y => if y < x then 1 else 0
    | .le, x, y => if x ≤ y then 1 else 0
    | .ge, x, y => if y ≤ x then 1 else 0
    | .eq, x, y => if x = y then 1 else 0
    | .ne, x, y => if x = y then 0 else 1
    | .and, x, y => Int.land x y
    | .xor, x, y => Int.xor x y
    | .or, x, y => Int.lor x y
    | .both, x, y => if x = 0 ∨ y = 0 then 0 else 1
    | .either, x, y => if x = 0 ∧ y = 0 then 0 else 1

/-- Two operators for which it does not matter to integers which of them comes first, if the one
that stands first binds no less tightly. -/
def BinaryOp.Trades (o q : BinaryOp) : Prop := o = .add ∧ q = .sub ∨ o = .mul ∧ q = .shl

/-- Of two operators that can be traded, the first binds no less tightly. -/
theorem BinaryOp.Trades.level_le {o q : BinaryOp} (h : o.Trades q) : q.level ≤ o.level := by
  rcases h with ⟨rfl, rfl⟩ | ⟨rfl, rfl⟩ <;> decide

/-- Two operators that can be traded may be applied in either order. -/
theorem BinaryOp.Trades.integers_eq {o q : BinaryOp} (h : o.Trades q) (stored : Int → Int)
    (x y z : Int) :
    (integers stored).binary q ((integers stored).binary o x y) z =
      (integers stored).binary o x ((integers stored).binary q y z) := by
  rcases h with ⟨rfl, rfl⟩ | ⟨rfl, rfl⟩
  · exact Int.add_sub_assoc x y z
  · exact Int.mul_assoc x y _

/-- An operator can take an expression as its right operand: what is in it binds more tightly, or is
applied to such an expression and trades places with the operator. -/
inductive Term.Follows (o : BinaryOp) : Term → Prop
  | tight {r : Term} (h : ∀ q ∈ r.operators, o.level < q.level) : r.Follows o
  | trade {q : BinaryOp} {first second : Term} (hq : o.Trades q) (h : first.Follows o) :
      (Term.bin q first second).Follows o

/-- Joined to one expression, two expressions have for integers the value that the operator gives
them. -/
def VectorOp.Regroups (op : VectorOp) (l r : Term) : Prop :=
  ∃ o, op.joins? = some o ∧ op ≠ .andNot ∧ (∀ q ∈ l.operators, o.level ≤ q.level) ∧ r.Follows o

namespace Term

variable {e l r : Term} {op : VectorOp}

/-- The tree of an operator and a right operand with which it trades places. -/
theorem Follows.exists_tree {o : BinaryOp} (h : r.Follows o) (hl : l.WellFormed)
    (hr : r.WellFormed) (hleft : ∀ q ∈ l.operators, o.level ≤ q.level) :
    ∃ f : Term, f.WellFormed ∧ f.tokens = l.tokens ++ o.token :: r.tokens ∧
      f.operators = l.operators ++ o :: r.operators ∧
      ∀ stored v, f.value (integers stored) v =
        (integers stored).binary o (l.value (integers stored) v)
          (r.value (integers stored) v) := by
  induction h with
  | @tight r htight =>
    exact ⟨.bin o l r, ⟨hl, hr, hleft, htight⟩, rfl, rfl, fun _ _ => rfl⟩
  | @trade q first second hq _ ih =>
    obtain ⟨hfirst, hsecond, hlevels, htight⟩ := hr
    obtain ⟨f, hf, htokens, hoperators, hvalue⟩ := ih hfirst
    refine ⟨.bin q f second, ⟨hf, hsecond, ?_, htight⟩, ?_, ?_, ?_⟩
    · intro u hu
      rw [hoperators, List.mem_append, List.mem_cons] at hu
      rcases hu with hu | rfl | hu
      · exact Nat.le_trans hq.level_le (hleft u hu)
      · exact hq.level_le
      · exact hlevels u hu
    · rw [tokens, htokens, tokens, List.append_assoc, List.cons_append]
    · rw [operators, hoperators, operators, List.append_assoc, List.cons_append]
    · intro stored v
      rw [value, hvalue, hq.integers_eq]
      rfl

/-- An expression that regroups has for integers the value its classification gives. -/
theorem value_of_regroups (he : e.WellFormed) (hl : l.WellFormed) (hr : r.WellFormed)
    (h : e.tokens = l.tokens ++ op.tokens ++ r.tokens) (hregroups : op.Regroups l r)
    (stored : Int → Int) (v : List String → Int) : op.GivesValue (integers stored) v e l r := by
  obtain ⟨o, ho, hand, hleft, hfollows⟩ := hregroups
  obtain ⟨f, hf, hft, -, hvalue⟩ := hfollows.exists_tree hl hr hleft
  have hef : e = f := by
    refine eq_of_tokens_eq he hf ?_
    rw [h, hft, VectorOp.tokens_of_joins? ho, if_neg hand, List.append_assoc]
    rfl
  rw [VectorOp.GivesValue, hef, hvalue, VectorOp.result?, ho, if_neg hand]
  rfl

end Term

namespace Operands

/-- A binary expression comes from two operands. -/
theorem length_of_applied_eq_binary {op chosen : VectorOp} {tokens : List String}
    {parts : List (List String)} {lhs rhs : String}
    (h : applied chosen tokens parts = .binary op lhs rhs) : chosen = op ∧ parts.length = 2 := by
  unfold applied at h
  split at h
  · cases h
  · split at h
    · next hlength =>
      cases h
      exact ⟨rfl, hlength⟩
    · cases h
  · cases h

/-- An application to two operands was split in one place. -/
theorem exists_of_classify_binary {tokens : List String} {op : VectorOp} {lhs rhs : String}
    (h : (classify tokens).expr = .binary op lhs rhs) :
    (classify tokens).slots = 2 ∧ ∃ left right, tokens = left ++ op.tokens ++ right ∧
      lhs = renderExpr left ∧ rhs = renderExpr right ∧ Qualifies op tokens left.length := by
  cases hc : chosen? tokens with
  | none =>
    rw [classify_of_chosen?_eq_none hc] at h
    cases h
  | some chosen =>
    rw [classify_of_chosen?_eq_some hc] at h ⊢
    obtain ⟨rfl, hlength⟩ := length_of_applied_eq_binary h
    obtain ⟨left, right, hslots, htokens, hqualifies⟩ := exists_slots_eq hlength
    refine ⟨hlength, left, right, htokens, ?_⟩
    rw [hslots, htokens, applied_pair, joined] at h
    split at h
    · cases h
    · split at h
      · cases h
      · split at h
        · cases h
        · cases h
          exact ⟨rfl, rfl, hqualifies⟩

end Operands

/-- An expression that is split into two operands is split between two expressions, unless the
negation splits it: what stands before that is none. The split gives the value of the expression
under every meaning of the operators exactly if it is made at the root of the tree. Over the
integers it also does so if the operator trades places with those after it. -/
theorem classify_value {e : Term} (he : e.WellFormed) {op : VectorOp} {lhs rhs : String}
    (h : (classify e.tokens).expr = .binary op lhs rhs) :
    (classify e.tokens).slots = 2 ∧
      (∃ left right, e.tokens = left ++ op.tokens ++ right ∧ lhs = renderExpr left ∧
        rhs = renderExpr right ∧ (op = .neg → ∀ l : Term, l.WellFormed → l.tokens ≠ left) ∧
        (op ≠ .neg → ∃ l r : Term, l.WellFormed ∧ r.WellFormed ∧ l.tokens = left ∧
          r.tokens = right)) ∧
      ∀ l r : Term, l.WellFormed → r.WellFormed →
        e.tokens = l.tokens ++ op.tokens ++ r.tokens →
        ((∀ (α : Type) (A : Arithmetic α) (v : List String → α), op.GivesValue A v e l r) ↔
          op.IsRoot l r) ∧
        (op.IsRoot l r ∨ op.Regroups l r →
          ∀ stored v, op.GivesValue (integers stored) v e l r) := by
  obtain ⟨hslots, left, right, htokens, hlhs, hrhs, hplace⟩ := exists_of_classify_binary h
  rw [htokens, List.append_assoc] at hplace
  obtain ⟨hdepth, -, hjoins⟩ := qualifies_next_iff.mp hplace
  refine ⟨hslots, ⟨left, right, htokens, hlhs, hrhs, ?_, ?_⟩, ?_⟩
  · rintro rfl l hl hleft
    rw [List.append_assoc] at htokens
    obtain ⟨o, -, -, ho, -⟩ := Term.exists_split he htokens (isMark_prefixOp .compl) hdepth
      (hleft ▸ Term.startsOperand_getLast? hl)
    revert ho
    cases o <;> decide
  · intro hneg
    exact Term.exists_parts he hneg htokens hdepth (hjoins.resolve_left hneg)
  · intro l r hl hr hparts
    have hiff := Term.forall_value_eq_iff he hl hr hparts
    refine ⟨hiff, ?_⟩
    rintro (hroot | hregroups) stored v
    · exact hiff.mpr hroot Int (integers stored) v
    · exact Term.value_of_regroups he hl hr hparts hregroups stored v

/-- A member, to which the result of a call is added and from which a product in parentheses is
subtracted. -/
def balance : Term :=
  .bin .sub (.bin .add (.atom ["x", ".", "a"]) (.atom ["f", "(", "y", ",", "z", ")"]))
    (.atom ["(", "b", "*", "c", ")"])

/-- A sum whose second operand is a difference is classified with its value. -/
theorem classify_value_balance :
    balance.WellFormed ∧
      classify balance.tokens = ⟨.binary .add "x.a" "f(y, z) - (b * c)", 2⟩ ∧
      ∀ stored v, VectorOp.add.GivesValue (integers stored) v balance (.atom ["x", ".", "a"])
        (.bin .sub (.atom ["f", "(", "y", ",", "z", ")"]) (.atom ["(", "b", "*", "c", ")"])) := by
  have hmember : Atom ["x", ".", "a"] := .member (.word (by decide)) (by decide) (by decide)
  have hcall : Atom ["f", "(", "y", ",", "z", ")"] :=
    @Atom.call ["f"] ["y", ",", "z"] (.word (by decide)) (by decide)
  have hparen : Atom ["(", "b", "*", "c", ")"] :=
    @Term.atom_paren (.bin .mul (.atom ["b"]) (.atom ["c"]))
      ⟨.word (by decide), .word (by decide), by decide, by decide⟩
  have hformed : balance.WellFormed :=
    ⟨⟨hmember, hcall, by decide, by decide⟩, hparen, by decide, by decide⟩
  have hclassify : classify balance.tokens = ⟨.binary .add "x.a" "f(y, z) - (b * c)", 2⟩ := by
    decide +kernel
  have hvalue := (classify_value hformed (congrArg Classified.expr hclassify)).2.2
    (.atom ["x", ".", "a"])
    (.bin .sub (.atom ["f", "(", "y", ",", "z", ")"]) (.atom ["(", "b", "*", "c", ")"]))
    hmember ⟨hcall, hparen, by decide, by decide⟩ rfl
  refine ⟨hformed, hclassify, hvalue.2 (Or.inr ⟨.add, rfl, by decide, by decide, ?_⟩)⟩
  exact .trade (Or.inl ⟨rfl, rfl⟩) (.tight (by decide))

/-- A sum is split off a comparison, although it binds more tightly. -/
theorem classify_value_comparison :
    ∃ e l r : Term, e.WellFormed ∧ l.WellFormed ∧ r.WellFormed ∧
      e.tokens = ["a", "==", "b", "+", "c"] ∧ l.tokens = ["a", "==", "b"] ∧ r.tokens = ["c"] ∧
      classify e.tokens = ⟨.binary .add "a == b" "c", 2⟩ ∧
      ¬∀ stored v, VectorOp.add.GivesValue (integers stored) v e l r := by
  have ha : Atom ["a"] := .word (by decide)
  have hb : Atom ["b"] := .word (by decide)
  have hc : Atom ["c"] := .word (by decide)
  refine ⟨.bin .eq (.atom ["a"]) (.bin .add (.atom ["b"]) (.atom ["c"])),
    .bin .eq (.atom ["a"]) (.atom ["b"]), .atom ["c"],
    ⟨ha, ⟨hb, hc, by decide, by decide⟩, by decide, by decide⟩, ⟨ha, hb, by decide, by decide⟩, hc,
    rfl, rfl, rfl, by decide +kernel, ?_⟩
  -- `3 == 1 + 2` holds, while `(3 == 1) + 2` is two.
  intro hall
  have hvalue := hall id fun ts => if ts = ["a"] then 3 else if ts = ["b"] then 1 else 2
  revert hvalue
  rw [VectorOp.GivesValue]
  decide

end VertexLanes
