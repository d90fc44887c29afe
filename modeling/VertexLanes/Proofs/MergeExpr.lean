import VertexLanes.Operator.Pairwise
import VertexLanes.Proofs.Precedence
import VertexLanes.Token.Lexer

/-!
# Expressions over two messages

What a statement that merges two messages may assign: an expression over their
fields, with a value for all values of these. A reduction is looked for in the
text of the expression; the search finds the operators of the tree, and operators
that a spelling is a part of. An expression that gives a reduction of a field
reads the field in both messages, and if it has a single operator, it is this
reduction.
-/

namespace VertexLanes

/-! ## Reductions of integers -/

namespace PairwiseOp

/-- The reduction of two integers. -/
def apply : PairwiseOp → Int → Int → Int
  | .min, x, y => if x ≤ y then x else y
  | .max, x, y => if x ≤ y then y else x
  | .or, x, y => Int.lor x y
  | .and, x, y => Int.land x y
  | .add, x, y => x + y
  | .mul, x, y => x * y

theorem apply_comm (op : PairwiseOp) (x y : Int) : op.apply x y = op.apply y x := by
  cases op with
  | min => simp only [apply]; split <;> split <;> omega
  | max => simp only [apply]; split <;> split <;> omega
  | or => cases x <;> cases y <;> simp [apply, Int.lor, Nat.lor_comm, Nat.land_comm]
  | and => cases x <;> cases y <;> simp [apply, Int.land, Nat.lor_comm, Nat.land_comm]
  | add => exact Int.add_comm x y
  | mul => exact Int.mul_comm x y

/-- Every reduction tells zero and one apart beside some value. -/
theorem exists_unit (op : PairwiseOp) : ∃ y, op.apply 0 y = 0 ∧ op.apply 1 y = 1 := by
  cases op with
  | min => exact ⟨1, by decide⟩
  | max => exact ⟨0, by decide⟩
  | or => exact ⟨0, by decide⟩
  | and => exact ⟨1, by decide⟩
  | add => exact ⟨0, by decide⟩
  | mul => exact ⟨1, by decide⟩

end PairwiseOp

/-! ## Spellings in tokens -/

/-- A pattern occurs in a text if it is an infix of it. -/
theorem Text.occursIn_iff {pattern text : List Char} :
    Text.occursIn pattern text = true ↔ pattern <:+: text := by
  induction text with
  | nil => rw [Text.occursIn, List.isEmpty_iff, List.infix_nil]
  | cons c text ih =>
    rw [Text.occursIn, Bool.or_eq_true, List.isPrefixOf_iff_prefix, ih, List.infix_cons_iff]

/-- A pattern does not lie across a boundary where a character on either side has no place in it. -/
theorem Text.infix_append_iff_of_boundary {pattern a b : List Char}
    (h : (∀ c ∈ a.getLast?, c ∉ pattern.dropLast) ∨ ∀ c ∈ b.head?, c ∉ pattern.tail) :
    pattern <:+: a ++ b ↔ pattern <:+: a ∨ pattern <:+: b := by
  rw [List.infix_append_iff]
  refine ⟨?_, fun hab => hab.imp_right Or.inl⟩
  rintro (ha | hb | ⟨first, second, rfl, hfirst, hsecond⟩)
  · exact .inl ha
  · exact .inr hb
  rcases List.eq_nil_or_concat first with rfl | ⟨first, d, rfl⟩
  · exact .inr hsecond.isInfix
  cases second with
  | nil => exact .inl (by simpa using hfirst.isInfix)
  | cons c second =>
    exfalso
    rcases h with h | h
    · obtain ⟨before, rfl⟩ := hfirst
      refine h d (by simp) ?_
      rw [List.dropLast_append_of_ne_nil (List.cons_ne_nil c second)]
      simp
    · obtain ⟨after, rfl⟩ := hsecond
      refine h c rfl ?_
      rw [List.tail_append_of_ne_nil (by simp)]
      simp

namespace PairwiseOp

/-- Whether the spelling of a reduction occurs in tokens that are written without blanks. -/
def occursIn (op : PairwiseOp) (tokens : List String) : Bool :=
  Text.occursIn op.spelling.toList (String.join tokens).toList

/-- A reduction occurs in some tokens if its spelling is an infix of their characters. -/
theorem occursIn_iff {op : PairwiseOp} {tokens : List String} :
    op.occursIn tokens = true ↔ op.spelling.toList <:+: tokens.flatMap String.toList := by
  rw [occursIn, Text.occursIn_iff, String.toList_join]

/-- Whether the spelling of a reduction cannot lie across the beginning or the end of a token. -/
def separates (op : PairwiseOp) (mark : String) : Bool :=
  mark.toList.head?.any (fun c => !op.spelling.toList.tail.contains c) &&
    mark.toList.getLast?.any (fun c => !op.spelling.toList.dropLast.contains c)

/-- At a mark that separates, a reduction occurs before it, in it or behind it. -/
theorem occursIn_append_mark {op : PairwiseOp} {mark : String} (h : op.separates mark = true)
    (ts us : List String) :
    op.occursIn (ts ++ mark :: us) =
      (op.occursIn ts || (op.occursIn [mark] || op.occursIn us)) := by
  obtain ⟨hfirst, hlast⟩ := Bool.and_eq_true_iff.mp h
  obtain ⟨first, hhead, hfirst⟩ := (Option.any_eq_true _ _).mp hfirst
  obtain ⟨last, htail, hlast⟩ := (Option.any_eq_true _ _).mp hlast
  have hbefore : ∀ c ∈ (mark.toList ++ us.flatMap String.toList).head?,
      c ∉ op.spelling.toList.tail := by
    intro c hc
    rw [List.head?_append, hhead, Option.some_or] at hc
    obtain rfl := Option.mem_some_iff.mp hc
    simpa using hfirst
  have hbehind : ∀ c ∈ mark.toList.getLast?, c ∉ op.spelling.toList.dropLast := by
    intro c hc
    rw [htail] at hc
    obtain rfl := Option.mem_some_iff.mp hc
    simpa using hlast
  rw [Bool.eq_iff_iff, Bool.or_eq_true, Bool.or_eq_true, occursIn_iff, occursIn_iff, occursIn_iff,
    occursIn_iff, List.flatMap_append, List.flatMap_cons,
    Text.infix_append_iff_of_boundary (.inr hbefore),
    Text.infix_append_iff_of_boundary (.inl hbehind), List.flatMap_singleton]

/-- A character that may stand in the name of a field and of its message. -/
def isPlain (c : Char) : Bool := Lexer.isWordRest c || ['.', '-', '>'].contains c

/-- No reduction occurs in names of fields. -/
theorem occursIn_eq_false (op : PairwiseOp) {tokens : List String}
    (h : ∀ c ∈ tokens.flatMap String.toList, isPlain c = true) : op.occursIn tokens = false := by
  have hsome : op.spelling.toList.all isPlain = false := by
    cases op <;> decide
  rw [Bool.eq_false_iff, Ne, occursIn_iff]
  intro hoccurs
  rw [List.all_eq_true.mpr fun c hc => h c (hoccurs.subset hc)] at hsome
  cases hsome

end PairwiseOp

/-! ## Expressions over two messages -/

/-- The two messages of an accumulation. -/
inductive Owner where
  | own | other
deriving DecidableEq, Repr

/-- A way to name a field of one of the messages. -/
inductive FieldAccess where
  /-- The name alone. -/
  | plain
  /-- Through a pointer to the object itself. -/
  | this
  /-- A member of the parameter. -/
  | other
deriving DecidableEq, Repr

namespace FieldAccess

/-- The message whose field is named. -/
def owner : FieldAccess → Owner
  | .plain | .this => .own
  | .other => .other

/-- The tokens in front of the name of the field. -/
def lead : FieldAccess → List String
  | .plain => []
  | .this => ["this", "->"]
  | .other => ["other", "."]

end FieldAccess

/-- A library call that gives the least or the greatest of two values. -/
inductive Extremum where
  | min | max
deriving DecidableEq, Repr

namespace Extremum

/-- The reduction that an extremum is. -/
def reduction : Extremum → PairwiseOp
  | .min => .min
  | .max => .max

/-- The name of the call. -/
def name : Extremum → String
  | .min => "min"
  | .max => "max"

end Extremum

/-- The reduction that a binary operator is. -/
def BinaryOp.reduction? : BinaryOp → Option PairwiseOp
  | .mul => some .mul
  | .add => some .add
  | .and => some .and
  | .or => some .or
  | _ => none

/-- An expression over the fields of two messages. -/
inductive MergeExpr where
  /-- A field of a message, or another name. -/
  | field (access : FieldAccess) (name : String)
  /-- A literal. -/
  | number (n : Nat)
  /-- Any other operand without operators outside brackets. -/
  | operand (tokens : List String)
  /-- An expression in parentheses. -/
  | group (inner : MergeExpr)
  /-- The least or the greatest of two values. -/
  | extremum (kind : Extremum) (left right : MergeExpr)
  /-- A prefix operator and its operand. -/
  | pre (op : PrefixOp) (inner : MergeExpr)
  /-- A binary operator and its operands. -/
  | bin (op : BinaryOp) (left right : MergeExpr)
deriving DecidableEq, Repr

/-- The values of the fields of both messages. -/
abbrev Messages := Owner → String → Int

/-- What an accumulation takes from outside the messages. -/
structure Surroundings where
  /-- What stands at an address. -/
  stored : Int → Int
  /-- The value of an operand that is neither a field nor a literal; it may depend on the
  messages. -/
  operand : List String → Messages → Int

namespace MergeExpr

/-- The tokens of an expression. -/
def tokens : MergeExpr → List String
  | .field access name => access.lead ++ [name]
  | .number n => [toString n]
  | .operand ts => ts
  | .group e => "(" :: (e.tokens ++ [")"])
  | .extremum kind l r =>
    "std" :: "::" :: kind.name :: "(" :: (l.tokens ++ "," :: (r.tokens ++ [")"]))
  | .pre p e => p.token :: e.tokens
  | .bin o l r => l.tokens ++ o.token :: r.tokens

/-- How tightly the outermost operator of an expression binds. -/
def rank : MergeExpr → Nat
  | .bin o _ _ => o.level
  | .pre _ _ => 11
  | _ => 12

/-- The operators are grouped by how tightly they bind, and names are words. -/
def WellFormed : MergeExpr → Prop
  | .field _ name => name.toList.all Lexer.isWordRest = true
  | .number _ => True
  | .operand ts => Operands.Atom ts
  | .group e => e.WellFormed
  | .extremum _ l r => l.WellFormed ∧ r.WellFormed
  | .pre _ e => e.WellFormed ∧ 11 ≤ e.rank
  | .bin o l r => l.WellFormed ∧ r.WellFormed ∧ o.level ≤ l.rank ∧ o.level < r.rank

/-- The value of an expression. -/
def value (s : Surroundings) (m : Messages) : MergeExpr → Int
  | .field access name => m access.owner name
  | .number n => n
  | .operand ts => s.operand ts m
  | .group e => e.value s m
  | .extremum kind l r => kind.reduction.apply (l.value s m) (r.value s m)
  | .pre p e => (integers s.stored).prefixed p (e.value s m)
  | .bin o l r => (integers s.stored).binary o (l.value s m) (r.value s m)

/-- Whether the spelling of a reduction occurs in an expression: as one of its operators, as part of
one, or in an operand. -/
def uses (op : PairwiseOp) : MergeExpr → Bool
  | .field _ _ => false
  | .number _ => false
  | .operand ts => op.occursIn ts
  | .group e => e.uses op
  | .extremum kind l r => kind.reduction == op || (l.uses op || r.uses op)
  | .pre p e => op.occursIn [p.token] || e.uses op
  | .bin o l r => l.uses op || (op.occursIn [o.token] || r.uses op)

end MergeExpr

/-! ## The reduction that is found -/

namespace PairwiseOp

private theorem separates_binary (op : PairwiseOp) (o : BinaryOp) :
    op.separates o.token = true := by
  cases op <;> cases o <;> rfl

private theorem separates_prefixOp (op : PairwiseOp) (p : PrefixOp) :
    op.separates p.token = true := by
  cases op <;> cases p <;> rfl

/-- In the name of a library function the reduction occurs that it computes, and no other. -/
theorem occursIn_extremum (op : PairwiseOp) (kind : Extremum) :
    op.occursIn ["std", "::", kind.name] = (kind.reduction == op) := by
  cases op <;> cases kind <;> rfl

/-- In the sign of a reducing operator its own reduction occurs, and no other. -/
theorem occursIn_reduction {o : BinaryOp} {q : PairwiseOp} (h : o.reduction? = some q)
    (op : PairwiseOp) : op.occursIn [o.token] = (q == op) := by
  cases o <;> cases h <;> cases op <;> rfl

/-- A reduction that is the only one to occur is found. -/
theorem find?_beq (op : PairwiseOp) : all.find? (fun q => op == q) = some op := by
  cases op <;> rfl

private theorem occursIn_nil (op : PairwiseOp) : op.occursIn [] = false := by
  cases op <;> rfl

/-- A parenthesis or a comma belongs to no spelling. -/
theorem occursIn_append_punctuation (op : PairwiseOp) {mark : String} (h : mark ∈ ["(", ",", ")"])
    (ts us : List String) :
    op.occursIn (ts ++ mark :: us) = (op.occursIn ts || op.occursIn us) := by
  have hmark : op.separates mark = true ∧ op.occursIn [mark] = false := by
    simp only [List.mem_cons, List.not_mem_nil, or_false] at h
    rcases h with rfl | rfl | rfl <;> cases op <;> exact ⟨rfl, rfl⟩
  rw [occursIn_append_mark hmark.1, hmark.2, Bool.false_or]

end PairwiseOp

namespace MergeExpr

variable {e : MergeExpr}

/-- The search in the text finds what the tree uses. -/
theorem occursIn_tokens (he : e.WellFormed) (op : PairwiseOp) :
    op.occursIn e.tokens = e.uses op := by
  induction e with
  | field access name =>
    refine op.occursIn_eq_false fun c hc => ?_
    rw [tokens, List.flatMap_append, List.flatMap_singleton, List.mem_append] at hc
    rcases hc with hlead | hname
    · have hall : (access.lead.flatMap String.toList).all PairwiseOp.isPlain = true := by
        cases access <;> rfl
      exact List.all_eq_true.mp hall c hlead
    · exact Bool.or_eq_true_iff.mpr (.inl (List.all_eq_true.mp he c hname))
  | number n =>
    refine op.occursIn_eq_false fun c hc => ?_
    rw [tokens, List.flatMap_singleton] at hc
    have hdigit : c.isDigit = true := by
      refine Nat.isDigit_of_mem_toDigits (b := 10) (n := n) (by decide) (by decide) ?_
      rw [← Nat.toList_repr]
      exact hc
    simp [PairwiseOp.isPlain, Lexer.isWordRest, Char.isAlphanum, hdigit]
  | operand ts => rfl
  | group e ih =>
    rw [tokens, ← List.nil_append ("(" :: _), op.occursIn_append_punctuation (by simp),
      op.occursIn_append_punctuation (by simp), op.occursIn_nil, ih he, Bool.or_false,
      Bool.false_or, uses]
  | extremum kind l r ihLeft ihRight =>
    have hsplit : (extremum kind l r).tokens =
        ["std", "::", kind.name] ++ "(" :: (l.tokens ++ "," :: (r.tokens ++ [")"])) := rfl
    rw [hsplit, op.occursIn_append_punctuation (by simp), op.occursIn_append_punctuation (by simp),
      op.occursIn_append_punctuation (by simp), op.occursIn_nil, op.occursIn_extremum, ihLeft he.1,
      ihRight he.2, Bool.or_false, uses]
  | pre p e ih =>
    rw [tokens, ← List.nil_append (p.token :: _),
      PairwiseOp.occursIn_append_mark (op.separates_prefixOp p), op.occursIn_nil, ih he.1,
      Bool.false_or, uses]
  | bin o l r ihLeft ihRight =>
    rw [tokens, PairwiseOp.occursIn_append_mark (op.separates_binary o), ihLeft he.1,
      ihRight he.2.1, uses]

/-! ## Fields that are read -/

/-- Whether a field is named in an expression. -/
def mentions (owner : Owner) (name : String) : MergeExpr → Bool
  | .field access other => access.owner == owner && other == name
  | .number _ => false
  | .operand _ => false
  | .group e => e.mentions owner name
  | .extremum _ l r => l.mentions owner name || r.mentions owner name
  | .pre _ e => e.mentions owner name
  | .bin _ l r => l.mentions owner name || r.mentions owner name

/-- Whether an expression is made of fields and literals only. -/
def isClosed : MergeExpr → Bool
  | .field _ _ => true
  | .number _ => true
  | .operand _ => false
  | .group e => e.isClosed
  | .extremum _ l r => l.isClosed && r.isClosed
  | .pre _ e => e.isClosed
  | .bin _ l r => l.isClosed && r.isClosed

/-- The value of an expression depends on the fields that it mentions. -/
theorem value_congr (s : Surroundings) {m m' : Messages} (he : e.isClosed = true)
    (h : ∀ owner name, e.mentions owner name = true → m owner name = m' owner name) :
    e.value s m = e.value s m' := by
  induction e with
  | field access name => exact h access.owner name (by simp [mentions])
  | number n => rfl
  | operand ts => cases he
  | group e ih => exact ih he h
  | extremum kind l r ihLeft ihRight =>
    obtain ⟨hl, hr⟩ := Bool.and_eq_true_iff.mp he
    rw [value, value, ihLeft hl fun o f hof => h o f (Bool.or_eq_true_iff.mpr (.inl hof)),
      ihRight hr fun o f hof => h o f (Bool.or_eq_true_iff.mpr (.inr hof))]
  | pre p e ih => rw [value, value, ih he h]
  | bin o l r ihLeft ihRight =>
    obtain ⟨hl, hr⟩ := Bool.and_eq_true_iff.mp he
    rw [value, value, ihLeft hl fun o f hof => h o f (Bool.or_eq_true_iff.mpr (.inl hof)),
      ihRight hr fun o f hof => h o f (Bool.or_eq_true_iff.mpr (.inr hof))]

/-- An expression gives the reduction of a field of the two messages. -/
def Keeps (s : Surroundings) (op : PairwiseOp) (field : String) (e : MergeExpr) : Prop :=
  ∀ m : Messages, e.value s m = op.apply (m .own field) (m .other field)

/-- What gives the reduction of a field reads it in both messages. -/
theorem Keeps.mentions {s : Surroundings} {op : PairwiseOp} {field : String}
    (h : e.Keeps s op field) (he : e.isClosed = true) (owner : Owner) :
    e.mentions owner field = true := by
  by_contra hnot
  obtain ⟨y, hzero, hone⟩ := op.exists_unit
  -- Two pairs of messages that differ only in the field that is not read.
  let messages (x : Int) : Messages := fun o f => if o = owner ∧ f = field then x else y
  have hsame : e.value s (messages 0) = e.value s (messages 1) := by
    refine value_congr s he fun o f hof => ?_
    have hother : ¬(o = owner ∧ f = field) := by
      rintro ⟨rfl, rfl⟩
      exact hnot hof
    simp only [messages, if_neg hother]
  rw [h, h] at hsame
  cases owner with
  | own =>
    simp [messages, hzero, hone] at hsame
  | other =>
    simp [messages, op.apply_comm y, hzero, hone] at hsame

/-! ## Reductions of one field -/

/-- The field that an expression without operators reads. -/
def reads? : MergeExpr → Option (Owner × String)
  | .field access name => some (access.owner, name)
  | .group e => e.reads?
  | _ => none

/-- The reduction at the root of an expression, with its operands. -/
def merges? : MergeExpr → Option (PairwiseOp × MergeExpr × MergeExpr)
  | .group e => e.merges?
  | .extremum kind l r => some (kind.reduction, l, r)
  | .bin o l r => o.reduction?.map fun op => (op, l, r)
  | _ => none

/-- Two operands read a field of the two messages, in either order. -/
def ReadBoth (field : String) (l r : MergeExpr) : Prop :=
  l.reads? = some (.own, field) ∧ r.reads? = some (.other, field) ∨
    l.reads? = some (.other, field) ∧ r.reads? = some (.own, field)

/-- An expression is a reduction of a field of the two messages. -/
def Reduces (op : PairwiseOp) (field : String) (e : MergeExpr) : Prop :=
  ∃ l r, e.merges? = some (op, l, r) ∧ ReadBoth field l r

/-- Whether an expression is a field or a literal. -/
def isLeaf : MergeExpr → Bool
  | .field _ _ => true
  | .number _ => true
  | .group e => e.isLeaf
  | _ => false

/-- Whether an expression is one operator, or one call, between fields or literals. -/
def isSingle : MergeExpr → Bool
  | .group e => e.isSingle
  | .extremum _ l r => l.isLeaf && r.isLeaf
  | .bin _ l r => l.isLeaf && r.isLeaf
  | _ => false

section
variable {owner : Owner} {field : String} {op : PairwiseOp} {l r : MergeExpr}

private theorem isLeaf_of_reads? (h : e.reads? = some (owner, field)) : e.isLeaf = true := by
  induction e with
  | field => rfl
  | group e ih => exact ih h
  | _ => cases h

/-- What reads a field has its value. -/
theorem value_of_reads? (h : e.reads? = some (owner, field)) (s : Surroundings) (m : Messages) :
    e.value s m = m owner field := by
  induction e with
  | field access name =>
    cases h
    rfl
  | group e ih => exact ih h
  | _ => cases h

/-- A leaf that mentions a field reads it. -/
theorem reads?_of_mentions (h : e.isLeaf = true) (hm : e.mentions owner field = true) :
    e.reads? = some (owner, field) := by
  induction e with
  | field access name =>
    obtain ⟨howner, hname⟩ := Bool.and_eq_true_iff.mp hm
    rw [reads?, eq_of_beq howner, eq_of_beq hname]
  | number => cases hm
  | group e ih => exact ih h hm
  | _ => cases h

private theorem isClosed_of_isLeaf (h : e.isLeaf = true) : e.isClosed = true := by
  induction e with
  | field => rfl
  | number => rfl
  | group e ih => exact ih h
  | _ => cases h

theorem uses_of_isLeaf (h : e.isLeaf = true) (op : PairwiseOp) : e.uses op = false := by
  induction e with
  | field => rfl
  | number => rfl
  | group e ih => exact ih h
  | _ => cases h

/-- A call between fields or literals uses the reduction that it is. -/
theorem uses_extremum (kind : Extremum) (hl : l.isLeaf = true) (hr : r.isLeaf = true)
    (op : PairwiseOp) : (extremum kind l r).uses op = (kind.reduction == op) := by
  rw [uses, uses_of_isLeaf hl, uses_of_isLeaf hr, Bool.or_false, Bool.or_false]

/-- An operator between fields or literals uses what is spelled in it. -/
theorem uses_bin (o : BinaryOp) (hl : l.isLeaf = true) (hr : r.isLeaf = true) (op : PairwiseOp) :
    (bin o l r).uses op = op.occursIn [o.token] := by
  rw [uses, uses_of_isLeaf hl, uses_of_isLeaf hr, Bool.or_false, Bool.false_or]

private theorem isClosed_of_isSingle (h : e.isSingle = true) : e.isClosed = true := by
  induction e with
  | group e ih => exact ih h
  | extremum kind l r =>
    obtain ⟨hl, hr⟩ := Bool.and_eq_true_iff.mp h
    exact Bool.and_eq_true_iff.mpr ⟨isClosed_of_isLeaf hl, isClosed_of_isLeaf hr⟩
  | bin o l r =>
    obtain ⟨hl, hr⟩ := Bool.and_eq_true_iff.mp h
    exact Bool.and_eq_true_iff.mpr ⟨isClosed_of_isLeaf hl, isClosed_of_isLeaf hr⟩
  | _ => cases h

theorem ReadBoth.isLeaf (h : ReadBoth field l r) : l.isLeaf = true ∧ r.isLeaf = true := by
  rcases h with ⟨hl, hr⟩ | ⟨hl, hr⟩ <;> exact ⟨isLeaf_of_reads? hl, isLeaf_of_reads? hr⟩

/-- Two operands that name a field of both messages read one of them each. -/
theorem readBoth_of_mentions (hl : l.isLeaf = true) (hr : r.isLeaf = true)
    (h : ∀ owner, (l.mentions owner field || r.mentions owner field) = true) :
    ReadBoth field l r := by
  rcases Bool.or_eq_true_iff.mp (h .own) with hown | hown <;>
    rcases Bool.or_eq_true_iff.mp (h .other) with hother | hother
  · cases (reads?_of_mentions hl hown).symm.trans (reads?_of_mentions hl hother)
  · exact .inl ⟨reads?_of_mentions hl hown, reads?_of_mentions hr hother⟩
  · exact .inr ⟨reads?_of_mentions hl hother, reads?_of_mentions hr hown⟩
  · cases (reads?_of_mentions hr hown).symm.trans (reads?_of_mentions hr hother)

/-- An expression that merges two others has the value of the reduction on theirs. -/
theorem value_of_merges? (h : e.merges? = some (op, l, r)) (s : Surroundings) (m : Messages) :
    e.value s m = op.apply (l.value s m) (r.value s m) := by
  induction e with
  | group e ih => exact ih h
  | extremum kind l r =>
    cases h
    rfl
  | bin o l r =>
    obtain ⟨q, hq, hparts⟩ := Option.map_eq_some_iff.mp h
    cases hparts
    cases o <;> cases hq <;> rfl
  | _ => cases h

/-- A reduction of a field gives the reduction of its values. -/
theorem Reduces.keeps (h : e.Reduces op field) (s : Surroundings) : e.Keeps s op field := by
  intro m
  obtain ⟨l, r, hroot, ⟨hl, hr⟩ | ⟨hl, hr⟩⟩ := h
  · rw [value_of_merges? hroot, value_of_reads? hl, value_of_reads? hr]
  · rw [value_of_merges? hroot, value_of_reads? hl, value_of_reads? hr, op.apply_comm]

/-- A reduction of a field is a single operator or call, and uses no other reduction. -/
theorem Reduces.isSingle_and_uses (h : e.Reduces op field) :
    e.isSingle = true ∧ ∀ q : PairwiseOp, e.uses q = (op == q) := by
  obtain ⟨l, r, hroot, hreads⟩ := h
  obtain ⟨hl, hr⟩ := hreads.isLeaf
  have hleaves : (l.isLeaf && r.isLeaf) = true := Bool.and_eq_true_iff.mpr ⟨hl, hr⟩
  induction e with
  | group e ih => exact ih hroot
  | extremum kind =>
    cases hroot
    exact ⟨hleaves, uses_extremum kind hl hr⟩
  | bin o =>
    obtain ⟨p, hp, hparts⟩ := Option.map_eq_some_iff.mp hroot
    cases hparts
    exact ⟨hleaves, fun q => by rw [uses_bin o hl hr, PairwiseOp.occursIn_reduction hp]⟩
  | _ => cases hroot

end

end MergeExpr

/-- The reductions whose spelling is a part of an operator. -/
theorem BinaryOp.eq_of_find? {o : BinaryOp} {op : PairwiseOp}
    (h : PairwiseOp.all.find? (fun q => q.occursIn [o.token]) = some op) :
    o.reduction? = some op ∨ o = .both ∧ op = .and ∨ o = .either ∧ op = .or := by
  revert h
  cases o <;> cases op <;> decide

/-- One operator or call gives the reduction of a field that is found in it exactly if it is this
reduction of the field of both messages. -/
theorem MergeExpr.keeps_iff_reduces {e : MergeExpr} {op : PairwiseOp} {field : String}
    (s : Surroundings) (he : e.isSingle = true)
    (hop : PairwiseOp.all.find? (fun q => e.uses q) = some op) :
    e.Keeps s op field ↔ e.Reduces op field := by
  refine ⟨fun hkeeps => ?_, fun hreduces => hreduces.keeps s⟩
  have hmentions := hkeeps.mentions (isClosed_of_isSingle he)
  induction e with
  | group e ih => exact ih he hop hkeeps hmentions
  | extremum kind l r =>
    obtain ⟨hl, hr⟩ := Bool.and_eq_true_iff.mp he
    simp only [uses_extremum kind hl hr] at hop
    have hkind : kind.reduction = op := eq_of_beq (List.find?_some hop)
    exact ⟨l, r, by rw [merges?, hkind], readBoth_of_mentions hl hr hmentions⟩
  | bin o l r =>
    obtain ⟨hl, hr⟩ := Bool.and_eq_true_iff.mp he
    have hreads := readBoth_of_mentions hl hr hmentions
    have htwo : (integers s.stored).binary o 2 2 = op.apply 2 2 := by
      have hvalue := hkeeps fun _ _ => 2
      rcases hreads with ⟨hown, hother⟩ | ⟨hother, hown⟩ <;>
        rwa [value, value_of_reads? hown, value_of_reads? hother] at hvalue
    simp only [uses_bin o hl hr] at hop
    rcases BinaryOp.eq_of_find? hop with hroot | ⟨rfl, rfl⟩ | ⟨rfl, rfl⟩
    · exact ⟨l, r, by rw [merges?, hroot]; rfl, hreads⟩
    -- A connective of truth values gives one where the reduction of two and two is two.
    · cases htwo
    · cases htwo
  | _ => cases he

end VertexLanes
