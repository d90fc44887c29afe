import Mathlib.Data.List.Basic
import VertexLanes.Proofs.Annotation
import VertexLanes.Proofs.BlockReading
import VertexLanes.Proofs.ClassReading
import VertexLanes.Proofs.SendShape

/-!
# Data members from source to class

The body of a class may be a sequence of declarations, each with a type and one or
more declarators. What is kept of a declaration is one field. It is named by the
first declarator that has a value, or by the last one if none has, and everything
in front of that name is taken for its type. So a class has one field for each
declaration, and these are the declared ones exactly if every declaration has one
declarator.
-/

namespace VertexLanes

open VertexLanes.Cursor VertexLanes.Parser

/-! ## Declarations -/

/-- The lexemes of a type outside all template arguments: names, `::`, `*` and `&`. -/
def inType : Lexeme → Bool
  | .ident _ | .symbol .scope | .symbol .star | .symbol .amp => true
  | _ => false

/-- The number of template argument lists that are open after some lexemes of a type, none if the
lexemes are no part of one. Between angle brackets stands what can stand in the head of a member. -/
def typeDepth : Nat → List Lexeme → Option Nat
  | depth, [] => some depth
  | depth, l :: ls =>
    if l = .symbol .lt then typeDepth (depth + 1) ls
    else if l = .symbol .gt then if depth = 0 then none else typeDepth (depth - 1) ls
    else if l = .symbol .shr then if depth < 2 then none else typeDepth (depth - 2) ls
    else if inType l || (depth != 0 && inHead l) then typeDepth depth ls
    else none

/-- The type of a declaration. -/
structure TypeName where
  /-- The lexemes of the type. -/
  lexemes : List Lexeme
  ne_nil : lexemes ≠ []
  /-- All template argument lists are closed. -/
  closed : typeDepth 0 lexemes = some 0

/-- The value of a data member. -/
structure Initializer where
  /-- The lexemes of the value. -/
  lexemes : List Lexeme
  /-- They can stand before a semicolon. -/
  clause : Clause lexemes
  /-- Their brackets balance, and no comma stands outside all of them. -/
  undivided : CallArgument lexemes

/-- A declared name, with or without a value. -/
structure Declarator where
  /-- The name. -/
  name : String
  /-- The value behind the `=`, if there is one. -/
  value : Option Initializer

/-- A declaration of data members. -/
structure Declaration where
  /-- The type. -/
  type : TypeName
  /-- The first declarator. -/
  first : Declarator
  /-- The declarators after the first, in order. -/
  others : List Declarator

namespace Declarator

/-- The lexemes of a declarator. -/
def lexemes (x : Declarator) : List Lexeme :=
  .ident x.name :: (x.value.map fun v => .symbol .eq :: v.lexemes).getD []

/-- The lexemes of some declarators, each after a comma. -/
def further (xs : List Declarator) : List Lexeme := xs.flatMap fun x => .symbol .comma :: x.lexemes

/-- The field that a declarator declares, given the lexemes of the type. -/
def field (type : List Lexeme) (x : Declarator) : Field :=
  ⟨x.name, typeText type, x.value.map fun v => tightText v.lexemes⟩

/-- The field that is found where some declarators stand behind the lexemes of a type: that of the
first one with a value or of the last one, with all that stands before it as the type. -/
def found (type : List Lexeme) (x : Declarator) : List Declarator → Field
  | [] => x.field type
  | y :: ys =>
    if x.value.isSome then x.field type
    else found (type ++ [.ident x.name, .symbol .comma]) y ys

end Declarator

namespace Declaration

/-- The lexemes of a declaration. -/
def lexemes (d : Declaration) : List Lexeme :=
  d.type.lexemes ++ (d.first.lexemes ++ Declarator.further d.others ++ [.symbol .semicolon])

/-- The fields that a declaration declares, one for each declarator. -/
def declared (d : Declaration) : List Field :=
  (d.first :: d.others).map (Declarator.field d.type.lexemes)

/-- The field that is found for a declaration. -/
def found (d : Declaration) : Field := d.first.found d.type.lexemes d.others

end Declaration

/-- A type outside angle brackets is made of names, scopes, stars and references. -/
theorem inType_cases {l : Lexeme} (h : inType l = true) :
    (∃ name, l = .ident name) ∨ l = .symbol .scope ∨ l = .symbol .star ∨ l = .symbol .amp := by
  unfold inType at h
  split at h
  · exact Or.inl ⟨_, rfl⟩
  · exact Or.inr (Or.inl rfl)
  · exact Or.inr (Or.inr (Or.inl rfl))
  · exact Or.inr (Or.inr (Or.inr rfl))
  · cases h

/-- What a lexeme of a type can be, and that the lexemes after it are again part of one. -/
theorem typeDepth_cons {depth m : Nat} {l : Lexeme} {ls : List Lexeme}
    (h : typeDepth depth (l :: ls) = some m) :
    inHead l = true ∧ (depth = 0 → l = .symbol .lt ∨ inType l = true) ∧
      ∃ d, typeDepth d ls = some m := by
  rw [typeDepth] at h
  split at h
  · next hl =>
    subst hl
    exact ⟨rfl, fun _ => Or.inl rfl, _, h⟩
  · split at h
    · next hl =>
      subst hl
      split at h
      · cases h
      · next hd => exact ⟨rfl, fun hz => absurd hz hd, _, h⟩
    · split at h
      · next hl =>
        subst hl
        split at h
        · cases h
        · next hd => exact ⟨rfl, fun hz => absurd (hz ▸ Nat.two_pos) hd, _, h⟩
      · split at h
        · next hl =>
          rcases Bool.or_eq_true_iff.mp hl with hl | hl
          · refine ⟨?_, fun _ => Or.inr hl, _, h⟩
            rcases inType_cases hl with ⟨name, rfl⟩ | rfl | rfl | rfl <;> rfl
          · obtain ⟨hd, hhead⟩ := Bool.and_eq_true_iff.mp hl
            exact ⟨hhead, fun hz => absurd hz (by simpa using hd), _, h⟩
        · cases h

/-- All lexemes of a type can stand in the head of a member. -/
theorem inHead_of_typeDepth {depth m : Nat} {ls : List Lexeme} (h : typeDepth depth ls = some m) :
    ∀ l ∈ ls, inHead l = true := by
  induction ls generalizing depth with
  | nil => exact fun _ hl => absurd hl List.not_mem_nil
  | cons l ls ih =>
    obtain ⟨hl, -, d, hls⟩ := typeDepth_cons h
    exact List.forall_mem_cons.mpr ⟨hl, ih hls⟩

/-- A type begins a member. -/
theorem TypeName.exists_cons (type : TypeName) :
    ∃ l ls, type.lexemes = l :: ls ∧ l ≠ .symbol .rbrace ∧ MemberOpening.ofLexeme l = .member := by
  obtain ⟨l, ls, hls⟩ := List.exists_cons_of_ne_nil type.ne_nil
  obtain ⟨-, hl, -⟩ := typeDepth_cons (hls ▸ type.closed)
  refine ⟨l, ls, hls, ?_⟩
  rcases hl rfl with rfl | hl
  · exact ⟨by decide, rfl⟩
  · rcases inType_cases hl with ⟨name, rfl⟩ | rfl | rfl | rfl
    · exact ⟨Lexeme.noConfusion, rfl⟩
    · exact ⟨by decide, rfl⟩
    · exact ⟨by decide, rfl⟩
    · exact ⟨by decide, rfl⟩

/-! ## Reading a declaration -/

/-- The last name of a head is the identifier at its end. -/
theorem lastName?_of_ident {tokens : List Token} {type : List Lexeme} {name : String}
    (h : tokens.map Located.item = type ++ [.ident name]) :
    ∃ before, lastName? tokens = some (before, name) ∧ before.map Located.item = type := by
  obtain ⟨before, last, rfl, hbefore, hlast⟩ := List.map_eq_append_iff.mp h
  obtain ⟨t, rest, rfl, ht, hrest⟩ := List.map_eq_cons_iff.mp hlast
  obtain rfl := List.map_eq_nil_iff.mp hrest
  refine ⟨before, ?_, hbefore⟩
  rw [lastName?, List.reverse_append, List.reverse_singleton, List.singleton_append,
    List.dropWhile_cons_of_neg (by rw [ht]; exact Bool.false_ne_true)]
  simp only [List.reverse_reverse, Token.spelling, ht]
  rfl

/-- A data member is found from its name, the lexemes in front of that and its value. -/
theorem member_of_data {c : Cursor} {type rest : List Lexeme} {name : String} {l : Lexeme}
    (htype : ∀ x ∈ type, inHead x = true) (hl : endsHead l = true) (hparen : l ≠ .symbol .lparen)
    (hc : c.ahead = type ++ .ident name :: l :: rest) {value : Option String} {follow : List Lexeme}
    (hvalue : ∀ d : Cursor, d.ahead = l :: rest → ∃ mid, fieldValue d = ⟨value, [], mid⟩ ∧
      mid.ahead = .symbol .semicolon :: follow) :
    ∃ span next, member c = ⟨some (.data ⟨⟨name, typeText type, value⟩, span⟩), [], next⟩ ∧
      next.ahead = follow := by
  have hc' : c.ahead = (type ++ [.ident name]) ++ l :: rest := by rw [hc, List.append_assoc]; rfl
  have hin : ∀ x ∈ type ++ [Lexeme.ident name], inHead x = true := by
    rw [List.forall_mem_append, List.forall_mem_singleton]
    exact ⟨htype, rfl⟩
  obtain ⟨hhead, hafter⟩ := memberHead_of_ahead hc' hin hl
  obtain ⟨before, hname, hbefore⟩ := lastName?_of_ident hhead
  obtain ⟨mid, hfield, hmid⟩ := hvalue _ hafter
  obtain ⟨t, ts, -, -, hfollow⟩ := exists_rest_of_ahead hmid
  have hne : (memberHead c).1.isEmpty = false := by
    rw [← List.isEmpty_map (f := Located.item), hhead, List.isEmpty_eq_false_iff]
    exact List.concat_ne_nil _ _
  refine ⟨c.here.merge mid.advance.before, mid.advance, ?_, hfollow⟩
  unfold member
  simp only [hne, at_eq_false_of_ahead hafter hparen]
  unfold dataMember
  simp only [hfield, hname, expect_of_at (at_of_ahead hmid), joinType_eq, hbefore]
  rfl

/-- A field that a semicolon follows has no value. -/
theorem fieldValue_of_semicolon {c : Cursor} {rest : List Lexeme}
    (hc : c.ahead = .symbol .semicolon :: rest) : fieldValue c = ⟨none, [], c⟩ := by
  obtain ⟨t, ts, hr, ht, -⟩ := exists_rest_of_ahead hc
  have his : t.is .semicolon = true := by rw [Token.is, ht, beq_self_eq_true]
  unfold fieldValue
  rw [at_eq_false_of_ahead hc (by decide), at_eq_false_of_ahead hc (by decide),
    untilSemicolon_of_semicolon hr his]
  rfl

/-- The first part of a list that goes on with a comma, if it goes on. -/
theorem head?_splitCommas {tokens : List Token} {v others : List Lexeme} (hv : CallArgument v)
    (hothers : others = [] ∨ ∃ ls, others = .symbol .comma :: ls)
    (h : tokens.map Located.item = v ++ others) :
    ((splitCommas tokens).head?.map joinTight).getD "" = tightText v := by
  obtain ⟨first, rest, rfl, hfirst, hrest⟩ := List.map_eq_append_iff.mp h
  have hdepth : depthOf v = 0 := by
    have hzero := depthOf_of_depthThrough hv.balanced
    omega
  obtain ⟨parts, hparts⟩ : ∃ parts, Nesting.split Token.side (Token.is .comma) 0 rest =
      [] :: parts := by
    rcases hothers with rfl | ⟨ls, rfl⟩
    · obtain rfl := List.map_eq_nil_iff.mp hrest
      exact ⟨[], rfl⟩
    · obtain ⟨comma, ts, rfl, hcomma, -⟩ := List.map_eq_cons_iff.mp hrest
      have hside : Token.side comma = .plain := by rw [Token.side, hcomma]; rfl
      have his : Token.is .comma comma = true := by rw [Token.is, hcomma]; rfl
      rw [Nesting.split, hside, his]
      exact ⟨_, rfl⟩
  have hsplit : Nesting.split Token.side (Token.is .comma) 0 (first ++ rest) =
      (first ++ []) :: parts := by
    refine Nesting.split_append
      (fun before t after hts hd => hv.not_comma hfirst hts (by simpa using hd)) ?_
    rw [hfirst, hdepth, Int.add_zero, hparts]
  have hne : (first ++ rest).isEmpty = false := by
    cases first with
    | nil => exact absurd hfirst.symm hv.ne_nil
    | cons => rfl
  have hhead : (splitCommas (first ++ rest)).head? = some first := by
    rw [splitCommas, hne, hsplit, List.append_nil]
    rfl
  rw [hhead, Option.map_some, joinTight_eq, hfirst]
  rfl

/-- The value of a field goes from its sign to the next comma or semicolon outside brackets. -/
theorem fieldValue_of_eq {c : Cursor} {v others follow : List Lexeme} (hv : CallArgument v)
    (hclause : Clause (v ++ others)) (hothers : others = [] ∨ ∃ ls, others = .symbol .comma :: ls)
    (hc : c.ahead = .symbol .eq :: (v ++ others ++ .symbol .semicolon :: follow)) :
    ∃ mid, fieldValue c = ⟨some (tightText v), [], mid⟩ ∧
      mid.ahead = .symbol .semicolon :: follow := by
  obtain ⟨t, ts, -, -, hadvance⟩ := exists_rest_of_ahead hc
  obtain ⟨value, mid, semicolon, hread, hvalue, hat, -, -, hfollow⟩ :=
    untilSemicolon_of_ahead hclause hadvance
  refine ⟨mid, ?_, ?_⟩
  · unfold fieldValue
    rw [if_pos (at_of_ahead hc), hread]
    simp only [head?_splitCommas hv hothers hvalue]
  · rw [ahead_of_at hat, hfollow]

namespace Declarator

theorem clause_lexemes (x : Declarator) : Clause x.lexemes := by
  refine .plain rfl (by simp) ?_
  cases hv : x.value with
  | none => exact .nil
  | some v => exact .plain rfl (by decide) v.clause

theorem clause_further (xs : List Declarator) : Clause (further xs) := by
  induction xs with
  | nil => exact .nil
  | cons x xs ih => exact (Clause.plain rfl (by decide) x.clause_lexemes).append ih

/-- Further declarators begin with a comma, if there are any. -/
theorem further_cases (xs : List Declarator) :
    further xs = [] ∨ ∃ ls, further xs = .symbol .comma :: ls := by
  cases xs with
  | nil => exact Or.inl rfl
  | cons x xs => exact Or.inr ⟨_, rfl⟩

/-- A declarator with a value is read as a data member, whatever declarators come after it. -/
theorem exists_member_of_value {type : List Lexeme} (htype : ∀ l ∈ type, inHead l = true)
    {x : Declarator} {v : Initializer} (hv : x.value = some v) (xs : List Declarator) {c : Cursor}
    {rest : List Lexeme}
    (hc : c.ahead = type ++ (x.lexemes ++ further xs ++ .symbol .semicolon :: rest)) :
    ∃ span next, member c = ⟨some (.data ⟨x.field type, span⟩), [], next⟩ ∧ next.ahead = rest := by
  have hc' : c.ahead = type ++ .ident x.name :: .symbol .eq ::
      (v.lexemes ++ further xs ++ .symbol .semicolon :: rest) := by
    rw [hc, lexemes, hv]
    simp
  have hclause := v.clause.append (clause_further xs)
  have hfield := member_of_data htype rfl (by decide) hc' fun d hd =>
    fieldValue_of_eq v.undivided hclause (further_cases xs) hd
  rwa [field, hv]

/-- One data member is read where some declarators stand behind a type. -/
theorem exists_member {type : List Lexeme} (htype : ∀ l ∈ type, inHead l = true)
    (x : Declarator) (xs : List Declarator) {c : Cursor} {rest : List Lexeme}
    (hc : c.ahead = type ++ (x.lexemes ++ further xs ++ .symbol .semicolon :: rest)) :
    ∃ span next, member c = ⟨some (.data ⟨x.found type xs, span⟩), [], next⟩ ∧
      next.ahead = rest := by
  induction xs generalizing type x with
  | nil =>
    rw [found]
    cases hv : x.value with
    | none =>
      have hc' : c.ahead = type ++ .ident x.name :: .symbol .semicolon :: rest := by
        rw [hc, lexemes, hv]
        rfl
      have hfield := member_of_data htype rfl (by decide) hc' fun d hd =>
        ⟨d, fieldValue_of_semicolon hd, hd⟩
      rwa [field, hv]
    | some v => exact exists_member_of_value htype hv [] hc
  | cons y ys ih =>
    rw [found]
    cases hv : x.value with
    | none =>
      -- The name and the comma are taken for part of the type of what follows.
      refine ih ?_ y ?_
      · rw [List.forall_mem_append, List.forall_mem_cons, List.forall_mem_singleton]
        exact ⟨htype, rfl, rfl⟩
      · rw [hc, lexemes, hv]
        simp [further]
    | some v => exact exists_member_of_value htype hv (y :: ys) hc

end Declarator

/-- The body of a class that is a sequence of declarations has one member for each of them. -/
theorem exists_members_of_declarations (ds : List Declaration) {c : Cursor} {rest : List Lexeme}
    (hc : c.ahead = ds.flatMap Declaration.lexemes ++ .symbol .rbrace :: rest) :
    ∃ fields : List (Located Field), (members c).val.value = fields.map Member.data ∧
      fields.map Located.item = ds.map Declaration.found := by
  induction ds generalizing c with
  | nil =>
    have hend : c.atBlockEnd = true := by
      rw [atBlockEnd, at_of_ahead hc, Bool.or_true]
    rw [members_of_atBlockEnd hend]
    exact ⟨[], rfl, rfl⟩
  | cons d ds ih =>
    have hd : c.ahead = d.type.lexemes ++ (d.first.lexemes ++ Declarator.further d.others ++
        .symbol .semicolon :: (ds.flatMap Declaration.lexemes ++ .symbol .rbrace :: rest)) := by
      rw [hc]
      simp [Declaration.lexemes]
    obtain ⟨span, next, hmember, hnext⟩ :=
      d.first.exists_member (inHead_of_typeDepth d.type.closed) d.others hd
    obtain ⟨l, ls, hls, hbrace, hopening⟩ := d.type.exists_cons
    rw [hls, List.cons_append] at hd
    obtain ⟨t, ts, hr, ht, -⟩ := exists_rest_of_ahead hd
    have hentry : entry c = member c := by
      rw [entry_of_rest hr, entryFrom, ht, hopening]
    obtain ⟨fields, hvalue, hfields⟩ := ih hnext
    refine ⟨⟨d.found, span⟩ :: fields, ?_, ?_⟩
    · rw [members_eq (not_atBlockEnd_of_ahead hd hbrace), hentry, hmember, hvalue]
      rfl
    · rw [List.map_cons, List.map_cons, hfields]

/-! ## Data members of an accepted file -/

/-- The field that is found is all that is declared if and only if there is one declarator. -/
theorem Declaration.declared_eq_iff (d : Declaration) : d.declared = [d.found] ↔ d.others = [] := by
  constructor
  · intro h
    have hlength := congrArg List.length h
    rw [declared, List.length_map, List.length_cons] at hlength
    exact List.eq_nil_of_length_eq_zero (Nat.succ.inj hlength)
  · intro h
    rw [declared, found, h]
    rfl

/-- Data members are found one for each declaration. A class of an accepted file whose body is a
sequence of declarations has no methods and one field for each declaration: that of the first
declarator with a value or of the last one, with all that stands before its name as the type. These
are the declared fields exactly if every declaration has one declarator. -/
theorem fields_of_declarations {source : List Char} {file : SourceFile}
    (h : parseFile source = .ok file) {c : Cursor} (hitem : ItemAt (lex source).cursor c)
    {key : ClassKey} {name : String} {bs rest : List Lexeme} (hbs : BaseClause bs)
    {ds : List Declaration}
    (hc : c.ahead = keyLexeme key :: .ident name :: (bs ++ .symbol .lbrace ::
      (ds.flatMap Declaration.lexemes ++ .symbol .rbrace :: rest))) :
    ∃ before cls after, file.classes = before ++ cls :: after ∧ cls.name.item = name ∧
      cls.methods = [] ∧ cls.fields.map Located.item = ds.map Declaration.found ∧
      (cls.fields.map Located.item = ds.flatMap Declaration.declared ↔
        ∀ d ∈ ds, d.others = []) := by
  obtain ⟨before, cls, after, hclasses, hname, hfields, hmethods, hbody⟩ :=
    exists_class_of_itemAt h hitem hbs hc
  obtain ⟨fields, hmembers, hfound⟩ := exists_members_of_declarations ds hbody
  have hdata : cls.fields = fields := by
    rw [hfields, hmembers, dataOf, List.filterMap_map]
    exact List.filterMap_some
  have hfunctions : cls.methods = [] := by
    rw [hmethods, hmembers, functionsOf, List.filterMap_map]
    exact List.filterMap_eq_nil_iff.mpr fun _ _ => rfl
  refine ⟨before, cls, after, hclasses, hname, hfunctions, hdata ▸ hfound, ?_⟩
  have hne : ∀ d ∈ ds, d.declared ≠ [] := fun _ _ => List.cons_ne_nil _ _
  rw [hdata, hfound, eq_comm, flatMap_eq_map_iff hne]
  exact forall_congr' fun d => forall_congr' fun _ => d.declared_eq_iff

/-- A class behind two other items, with nested template arguments, a value with a comma in it and two
lists of declarators. -/
def mixedMembers : String :=
  "struct q; int f(int a) \x7b return a; \x7d struct p : q \x7b " ++
    "std::map<int, pair<a, b>> m; int x = f(1, 2), y = 3; bool b, c; \x7d;"

/-- The value `f(1, 2)`. -/
def mixedCall : Initializer where
  lexemes := [.ident "f", .symbol .lparen, .number "1", .symbol .comma, .number "2",
    .symbol .rparen]
  clause := .plain rfl Lexeme.noConfusion (@Clause.group (.symbol .lparen) (.symbol .rparen)
    [.number "1", .symbol .comma, .number "2"] [] rfl rfl rfl .nil)
  undivided := of_decide_eq_true rfl

/-- The declarations of that class. -/
def mixedDeclarations : List Declaration :=
  [⟨⟨[.ident "std", .symbol .scope, .ident "map", .symbol .lt, .ident "int", .symbol .comma,
        .ident "pair", .symbol .lt, .ident "a", .symbol .comma, .ident "b", .symbol .shr],
      List.cons_ne_nil _ _, rfl⟩, ⟨"m", none⟩, []⟩,
    ⟨⟨[.ident "int"], List.cons_ne_nil _ _, rfl⟩, ⟨"x", some mixedCall⟩,
      [⟨"y", some ⟨[.number "3"], .plain rfl Lexeme.noConfusion .nil, of_decide_eq_true rfl⟩⟩]⟩,
    ⟨⟨[.ident "bool"], List.cons_ne_nil _ _, rfl⟩, ⟨"b", none⟩, [⟨"c", none⟩]⟩]

/-- The fields found in the mixed class are not those declared. -/
theorem fields_of_declarations_mixed :
    ∃ file before cls after, parseFile mixedMembers.toList = .ok file ∧
      file.classes = before ++ cls :: after ∧ cls.name.item = "p" ∧
      cls.fields.map Located.item = [⟨"m", "std::map<int, pair<a, b>>", none⟩,
        ⟨"x", "int", some "f(1,2)"⟩, ⟨"c", "bool b,", none⟩] ∧
      cls.fields.map Located.item ≠ mixedDeclarations.flatMap Declaration.declared := by
  have hread : (parseFile mixedMembers.toList).toOption.map (fun file => file.classes.length) =
      some 1 := by decide +kernel
  obtain ⟨file, hfile, -⟩ := exists_eq_ok hread
  obtain ⟨hfirst, hsecond, hahead⟩ : (!(lex mixedMembers.toList).cursor.rest.isEmpty) = true ∧
      (!(item (lex mixedMembers.toList).cursor).next.rest.isEmpty) = true ∧
      (item (item (lex mixedMembers.toList).cursor).next).next.ahead =
        keyLexeme .structKey :: .ident "p" :: ([.symbol .colon, .ident "q"] ++ .symbol .lbrace ::
          (mixedDeclarations.flatMap Declaration.lexemes ++ .symbol .rbrace ::
            [.symbol .semicolon])) := by
    decide +kernel
  have hitem : ItemAt (lex mixedMembers.toList).cursor
      (item (item (lex mixedMembers.toList).cursor).next).next :=
    (Stepped.start.next hfirst).next hsecond
  obtain ⟨before, cls, after, hclasses, hname, -, hfound, hiff⟩ := fields_of_declarations hfile
    hitem (Or.inr ⟨[.ident "q"], rfl, by decide⟩) hahead
  have hothers : ¬∀ d ∈ mixedDeclarations, d.others = [] := by simp [mixedDeclarations]
  exact ⟨file, before, cls, after, hfile, hclasses, hname, hfound.trans (by decide +kernel),
    fun h => hothers (hiff.mp h)⟩

/-- Of two names that are declared together one is lost, and the other one has it in its type. -/
theorem fields_lose_declarator :
    (parseFile "struct p \x7b int x, y; \x7d;".toList).toOption.map (fun file =>
      file.classes.map fun cls => cls.fields.map Located.item) =
        some [[⟨"y", "int x,", none⟩]] := by
  decide +kernel

end VertexLanes
