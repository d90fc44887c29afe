import VertexLanes.Program.Recovery
import VertexLanes.Proofs.Annotation
import VertexLanes.Proofs.ParameterSplitting

/-!
# Parameters from source to method

A method is read where its head and its parameters stand in the body of a class. Its
parameters are those that are found for the declared ones, and are the declared ones
exactly if no type and no default value has a comma outside all brackets; a type with
two template arguments has one. The fields of a class with a constructor are the
parameters that are found there.
-/

namespace VertexLanes

open VertexLanes.Cursor VertexLanes.Parser

/-! ## Heads of methods -/

/-- What can stand between the word `operator` and the parameters: a name without a parenthesis,
with the parentheses of the call operator before it or not. -/
inductive OperatorName : List Lexeme → Prop
  | named {ls : List Lexeme} (hne : ls ≠ []) (hparen : .symbol .lparen ∉ ls) : OperatorName ls
  | call {ls : List Lexeme} (hparen : .symbol .lparen ∉ ls) :
      OperatorName (.symbol .lparen :: .symbol .rparen :: ls)

/-- What can stand before the parameters of a method: a result and a name, a name alone, or an
operator. -/
inductive MethodHead : List Lexeme → Prop
  | named {ls : List Lexeme} (h : ∀ l ∈ ls, inHead l = true) : MethodHead ls
  | operator {before name : List Lexeme} (hbefore : ∀ l ∈ before, inHead l = true)
      (hname : OperatorName name) : MethodHead (before ++ .keyword .operatorKw :: name)

/-- The head of a constructor. -/
def constructorHead (words : List String) (name : String) : List Lexeme :=
  words.map Lexeme.ident ++ [.ident name]

/-- The name of an operator is read up to its parameters. -/
theorem operatorName_of_ahead {c : Cursor} {name rest : List Lexeme} (hname : OperatorName name)
    (hc : c.ahead = name ++ .symbol .lparen :: rest) :
    ((callMark c).1 ++ (callMark c).2.run (· != .symbol .lparen)).map Located.item = name ∧
      ((callMark c).2.afterRun (· != .symbol .lparen)).ahead = .symbol .lparen :: rest := by
  have hplain : ∀ {ls : List Lexeme}, .symbol .lparen ∉ ls →
      ∀ l ∈ ls, (l != .symbol .lparen) = true := fun hls l hl =>
    bne_iff_ne.mpr fun heq => hls (heq ▸ hl)
  cases hname with
  | named hne hparen =>
    obtain ⟨l, ls, rfl⟩ := List.exists_cons_of_ne_nil hne
    obtain ⟨t, ts, hr, ht, -⟩ := exists_rest_of_ahead hc
    have hmark : callMark c = ([], c) := by
      have his : t.is .lparen = false := by
        rw [Token.is, ht]
        exact beq_eq_false_iff_ne.mpr fun heq => hparen (heq ▸ List.mem_cons_self)
      rw [callMark, hr]
      cases ts with
      | nil => rfl
      | cons u us =>
        simp only [his]
        rfl
    rw [hmark, List.nil_append]
    exact run_of_ahead hc (hplain hparen) rfl
  | @call ls hparen =>
    obtain ⟨t, ts, hr, ht, hnext⟩ := exists_rest_of_ahead hc
    obtain ⟨u, us, hu, hitem, hafter⟩ := exists_rest_of_ahead hnext
    have hts : ts = u :: us := by rw [← hu, advance_rest hr]
    have hmark : callMark c = ([t, u], c.advance.advance) := by
      rw [callMark, hr, hts]
      simp only [Token.is, ht, hitem]
      rfl
    obtain ⟨hrun, hrest⟩ := run_of_ahead hafter (hplain hparen) rfl
    rw [hmark, List.map_append, hrun]
    refine ⟨?_, hrest⟩
    rw [List.map_cons, List.map_singleton, ht, hitem]
    rfl

/-- The head of a method is read up to its parameters. -/
theorem memberHead_of_methodHead {c : Cursor} {head rest : List Lexeme} (hhead : MethodHead head)
    (hc : c.ahead = head ++ .symbol .lparen :: rest) :
    (memberHead c).1.map Located.item = head ∧
      (memberHead c).2.ahead = .symbol .lparen :: rest := by
  cases hhead with
  | named h => exact memberHead_of_ahead hc h rfl
  | @operator before name hbefore hname =>
    rw [List.append_assoc, List.cons_append] at hc
    obtain ⟨hrun, hafter⟩ := run_of_ahead hc hbefore rfl
    obtain ⟨t, ts, hr, ht, hnext⟩ := exists_rest_of_ahead hafter
    obtain ⟨hitems, hrest⟩ := operatorName_of_ahead hname hnext
    have hoperator : (t.item == .keyword .operatorKw) = true := beq_iff_eq.mpr ht
    unfold memberHead
    simp only [hr, hoperator, if_true]
    refine ⟨?_, hrest⟩
    rw [List.map_append, List.map_cons, hrun, ht, hitems]

/-- No method begins with a closing brace. -/
theorem MethodHead.ne_rbrace {l : Lexeme} {ls : List Lexeme} (h : MethodHead (l :: ls)) :
    l ≠ .symbol .rbrace := by
  rintro rfl
  generalize hhead : Lexeme.symbol .rbrace :: ls = head at h
  cases h with
  | named h => cases h _ (hhead ▸ List.mem_cons_self)
  | @operator before name hbefore =>
    cases before with
    | nil => cases hhead
    | cons l before =>
      cases hhead
      cases hbefore _ List.mem_cons_self

/-- A head is cut alike without places. -/
theorem cutHead_map (ts : List Token) :
    cutHead (ts.map Token.unplaced) =
      ((cutHead ts).1.map Token.unplaced, (cutHead ts).2.map Token.unplaced) := by
  have hoperator : (ts.map Token.unplaced).any (fun t => t.item == .keyword .operatorKw) =
      ts.any fun t => t.item == .keyword .operatorKw := List.any_map
  have htilde : (ts.map Token.unplaced).dropLast.getLast?.any (Token.is .tilde) =
      ts.dropLast.getLast?.any (Token.is .tilde) := by
    rw [← List.map_dropLast, List.getLast?_map, Option.any_map]
    rfl
  unfold cutHead
  simp only [hoperator, htilde, List.length_map]
  cases ts.any fun t => t.item == .keyword .operatorKw with
  | true =>
    simp only [if_true, List.takeWhile_map, List.dropWhile_map]
    rfl
  | false => simp only [Bool.false_eq_true, if_false, List.map_take, List.map_drop]

/-! ## Reading a method -/

/-- The tokens of a group are those between its parentheses. -/
theorem group_of_ahead {c : Cursor} {inner rest : List Lexeme}
    (hinner : depthThrough 0 inner = some 0)
    (hc : c.ahead = .symbol .lparen :: (inner ++ .symbol .rparen :: rest)) :
    c.group.value.tail.dropLast.map Located.item = inner := by
  obtain ⟨opening, others, hr, -, hothers⟩ := List.map_eq_cons_iff.mp hc
  obtain ⟨tokens, last, rfl, htokens, hlast⟩ := List.map_eq_append_iff.mp hothers
  obtain ⟨closing, after, rfl, hclosing, -⟩ := List.map_eq_cons_iff.mp hlast
  have hside : Token.side closing = .closing := by rw [Token.side, hclosing]; rfl
  obtain ⟨hvalue, -, -⟩ := group_append hr (htokens.symm ▸ hinner) hside
  rw [hvalue, List.tail_cons, List.dropLast_concat, htokens]

/-- A method is found where its head and its parameters stand. -/
theorem exists_method_of_ahead {c : Cursor} {head : List Lexeme} (hhead : MethodHead head)
    (hopening : head.head?.map MemberOpening.ofLexeme = some .member) {ps : List Parameter}
    {rest : List Lexeme}
    (hc : c.ahead = head ++ .symbol .lparen :: (Parameter.listed ps ++ .symbol .rparen :: rest)) :
    ∃ m, (entry c).value = some (.function m) ∧ m.params = ps.flatMap Parameter.found ∧
      m.name = joinTight (cutHead (head.map Lexeme.token)).2 ∧
      m.result = joinType ((cutHead (head.map Lexeme.token)).1.filter fun t =>
        !specifiers.contains t.spelling) := by
  obtain ⟨hitems, hafter⟩ := memberHead_of_methodHead hhead hc
  cases head with
  | nil => cases hopening
  | cons l ls =>
    obtain ⟨t, ts, hr, ht, -⟩ := exists_rest_of_ahead hc
    have hentry : entry c = member c := by
      rw [entry_of_rest hr, entryFrom, ht, Option.some.inj hopening]
    have hne : (memberHead c).1.isEmpty = false := by
      rw [← List.isEmpty_map (f := Located.item), hitems]
      rfl
    refine ⟨(method (memberHead c).1 c.here (memberHead c).2).value, ?_, ?_, ?_, ?_⟩
    · rw [hentry, member]
      simp only [hne, at_of_ahead hafter]
      rfl
    · have hparams := group_of_ahead (Parameter.balanced_listed ps) hafter
      rw [method]
      simp only
      rw [filterMap_param?, hparams, parametersOf_listed]
    · rw [← hitems, ← map_unplaced, cutHead_map, Shape.joinTight_map]
      rfl
    · rw [← hitems, ← map_unplaced, cutHead_map, List.filter_map, joinType_map]
      rfl

/-! ## Constructors -/

/-- The head of a constructor is cut before its name. -/
theorem cutHead_constructorHead (words : List String) (name : String) :
    cutHead ((constructorHead words name).map Lexeme.token) =
      (words.map fun word => Lexeme.token (.ident word), [Lexeme.token (.ident name)]) := by
  have htokens : (constructorHead words name).map Lexeme.token =
      (words.map fun word => Lexeme.token (.ident word)) ++ [Lexeme.token (.ident name)] := by
    rw [constructorHead, List.map_append, List.map_map]
    rfl
  have hoperator : ((constructorHead words name).map Lexeme.token).any
      (fun t => t.item == .keyword .operatorKw) = false := by
    simp [htokens, Lexeme.token]
  have htilde : ((words.map fun word => Lexeme.token (.ident word)).getLast?.any
      (Token.is .tilde)) = false := by
    rw [List.getLast?_map, Option.any_map]
    cases words.getLast? <;> rfl
  unfold cutHead
  simp only [hoperator]
  rw [htokens, List.dropLast_concat, htilde]
  simp

/-- A constructor has the name of its class and no result. -/
theorem method_of_constructorHead {words : List String} (hwords : ∀ w ∈ words, w ∈ specifiers)
    (name : String) :
    joinTight (cutHead ((constructorHead words name).map Lexeme.token)).2 = name ∧
      joinType ((cutHead ((constructorHead words name).map Lexeme.token)).1.filter fun t =>
        !specifiers.contains t.spelling) = "" := by
  rw [cutHead_constructorHead]
  refine ⟨String.empty_append, ?_⟩
  have hnone : (words.map fun word => Lexeme.token (.ident word)).filter
      (fun t => !specifiers.contains t.spelling) = [] := by
    rw [List.filter_eq_nil_iff, List.forall_mem_map]
    intro w hw
    have hcontains : specifiers.contains (Token.spelling (Lexeme.token (.ident w))) = true :=
      List.contains_iff_mem.mpr (hwords w hw)
    rw [hcontains]
    exact Bool.false_ne_true
  rw [hnone]
  rfl

/-- The fields of a class are the parameters of its first constructor that has any. -/
theorem fieldList_of_constructor {cls : ClassDef} {earlier later : List Method} {m : Method}
    (hmethods : cls.methods = earlier ++ m :: later) (hname : m.name = cls.name.item)
    (hresult : m.result = "") (hparams : m.params ≠ [])
    (hearlier : ∀ k ∈ earlier, k ∈ cls.constructors → k.params = []) :
    Recovery.fieldList cls = m.params := by
  have hfirst : cls.constructors.find? (fun k => !k.params.isEmpty) = some m := by
    rw [List.find?_eq_some_iff_append]
    refine ⟨by simpa using hparams, earlier.filter fun k =>
      k.name == cls.name.item && k.result.isEmpty, later.filter fun k =>
      k.name == cls.name.item && k.result.isEmpty, ?_, fun k hk => ?_⟩
    · rw [ClassDef.constructors, hmethods, List.filter_append, List.filter_cons_of_pos]
      simp [hname, hresult]
    · obtain ⟨hmem, hconstructor⟩ := List.mem_filter.mp hk
      have hk : k ∈ cls.constructors := by
        rw [ClassDef.constructors, hmethods]
        exact List.mem_filter.mpr ⟨List.mem_append_left _ hmem, hconstructor⟩
      rw [hearlier k hmem hk]
      rfl
  rw [Recovery.fieldList, hfirst]

/-! ## Parameters of an accepted file -/

/-- Parameters are found one for each part between commas. A method of a class of an accepted file
has the parameters that are found for the declared ones. These are the declared ones exactly if no
comma stands outside all brackets in a type or a default value. The parameters of the first
constructor that has any are the fields of its class. -/
theorem params_of_parameters {source : List Char} {file : SourceFile}
    (h : parseFile source = .ok file) {c : Cursor} (hitem : ItemAt (lex source).cursor c)
    {key : ClassKey} {name : String} {bs rest : List Lexeme} (hbs : BaseClause bs)
    (hc : c.ahead = keyLexeme key :: .ident name :: (bs ++ .symbol .lbrace :: rest))
    {d : Cursor} (hentry : EntryAt (classBody c) d) {head : List Lexeme} (hhead : MethodHead head)
    (hopening : head.head?.map MemberOpening.ofLexeme = some .member) {ps : List Parameter}
    {follow : List Lexeme}
    (hd : d.ahead =
      head ++ .symbol .lparen :: (Parameter.listed ps ++ .symbol .rparen :: follow)) :
    ∃ before cls after earlier m later, file.classes = before ++ cls :: after ∧
      cls.name.item = name ∧ cls.methods = earlier ++ m :: later ∧
      m.name = joinTight (cutHead (head.map Lexeme.token)).2 ∧
      m.params = ps.flatMap Parameter.found ∧
      (m.params = ps.map Parameter.declared ↔
        ∀ p ∈ ps, ¬StandsOutside (.symbol .comma) p.lexemes) ∧
      (∀ words, (∀ w ∈ words, w ∈ specifiers) → head = constructorHead words name → ps ≠ [] →
        (∀ k ∈ earlier, k ∈ cls.constructors → k.params = []) →
        Recovery.fieldList cls = m.params) := by
  obtain ⟨before, cls, after, hclasses, hname, -, hmethods, -⟩ :=
    exists_class_of_itemAt h hitem hbs hc
  obtain ⟨m, hvalue, hparams, hmname, hresult⟩ := exists_method_of_ahead hhead hopening hd
  obtain ⟨members, hmembers⟩ := hentry.exists_members
  have hend : d.atBlockEnd = false := by
    cases head with
    | nil => cases hopening
    | cons l ls => exact not_atBlockEnd_of_ahead hd hhead.ne_rbrace
  have hsplit : cls.methods =
      functionsOf members ++ m :: functionsOf (Parser.members (entry d).next).val.value := by
    rw [hmethods, hmembers, members_eq hend, hvalue, functionsOf, List.filterMap_append]
    rfl
  refine ⟨before, cls, after, _, m, _, hclasses, hname, hsplit, hmname, hparams, ?_, ?_⟩
  · rw [hparams, flatMap_eq_map_iff fun p _ => p.found_ne_nil]
    exact forall_congr' fun p => forall_congr' fun _ => p.found_eq_iff
  · intro words hwords hconstructor hne hearlier
    obtain ⟨hcname, hcresult⟩ := method_of_constructorHead hwords name
    subst hconstructor
    refine fieldList_of_constructor hsplit ?_ (hresult.trans hcresult) ?_ hearlier
    · rw [hmname, hcname, hname]
    · obtain ⟨p, qs, rfl⟩ := List.exists_cons_of_ne_nil hne
      rw [hparams, List.flatMap_cons]
      exact List.append_ne_nil_of_left_ne_nil p.found_ne_nil _

/-- A class whose constructor stands behind a data member and an operator, with a comma in the
parentheses of a default value and another one between template arguments. -/
def pairedConstructor : String :=
  "struct q; struct p : q \x7b int x; void operator()(int i) \x7b \x7d " ++
    "explicit p(float a = f(1, 2), std::pair<int, b> c) : x(a) \x7b \x7d \x7d;"

/-- The place of that class. -/
def pairedClass : Cursor := (item (lex pairedConstructor.toList).cursor).next

/-- The parameters of that constructor. -/
def pairedParameters : List Parameter :=
  [⟨⟨[.ident "float"], List.cons_ne_nil _ _, rfl, fun h => Lexeme.noConfusion (Option.some.inj h),
      of_decide_eq_true rfl⟩, "a", some ⟨[.ident "f", .symbol .lparen, .number "1", .symbol .comma,
        .number "2", .symbol .rparen], rfl⟩⟩,
    ⟨⟨[.ident "std", .symbol .scope, .ident "pair", .symbol .lt, .ident "int", .symbol .comma,
        .ident "b", .symbol .gt], List.cons_ne_nil _ _, rfl,
      fun h => Lexeme.noConfusion (Option.some.inj h), of_decide_eq_true rfl⟩, "c", none⟩]

/-- The parameters found for a pair are not those declared. -/
theorem params_of_parameters_paired :
    ∃ file before cls after m, parseFile pairedConstructor.toList = .ok file ∧
      file.classes = before ++ cls :: after ∧ m ∈ cls.methods ∧ m.name = "p" ∧
      m.params = [⟨"a", "float", some "f(1,2)"⟩, ⟨"int", "std::pair<", none⟩, ⟨"c", "b>", none⟩] ∧
      m.params ≠ pairedParameters.map Parameter.declared ∧
      Recovery.fieldList cls = m.params := by
  have hread : (parseFile pairedConstructor.toList).toOption.map (fun file =>
      file.classes.map fun cls => cls.methods.map Method.name) =
        some [["operator()", "p"]] := by decide +kernel
  obtain ⟨file, hfile, hnames⟩ := exists_eq_ok hread
  obtain ⟨hfirst, hclass, hdata, hoperator, hmethod⟩ :
      (!(lex pairedConstructor.toList).cursor.rest.isEmpty) = true ∧
        pairedClass.ahead = keyLexeme .structKey :: .ident "p" :: ([.symbol .colon, .ident "q"] ++
          .symbol .lbrace :: (classBody pairedClass).ahead) ∧
        (!(classBody pairedClass).atBlockEnd) = true ∧
        (!(entry (classBody pairedClass)).next.atBlockEnd) = true ∧
        (entry (entry (classBody pairedClass)).next).next.ahead =
          constructorHead ["explicit"] "p" ++ .symbol .lparen ::
            (Parameter.listed pairedParameters ++ .symbol .rparen :: [.symbol .colon, .ident "x",
              .symbol .lparen, .ident "a", .symbol .rparen, .symbol .lbrace, .symbol .rbrace,
              .symbol .rbrace, .symbol .semicolon]) := by
    decide +kernel
  have hitem : ItemAt (lex pairedConstructor.toList).cursor pairedClass := Stepped.start.next hfirst
  have hentry : EntryAt (classBody pairedClass)
      (entry (entry (classBody pairedClass)).next).next := (Stepped.start.next hdata).next hoperator
  obtain ⟨before, cls, after, earlier, m, later, hclasses, hcls, hmethods, hname, hparams, hiff,
      hfields⟩ := params_of_parameters hfile hitem (Or.inr ⟨[.ident "q"], rfl, by decide⟩) hclass
    hentry (.named (by decide)) rfl hmethod
  have hmname : m.name = "p" := hname
  have hdeclared : ¬∀ p ∈ pairedParameters, ¬StandsOutside (.symbol .comma) p.lexemes := by decide
  have hearlier : ∀ k ∈ earlier, k.name = "operator()" := by
    have hmem : cls.methods.map Method.name ∈ [["operator()", "p"]] := by
      rw [← hnames, hclasses]
      exact List.mem_map_of_mem (by simp)
    rw [List.mem_singleton, hmethods, List.map_append, List.map_cons, hmname] at hmem
    cases earlier with
    | nil => simp at hmem
    | cons k ks =>
      obtain ⟨hk, hks⟩ := List.cons.inj hmem
      cases ks with
      | nil => exact List.forall_mem_singleton.mpr hk
      | cons => simp at hks
  refine ⟨file, before, cls, after, m, hfile, hclasses, ?_, hmname, hparams.trans (by decide),
    fun h => hdeclared (hiff.mp h), ?_⟩
  · rw [hmethods]
    exact List.mem_append_right _ List.mem_cons_self
  · refine hfields ["explicit"] (by decide) rfl (by simp [pairedParameters]) fun k hk hmem => ?_
    have hsame := (List.mem_filter.mp hmem).2
    rw [hearlier k hk, hcls] at hsame
    cases hsame

/-- A parameter with two template arguments becomes two, and so do the fields of its class. -/
theorem params_cut_template_arguments :
    (parseFile "struct p \x7b p(pair<a, b> c) \x7b \x7d \x7d;".toList).toOption.map (fun file =>
      file.classes.map fun cls => (cls.methods.map Method.params, Recovery.fieldList cls)) =
        some [([[⟨"a", "pair<", none⟩, ⟨"c", "b>", none⟩]],
          [⟨"a", "pair<", none⟩, ⟨"c", "b>", none⟩])] := by
  decide +kernel

end VertexLanes
