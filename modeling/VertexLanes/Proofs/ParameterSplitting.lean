import VertexLanes.Proofs.BareTree
import VertexLanes.Proofs.ClassReading
import VertexLanes.Proofs.CompoundAssignment
import VertexLanes.Proofs.SendShape

/-!
# Telling parameters apart

The parameters of a method are told apart at the commas outside all brackets, and
angle brackets are none. So a declared parameter becomes as many as it has parts
between such commas, and is found as it is declared exactly if it has no comma
there.
-/

namespace VertexLanes

open VertexLanes.Cursor VertexLanes.Parser

/-! ## Parameters -/

/-- The type of a parameter. -/
structure ParameterType where
  /-- The lexemes of the type. -/
  lexemes : List Lexeme
  ne_nil : lexemes ≠ []
  balanced : depthThrough 0 lexemes = some 0
  /-- It begins with something else than a comma. -/
  head_ne : lexemes.head? ≠ some (.symbol .comma)
  /-- The first `=` outside all brackets is behind it. -/
  unassigned : ¬StandsOutside (.symbol .eq) lexemes

/-- The default value of a parameter. -/
structure DefaultValue where
  /-- The lexemes of the value. -/
  lexemes : List Lexeme
  balanced : depthThrough 0 lexemes = some 0

/-- A declared parameter. -/
structure Parameter where
  /-- The type. -/
  type : ParameterType
  /-- The name. -/
  name : String
  /-- The value behind the `=`, if there is one. -/
  value : Option DefaultValue

/-- The parameters that are found in some lexemes, one for each part between the commas outside all
brackets that is not empty. -/
def parametersOf (ls : List Lexeme) : List Field :=
  (splitCommas (ls.map Lexeme.token)).filterMap param?

namespace Parameter

/-- The lexemes behind the name. -/
def tail (p : Parameter) : List Lexeme :=
  (p.value.map fun v => .symbol .eq :: v.lexemes).getD []

/-- The lexemes of a parameter. -/
def lexemes (p : Parameter) : List Lexeme := p.type.lexemes ++ .ident p.name :: p.tail

/-- The lexemes of some parameters with commas between them. -/
def listed : List Parameter → List Lexeme
  | [] => []
  | p :: ps => p.lexemes ++ ps.flatMap fun q => .symbol .comma :: q.lexemes

/-- The parameter as it is declared. -/
def declared (p : Parameter) : Field :=
  ⟨p.name, typeText p.type.lexemes, p.value.map fun v => tightText v.lexemes⟩

/-- The parameters that are found for a declared one. -/
def found (p : Parameter) : List Field := parametersOf p.lexemes

private theorem balanced_tail (p : Parameter) : depthThrough 0 p.tail = some 0 := by
  rw [tail]
  cases p.value with
  | none => rfl
  | some v => exact v.balanced

theorem balanced (p : Parameter) : depthThrough 0 p.lexemes = some 0 := by
  rw [lexemes, depthThrough_append, p.type.balanced]
  exact p.balanced_tail

theorem balanced_listed (ps : List Parameter) : depthThrough 0 (listed ps) = some 0 := by
  have hfurther : ∀ qs : List Parameter,
      depthThrough 0 (qs.flatMap fun q => .symbol .comma :: q.lexemes) = some 0 := by
    intro qs
    induction qs with
    | nil => rfl
    | cons q qs ih =>
      rw [List.flatMap_cons, List.cons_append, ← List.singleton_append, depthThrough_append]
      change depthThrough 0 (q.lexemes ++ _) = some 0
      rw [depthThrough_append, q.balanced]
      exact ih
  cases ps with
  | nil => rfl
  | cons p ps =>
    rw [listed, depthThrough_append, p.balanced]
    exact hfurther ps

end Parameter

/-! ## Splitting -/

namespace Nesting

/-- At a separator outside all brackets the parts before it and after it are told apart. -/
theorem split_separator {p : Token → Bool} {depth : Int} {ts : List Token} (rest : List Token)
    {separator : Token} (hside : separator.side = .plain) (hp : p separator = true)
    (hdepth : depth + depthOf (ts.map Located.item) = 0) :
    split Token.side p depth (ts ++ separator :: rest) =
      split Token.side p depth ts ++ split Token.side p 0 rest := by
  induction ts generalizing depth with
  | nil =>
    obtain rfl : depth = 0 := by simpa [depthOf] using hdepth
    exact split_cons_cut hside hp
  | cons t ts ih =>
    rw [List.map_cons, depthOf, ← Int.add_assoc] at hdepth
    have hsplit := ih hdepth
    by_cases hcut : t.side = .plain ∧ depth = 0 ∧ p t = true
    · obtain ⟨ht, rfl, hpt⟩ := hcut
      have hzero : (0 : Int) + t.item.side.change = 0 := by
        rw [show t.item.side = .plain from ht]
        rfl
      rw [hzero] at hsplit
      rw [List.cons_append, split_cons_cut ht hpt, split_cons_cut ht hpt, hsplit]
      rfl
    · have ht : t.side = .plain → depth = 0 → p t = false := fun hs hd =>
        Bool.eq_false_iff.mpr fun hpt => hcut ⟨hs, hd, hpt⟩
      obtain ⟨part, parts, hs⟩ :=
        List.exists_cons_of_ne_nil (split_ne_nil Token.side p (depth + t.item.side.change) ts)
      rw [hs] at hsplit
      rw [List.cons_append, split_cons_grow ht hsplit, split_cons_grow ht hs]
      rfl

/-- Tokens that are not all separators have a part that is not empty. -/
theorem exists_mem_split {τ : Type} {side : τ → Side} {p : τ → Bool} {ts : List τ} {t : τ}
    (ht : t ∈ ts) (hp : p t = false) (depth : Int) :
    ∃ part ∈ split side p depth ts, part ≠ [] := by
  induction ts generalizing depth with
  | nil => cases ht
  | cons u us ih =>
    rcases split_cons_cases side p depth u us with ⟨hu, hcut⟩ | ⟨part, parts, -, hgrow⟩
    · rcases List.mem_cons.mp ht with rfl | ht
      · cases hp.symm.trans hu
      · obtain ⟨part, hmem, hne⟩ := ih ht depth
        rw [hcut]
        exact ⟨part, List.mem_cons_of_mem _ hmem, hne⟩
    · rw [hgrow]
      exact ⟨_, List.mem_cons_self, List.cons_ne_nil _ _⟩

end Nesting

/-- The parameters in some lexemes are those of the parts between commas. -/
theorem parametersOf_eq (ls : List Lexeme) :
    parametersOf ls =
      (Nesting.split Token.side (Token.is .comma) 0 (ls.map Lexeme.token)).filterMap param? := by
  rw [parametersOf, splitCommas]
  cases ls with
  | nil => rfl
  | cons => rfl

/-- The parameters before and after a comma outside all brackets are told apart. -/
theorem parametersOf_append {before : List Lexeme} (hbalanced : depthThrough 0 before = some 0)
    (after : List Lexeme) :
    parametersOf (before ++ .symbol .comma :: after) =
      parametersOf before ++ parametersOf after := by
  have hdepth : (0 : Int) + depthOf ((before.map Lexeme.token).map Located.item) = 0 := by
    rw [map_item_token]
    exact depthOf_of_depthThrough hbalanced
  rw [parametersOf_eq, parametersOf_eq, parametersOf_eq, List.map_append, List.map_cons,
    Nesting.split_separator _ rfl rfl hdepth, List.filterMap_append]

/-- In a list of parameters those are found that are found for each of them. -/
theorem parametersOf_listed (ps : List Parameter) :
    parametersOf (Parameter.listed ps) = ps.flatMap Parameter.found := by
  cases ps with
  | nil => rfl
  | cons p ps =>
    rw [Parameter.listed]
    induction ps generalizing p with
    | nil =>
      rw [List.flatMap_nil, List.append_nil, List.flatMap_singleton]
      rfl
    | cons q qs ih =>
      rw [List.flatMap_cons, List.cons_append, parametersOf_append p.balanced, ih q]
      rfl

/-! ## Reading one parameter -/

/-- The place of the default value in some tokens. -/
def cutDefault? (tokens : List Token) : Option (List Token × Token × List Token) :=
  Nesting.cut? Token.side (Token.is .eq) 0 tokens

/-- The parameter of some tokens with a default value: its name last, its type before that. -/
def paramOf (tokens : List Token) (value : Option String) : Field :=
  match tokens.getLast? with
  | some last =>
    if 2 ≤ tokens.length && last.item.isName then ⟨last.spelling, joinType tokens.dropLast, value⟩
    else ⟨"", joinType tokens, value⟩
  | none => ⟨"", joinType tokens, value⟩

/-- A parameter without a default is all head. -/
theorem param?_of_none {tokens : List Token} (hne : tokens ≠ []) (h : cutDefault? tokens = none) :
    param? tokens = some (paramOf tokens none) := by
  rw [cutDefault?] at h
  unfold param? paramOf
  rw [if_neg (by simpa using hne), h]
  simp only
  cases tokens.getLast? with
  | none => rfl
  | some last => exact (apply_ite some _ _ _).symm

/-- A parameter with a default is cut at its sign. -/
theorem param?_of_some {tokens before after : List Token} {sign : Token}
    (h : cutDefault? tokens = some (before, sign, after)) :
    param? tokens = some (paramOf before (some (joinTight after))) := by
  have hne : tokens.isEmpty = false := by
    cases tokens with
    | nil => cases h
    | cons => rfl
  rw [cutDefault?] at h
  unfold param? paramOf
  rw [hne, h]
  simp only
  cases before.getLast? with
  | none => rfl
  | some last => exact (apply_ite some _ _ _).symm

private theorem exists_param? {tokens : List Token} (h : tokens ≠ []) :
    ∃ f, param? tokens = some f := by
  cases hc : cutDefault? tokens with
  | none => exact ⟨_, param?_of_none h hc⟩
  | some cut => exact ⟨_, param?_of_some hc⟩

/-- Lexemes that are not all commas give a parameter. -/
theorem parametersOf_ne_nil {ls : List Lexeme} {l : Lexeme} (hl : l ∈ ls)
    (hne : l ≠ .symbol .comma) : parametersOf ls ≠ [] := by
  have hcomma : Token.is .comma l.token = false := beq_eq_false_iff_ne.mpr hne
  obtain ⟨part, hmem, hpart⟩ := @Nesting.exists_mem_split _ Token.side (Token.is .comma) _ _
    (List.mem_map_of_mem hl) hcomma 0
  obtain ⟨f, hf⟩ := exists_param? hpart
  rw [parametersOf_eq]
  exact List.ne_nil_of_mem (List.mem_filterMap.mpr ⟨part, hmem, hf⟩)

/-- Without a comma outside brackets there is one parameter. -/
theorem parametersOf_singleton {ls : List Lexeme} (hbalanced : depthThrough 0 ls = some 0)
    (hcomma : ¬StandsOutside (.symbol .comma) ls) {f : Field}
    (hf : param? (ls.map Lexeme.token) = some f) : parametersOf ls = [f] := by
  have hsplit : Nesting.split Token.side (Token.is .comma) 0 (ls.map Lexeme.token ++ []) =
      [ls.map Lexeme.token ++ []] :=
    Nesting.split_append (fun before t after hts hd => not_is_of_not_standsOutside hbalanced hcomma
      (map_item_token ls) hts (by simpa using hd)) rfl
  rw [List.append_nil] at hsplit
  rw [parametersOf_eq, hsplit, List.filterMap_cons_some hf]
  rfl

/-- The name of a parameter is its last token, and the others are its type. -/
theorem paramOf_name {type : List Lexeme} (hne : type ≠ []) (name : String)
    (value : Option String) :
    paramOf (type.map Lexeme.token ++ [Lexeme.token (.ident name)]) value =
      ⟨name, typeText type, value⟩ := by
  have hlength : 2 ≤ (type.map Lexeme.token ++ [Lexeme.token (.ident name)]).length := by
    have hpos := List.length_pos_iff.mpr hne
    rw [List.length_append, List.length_map, List.length_singleton]
    omega
  rw [paramOf, List.getLast?_concat]
  simp only [List.dropLast_concat, decide_eq_true hlength]
  rfl

/-- Lexemes without an `=` outside all brackets are passed in search of a default value. -/
theorem cutDefault?_append {ls : List Lexeme} (hbalanced : depthThrough 0 ls = some 0)
    (heq : ¬StandsOutside (.symbol .eq) ls) (rest : List Lexeme) :
    cutDefault? ((ls ++ rest).map Lexeme.token) =
      (cutDefault? (rest.map Lexeme.token)).map fun cut =>
        (ls.map Lexeme.token ++ cut.1, cut.2) := by
  have hdepth : depthOf ((ls.map Lexeme.token).map Located.item) = 0 := by
    have hzero := depthOf_of_depthThrough hbalanced
    rw [map_item_token]
    omega
  have hpass := @Nesting.cut?_passing _ Token.side (fun ts => depthOf (ts.map Located.item)) rfl
    (fun _ _ => rfl) (Token.is .eq) 0 (ls.map Lexeme.token) (rest.map Lexeme.token)
    fun before t after hts hd => not_is_of_not_standsOutside hbalanced heq (map_item_token ls) hts
      (by simpa using hd)
  rw [hdepth] at hpass
  rw [List.map_append]
  exact hpass

namespace Parameter

variable (p : Parameter)

/-- The type and the name are followed by a default value or by nothing. -/
theorem param?_valued (v : List Lexeme) :
    param? ((p.type.lexemes ++ .ident p.name :: .symbol .eq :: v).map Lexeme.token) =
      some ⟨p.name, typeText p.type.lexemes, some (tightText v)⟩ := by
  have hcut := cutDefault?_append p.type.balanced p.type.unassigned
    (.ident p.name :: .symbol .eq :: v)
  have hname : cutDefault? ((Lexeme.ident p.name :: .symbol .eq :: v).map Lexeme.token) =
      some ([Lexeme.token (.ident p.name)], Lexeme.token (.symbol .eq), v.map Lexeme.token) := rfl
  rw [hname] at hcut
  rw [param?_of_some hcut, paramOf_name p.type.ne_nil]
  rfl

theorem param?_lexemes : param? (p.lexemes.map Lexeme.token) = some p.declared := by
  rw [lexemes, tail, declared]
  cases p.value with
  | none =>
    have hcut := cutDefault?_append p.type.balanced p.type.unassigned [.ident p.name]
    have hname : cutDefault? ([Lexeme.ident p.name].map Lexeme.token) = none := rfl
    rw [hname] at hcut
    have hparam := param?_of_none (by simp) hcut
    rw [List.map_append, List.map_singleton, paramOf_name p.type.ne_nil] at hparam
    rw [List.map_append]
    exact hparam
  | some v => exact p.param?_valued v.lexemes

theorem found_ne_nil : p.found ≠ [] :=
  parametersOf_ne_nil (List.mem_append_right _ List.mem_cons_self) Lexeme.noConfusion

end Parameter

/-- Of the places where a lexeme stands outside one is the first. -/
theorem StandsOutside.exists_first {l : Lexeme} {ls : List Lexeme} (h : StandsOutside l ls) :
    ∃ before after, ls = before ++ l :: after ∧ depthThrough 0 before = some 0 ∧
      ¬StandsOutside l before := by
  obtain ⟨before, after, hls, hd⟩ := h
  induction hn : before.length using Nat.strong_induction_on generalizing before after with
  | _ n ih =>
    by_cases hout : StandsOutside l before
    · obtain ⟨first, between, hbefore, hfirst⟩ := hout
      refine ih first.length ?_ first (between ++ l :: after) ?_ hfirst rfl
      · rw [← hn, hbefore, List.length_append, List.length_cons]
        omega
      · rw [hls, hbefore, List.append_assoc, List.cons_append]
    · exact ⟨before, after, hls, hd, hout⟩

/-- Tight texts are put together as their lexemes are. -/
theorem tightText_append (ls ms : List Lexeme) :
    tightText (ls ++ ms) = tightText ls ++ tightText ms := by
  rw [tightText, tightText, tightText, joinTight, joinTight, joinTight, List.map_append,
    List.map_append, String.join_append]

/-- A text without separators is shorter than one that goes on with a comma. -/
theorem tightText_ne (ls ms : List Lexeme) :
    tightText (ls ++ .symbol .comma :: ms) ≠ tightText ls := by
  intro h
  rw [tightText_append, ← List.singleton_append, tightText_append] at h
  have hlength := congrArg (fun s => s.toList.length) h
  have hcomma : (tightText [.symbol .comma]).toList.length = 1 := rfl
  simp only [String.toList_append, List.length_append, hcomma] at hlength
  omega

namespace Parameter

variable (p : Parameter)

/-- Where the first comma outside all brackets stands: in the type or in the default value. -/
theorem outside_cases {before after : List Lexeme}
    (h : p.lexemes = before ++ .symbol .comma :: after) :
    (∃ others, p.type.lexemes = before ++ .symbol .comma :: others ∧ .ident p.name ∈ after) ∨
      ∃ v w, p.value = some v ∧ v.lexemes = w ++ .symbol .comma :: after ∧
        before = p.type.lexemes ++ .ident p.name :: .symbol .eq :: w := by
  rw [lexemes] at h
  rcases List.append_eq_append_iff.mp h with ⟨as, hbefore, hrest⟩ | ⟨bs, htype, hrest⟩
  · right
    cases as with
    | nil => cases hrest
    | cons a as =>
      obtain ⟨rfl, htail⟩ := List.cons.inj hrest
      rw [tail] at htail
      cases hv : p.value with
      | none =>
        rw [hv] at htail
        cases as <;> cases htail
      | some v =>
        rw [hv] at htail
        cases as with
        | nil => cases htail
        | cons a as =>
          obtain ⟨rfl, hvalue⟩ := List.cons.inj htail
          exact ⟨v, as, rfl, hvalue, hbefore⟩
  · left
    cases bs with
    | nil => cases hrest
    | cons b bs =>
      obtain ⟨rfl, hafter⟩ := List.cons.inj hrest
      exact ⟨bs, htype, hafter ▸ List.mem_append_right _ List.mem_cons_self⟩

/-- A parameter is found as it is declared exactly if it has no comma outside all brackets. -/
theorem found_eq_iff : p.found = [p.declared] ↔ ¬StandsOutside (.symbol .comma) p.lexemes := by
  constructor
  · intro h hout
    obtain ⟨before, after, hls, hbalanced, hfirst⟩ := hout.exists_first
    rw [found, hls, parametersOf_append hbalanced] at h
    rcases p.outside_cases hls with ⟨others, htype, hname⟩ | ⟨v, w, hv, hvalue, hbefore⟩
    · -- Both sides of a comma in the type have a parameter.
      have hafter := List.length_pos_iff.mpr (parametersOf_ne_nil hname Lexeme.noConfusion)
      have hbefore : parametersOf before ≠ [] := by
        have hhead := p.type.head_ne
        cases before with
        | nil =>
          rw [htype] at hhead
          exact absurd rfl hhead
        | cons l before =>
          refine parametersOf_ne_nil List.mem_cons_self fun hl => hhead ?_
          rw [htype, hl]
          rfl
      have hpos := List.length_pos_iff.mpr hbefore
      have hlength := congrArg List.length h
      rw [List.length_append, List.length_singleton] at hlength
      omega
    · -- A comma in the default value cuts that short.
      have hparam : param? (before.map Lexeme.token) =
          some ⟨p.name, typeText p.type.lexemes, some (tightText w)⟩ := by
        rw [hbefore]
        exact p.param?_valued w
      rw [parametersOf_singleton hbalanced hfirst hparam, List.singleton_append] at h
      have hfield := (List.cons.inj h).1
      rw [declared, hv, Option.map_some, hvalue] at hfield
      exact tightText_ne w after (Option.some.inj (Field.mk.inj hfield).2.2).symm
  · intro h
    exact parametersOf_singleton p.balanced h p.param?_lexemes

end Parameter

/-! ## Lexemes alone -/

namespace Nesting

variable {τ σ : Type}

/-- Cutting does not depend on what the tokens are made of. -/
theorem cut?_map (f : τ → σ) (side : σ → Side) (p : σ → Bool) (depth : Int) (ts : List τ) :
    cut? side p depth (ts.map f) =
      (cut? (fun t => side (f t)) (fun t => p (f t)) depth ts).map fun cut =>
        (cut.1.map f, f cut.2.1, cut.2.2.map f) := by
  induction ts generalizing depth with
  | nil => rfl
  | cons t ts ih =>
    rw [List.map_cons, cut?, cut?]
    cases side (f t) with
    | opening =>
      simp only [ih]
      cases cut? (fun t => side (f t)) (fun t => p (f t)) (depth + 1) ts <;> rfl
    | closing =>
      simp only [ih]
      cases cut? (fun t => side (f t)) (fun t => p (f t)) (depth - 1) ts <;> rfl
    | plain =>
      simp only [ih]
      cases depth == 0 && p (f t) with
      | true => rfl
      | false => cases cut? (fun t => side (f t)) (fun t => p (f t)) depth ts <;> rfl

end Nesting

/-- Tokens without their places are those of their lexemes. -/
theorem map_unplaced (ts : List Token) :
    ts.map Token.unplaced = (ts.map Located.item).map Lexeme.token := by
  rw [List.map_map]
  rfl

/-- The text of a type does not depend on where its tokens stood. -/
theorem joinType_map (ts : List Token) : joinType (ts.map Token.unplaced) = joinType ts := by
  rw [joinType_eq, map_item_unplaced, ← joinType_eq]

/-- A parameter does not depend on where its tokens stood. -/
theorem paramOf_map (ts : List Token) (value : Option String) :
    paramOf (ts.map Token.unplaced) value = paramOf ts value := by
  rw [paramOf, paramOf, List.getLast?_map, List.length_map, ← List.map_dropLast, joinType_map,
    joinType_map]
  cases ts.getLast? with
  | none => rfl
  | some last => rfl

/-- A parameter is read from the lexemes of its tokens. -/
theorem param?_map (ts : List Token) : param? (ts.map Token.unplaced) = param? ts := by
  have hmap : cutDefault? (ts.map Token.unplaced) = (cutDefault? ts).map fun cut =>
      (cut.1.map Token.unplaced, cut.2.1.unplaced, cut.2.2.map Token.unplaced) :=
    Nesting.cut?_map _ _ _ _ _
  cases hcut : cutDefault? ts with
  | none =>
    rw [hcut] at hmap
    cases ts with
    | nil => rfl
    | cons t ts =>
      have hne : (t :: ts).map Token.unplaced ≠ [] := List.cons_ne_nil _ _
      rw [param?_of_none (List.cons_ne_nil _ _) hcut, param?_of_none hne hmap, paramOf_map]
  | some cut =>
    rw [hcut] at hmap
    rw [param?_of_some hcut, param?_of_some hmap, paramOf_map, Shape.joinTight_map]

/-- The parameters between commas depend on the lexemes only. -/
theorem filterMap_param? (ts : List Token) :
    (splitCommas ts).filterMap param? = parametersOf (ts.map Located.item) := by
  rw [parametersOf, ← map_unplaced, Shape.splitCommas_map, List.filterMap_map]
  exact (List.filterMap_congr fun part _ => param?_map part).symm

end VertexLanes
