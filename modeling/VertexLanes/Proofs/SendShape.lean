import VertexLanes.Proofs.LexemeDepth
import VertexLanes.Body.Annotate

/-!
# Names and shapes of sends

A send through the context is named by its two arguments, with an underscore
before each, and the annotation splits that name at its underscores again. If the
name has exactly four parts, no argument has an underscore and the last two parts
are the arguments; if it has more, the arguments are taken from the call itself.
Either way nothing of one argument ends up in the other. The call has two
arguments because each of them balances its brackets and has no comma outside.
-/

namespace VertexLanes

open Cursor (depthThrough depthThrough_append)

namespace Text

/-- A text that is not split is its only part. -/
theorem eq_of_splitAtChar {mark : Char} {text part : List Char}
    (h : splitAtChar mark text = [part]) : part = text := by
  have hback := intercalate_splitAtChar mark text
  rw [h] at hback
  simpa [List.intercalate] using hback

end Text

/-! ## Names of sends -/

/-- The characters of four texts put together. -/
theorem toList_append_append (a v b m : String) :
    (a ++ v ++ b ++ m).toList = a.toList ++ v.toList ++ b.toList ++ m.toList := by
  rw [String.toList_append, String.toList_append, String.toList_append]

/-- The spelling of a send, split at underscores, begins with its two marker words. -/
theorem splitAtChar_sendSpelling (v m : String) :
    Text.splitAtChar '_' (Shape.sendSpelling v m).toList =
      "context".toList :: "signal".toList ::
        (Text.splitAtChar '_' v.toList ++ Text.splitAtChar '_' m.toList) := by
  have hlist : (Shape.sendSpelling v m).toList =
      "context".toList ++ '_' :: ("signal".toList ++ ['_']) ++ v.toList ++ ['_'] ++ m.toList :=
    toList_append_append _ v _ m
  have hsplit : ∀ first second : List Char,
      Text.splitAtChar '_' (first ++ '_' :: (second ++ ['_']) ++ v.toList ++ ['_'] ++ m.toList) =
        Text.splitAtChar '_' first ++ (Text.splitAtChar '_' second ++
          (Text.splitAtChar '_' v.toList ++ Text.splitAtChar '_' m.toList)) := by
    intro first second
    simp only [List.append_assoc, List.cons_append, List.nil_append, Text.splitAtChar_append]
  rw [hlist, hsplit]
  rfl

/-- A name that is made of two texts gives these back if it has four parts. If it has more, or one
of the texts is empty, the arguments of the call are taken. -/
theorem exists_sendParts? (v m : String) (vertexTokens messageTokens : List String) :
    ∃ parts, (parts = (v, m) ∨ parts = (renderExpr vertexTokens, renderExpr messageTokens)) ∧
      ∀ n vertex message : Node String, n.spelling = Shape.sendSpelling v m →
        n.children = [vertex, message] → vertex.tokens = vertexTokens →
        message.tokens = messageTokens → sendParts? n = some parts := by
  have hsplit := splitAtChar_sendSpelling v m
  obtain ⟨part, parts, hv⟩ := List.exists_cons_of_ne_nil (Text.splitAtChar_ne_nil '_' v.toList)
  obtain ⟨part', parts', hm⟩ := List.exists_cons_of_ne_nil (Text.splitAtChar_ne_nil '_' m.toList)
  rw [hv, hm] at hsplit
  by_cases hfour : parts = [] ∧ parts' = [] ∧ ¬(part.isEmpty || part'.isEmpty) = true
  · obtain ⟨rfl, rfl, hne⟩ := hfour
    obtain rfl := Text.eq_of_splitAtChar hv
    obtain rfl := Text.eq_of_splitAtChar hm
    refine ⟨(v, m), Or.inl rfl, fun n vertex message hs hc _ _ => ?_⟩
    rw [sendParts?, hs, hsplit]
    simp only [List.singleton_append, if_neg hne, String.ofList_toList]
  · refine ⟨_, Or.inr rfl, fun n vertex message hs hc hvertex hmessage => ?_⟩
    subst hvertex hmessage
    rw [sendParts?, hs, hsplit, hc]
    simp only
    split
    · next a b vertexPart messagePart hparts =>
      obtain ⟨-, -, hparts⟩ : _ ∧ _ ∧ part :: parts ++ part' :: parts' =
          [vertexPart, messagePart] := by simpa using hparts
      cases parts with
      | nil =>
        obtain ⟨rfl, rfl, rfl⟩ : part = vertexPart ∧ part' = messagePart ∧ parts' = [] := by
          simpa using hparts
        have hempty : (part.isEmpty || part'.isEmpty) = true :=
          Decidable.byContradiction fun hne => hfour ⟨rfl, rfl, hne⟩
        rw [if_pos hempty]
      | cons => simp at hparts
    · rfl

/-- The spelling of a send begins with the marker. -/
theorem isPrefixOf_sendSpelling (v m : String) :
    sendMarker.toList.isPrefixOf (Shape.sendSpelling v m).toList = true := by
  have hlist : (Shape.sendSpelling v m).toList =
      sendMarker.toList ++ v.toList ++ ['_'] ++ m.toList := toList_append_append _ v _ m
  rw [hlist, List.isPrefixOf_iff_prefix, List.append_assoc, List.append_assoc]
  exact List.prefix_append _ _

/-! ## The shape of a send -/

/-- Whether a lexeme stands somewhere among others, outside all their brackets. -/
def StandsOutside (l : Lexeme) (ls : List Lexeme) : Prop :=
  ∃ before after, ls = before ++ l :: after ∧ depthThrough 0 before = some 0

/-- A lexeme stands outside brackets if the lexemes before one place of it are balanced. -/
theorem standsOutside_iff {l : Lexeme} {ls : List Lexeme} :
    StandsOutside l ls ↔
      ∃ i < ls.length, ls[i]? = some l ∧ depthThrough 0 (ls.take i) = some 0 := by
  constructor
  · rintro ⟨before, after, rfl, hd⟩
    exact ⟨before.length, by simp, by simp, by simpa using hd⟩
  · rintro ⟨i, hi, hat, hd⟩
    refine ⟨ls.take i, ls.drop (i + 1), ?_, hd⟩
    obtain ⟨_, hat⟩ := List.getElem?_eq_some_iff.mp hat
    rw [← hat, ← List.drop_eq_getElem_cons hi, List.take_append_drop]

instance (l : Lexeme) (ls : List Lexeme) : Decidable (StandsOutside l ls) :=
  decidable_of_iff _ standsOutside_iff.symm

/-- A symbol that never stands outside is no token before which the brackets balance. -/
theorem not_is_of_not_standsOutside {ls : List Lexeme} {last : Nat}
    (hbalanced : depthThrough 0 ls = some last) {mark : Symbol}
    (hmark : ¬StandsOutside (.symbol mark) ls) {tokens before after : List Token} {t : Token}
    (htokens : tokens.map Located.item = ls) (hts : tokens = before ++ t :: after)
    (hdepth : depthOf (before.map Located.item) = 0) : t.is mark = false := by
  cases his : t.is mark with
  | false => rfl
  | true =>
    have hls : ls = before.map Located.item ++ .symbol mark :: after.map Located.item := by
      rw [← htokens, hts, List.map_append, List.map_cons, eq_of_beq his]
    rw [hls, depthThrough_append] at hbalanced
    obtain ⟨d, hd, -⟩ := Option.bind_eq_some_iff.mp hbalanced
    have hzero := depthOf_of_depthThrough hd
    rw [hdepth] at hzero
    obtain rfl : d = 0 := by omega
    exact absurd ⟨_, _, hls, hd⟩ hmark

/-- Lexemes that can be one argument of a call: some, with balanced brackets and without a comma
outside all of them. -/
structure CallArgument (ls : List Lexeme) : Prop where
  ne_nil : ls ≠ []
  balanced : depthThrough 0 ls = some 0
  comma_inside : ∀ before after, ls = before ++ .symbol .comma :: after →
    depthThrough 0 before ≠ some 0

/-- An argument is balanced and has no comma outside brackets. -/
theorem callArgument_iff {ls : List Lexeme} :
    CallArgument ls ↔ ls ≠ [] ∧ depthThrough 0 ls = some 0 ∧
      ¬StandsOutside (.symbol .comma) ls := by
  constructor
  · rintro ⟨hne, hbalanced, hcomma⟩
    exact ⟨hne, hbalanced, fun ⟨before, after, hls, hd⟩ => hcomma before after hls hd⟩
  · rintro ⟨hne, hbalanced, hcomma⟩
    exact ⟨hne, hbalanced, fun before after hls hd => hcomma ⟨before, after, hls, hd⟩⟩

instance (ls : List Lexeme) : Decidable (CallArgument ls) :=
  decidable_of_iff _ callArgument_iff.symm

/-- The lexemes of a send through the context, without the semicolon. -/
def signalCall (v m : List Lexeme) : List Lexeme :=
  .ident "context" :: .symbol .dot :: .ident "signal" :: .symbol .lparen ::
    (v ++ .symbol .comma :: m ++ [.symbol .rparen])

namespace Nesting

section
variable {τ : Type} {side : τ → Side} {p : τ → Bool} {depth : Int} {t : τ} {ts part : List τ}
  {parts : List (List τ)}

/-- A separator outside brackets begins a new part. -/
theorem split_cons_cut (hside : side t = .plain) (hp : p t = true) :
    split side p 0 (t :: ts) = [] :: split side p 0 ts := by
  rw [split, hside, hp]
  rfl

/-- A token at which nothing is cut belongs to the first part. -/
theorem split_cons_grow (ht : side t = .plain → depth = 0 → p t = false)
    (hs : split side p (depth + (side t).change) ts = part :: parts) :
    split side p depth (t :: ts) = (t :: part) :: parts := by
  rw [split]
  cases hside : side t with
  | opening =>
    rw [hside] at hs
    simp only [Side.change] at hs ⊢
    rw [hs]
  | closing =>
    rw [hside] at hs
    simp only [Side.change] at hs ⊢
    rw [Int.sub_eq_add_neg, hs]
  | plain =>
    have hnot : (depth == 0 && p t) = false := by
      by_cases hd : depth = 0
      · rw [ht hside hd, Bool.and_false]
      · rw [beq_eq_false_iff_ne.mpr hd, Bool.false_and]
    rw [hside] at hs
    simp only [Side.change, Int.add_zero] at hs ⊢
    rw [hnot, hs]
    rfl

/-- Splitting gives at least one part. -/
theorem split_ne_nil (side : τ → Side) (p : τ → Bool) (depth : Int) (ts : List τ) :
    split side p depth ts ≠ [] := by
  cases ts with
  | nil => exact List.cons_ne_nil _ _
  | cons t ts =>
    rw [split]
    simp only
    split
    · split <;> exact List.cons_ne_nil _ _
    · split <;> exact List.cons_ne_nil _ _
    · split
      · exact List.cons_ne_nil _ _
      · split <;> exact List.cons_ne_nil _ _

/-- Either a token is cut at, or it belongs to the first part. -/
theorem split_cons_cases (side : τ → Side) (p : τ → Bool) (depth : Int) (t : τ) (ts : List τ) :
    (p t = true ∧ split side p depth (t :: ts) = [] :: split side p depth ts) ∨
      ∃ part parts, split side p (depth + (side t).change) ts = part :: parts ∧
        split side p depth (t :: ts) = (t :: part) :: parts := by
  by_cases hcut : side t = .plain ∧ depth = 0 ∧ p t = true
  · obtain ⟨hside, rfl, hp⟩ := hcut
    exact Or.inl ⟨hp, split_cons_cut hside hp⟩
  · obtain ⟨part, parts, hs⟩ :=
      List.exists_cons_of_ne_nil (split_ne_nil side p (depth + (side t).change) ts)
    refine Or.inr ⟨part, parts, hs, split_cons_grow (fun hside hd => ?_) hs⟩
    exact Bool.eq_false_iff.mpr fun hp => hcut ⟨hside, hd, hp⟩

end

/-- Tokens without a separator outside brackets are added to the first part. -/
theorem split_append {p : Token → Bool} {depth : Int} {ts rest part : List Token}
    {parts : List (List Token)}
    (h : ∀ before t after, ts = before ++ t :: after →
      depth + depthOf (before.map Located.item) = 0 → p t = false)
    (hrest : split Token.side p (depth + depthOf (ts.map Located.item)) rest = part :: parts) :
    split Token.side p depth (ts ++ rest) = (ts ++ part) :: parts := by
  induction ts generalizing depth with
  | nil =>
    rw [List.map_nil, depthOf, Int.add_zero] at hrest
    exact hrest
  | cons t ts ih =>
    rw [List.map_cons, depthOf, ← Int.add_assoc] at hrest
    refine split_cons_grow (fun _ hd => h [] t ts rfl (by rw [hd]; rfl)) ?_
    refine ih (fun before u after hts hdepth => ?_) hrest
    refine h (t :: before) u after (by rw [hts, List.cons_append]) ?_
    rw [List.map_cons, depthOf, ← Int.add_assoc]
    exact hdepth

end Nesting

section
variable {v m : List Lexeme} {vertex message : List Token}

/-- Two arguments and the comma between them are balanced. -/
theorem balanced_pair (hv : CallArgument v) (hm : CallArgument m) :
    depthThrough 0 (v ++ .symbol .comma :: m) = some 0 := by
  rw [depthThrough_append, hv.balanced]
  exact hm.balanced

/-- No token of an argument that stands outside brackets is a comma. -/
theorem CallArgument.not_comma (hv : CallArgument v) (hvertex : vertex.map Located.item = v)
    {before after : List Token} {t : Token} (hts : vertex = before ++ t :: after)
    (hdepth : depthOf (before.map Located.item) = 0) : t.is .comma = false := by
  refine not_is_of_not_standsOutside hv.balanced ?_ hvertex hts hdepth
  rintro ⟨before, after, hls, hd⟩
  exact hv.comma_inside before after hls hd

/-- Two arguments with a comma between them are told apart. -/
theorem splitCommas_pair (hv : CallArgument v) (hm : CallArgument m)
    (hvertex : vertex.map Located.item = v) (hmessage : message.map Located.item = m)
    {comma : Token} (hcomma : comma.item = .symbol .comma) :
    splitCommas (vertex ++ comma :: message) = [vertex, message] := by
  have hdepth : ∀ {ls : List Lexeme}, CallArgument ls → depthOf ls = 0 := fun h => by
    have hzero := depthOf_of_depthThrough h.balanced
    omega
  have hlast : Nesting.split Token.side (Token.is .comma) 0 (message ++ []) = [message ++ []] :=
    Nesting.split_append
      (fun before t after hts hd => hm.not_comma hmessage hts (by simpa using hd)) rfl
  rw [List.append_nil] at hlast
  have hsecond : Nesting.split Token.side (Token.is .comma) 0 (comma :: message) =
      [[], message] := by
    have hside : comma.side = .plain := by rw [Token.side, hcomma]; rfl
    have his : comma.is .comma = true := by rw [Token.is, hcomma]; rfl
    rw [Nesting.split, hside, his, hlast]
    rfl
  have hfirst : Nesting.split Token.side (Token.is .comma) 0 (vertex ++ comma :: message) =
      (vertex ++ []) :: [message] := by
    refine Nesting.split_append
      (fun before t after hts hd => hv.not_comma hvertex hts (by simpa using hd)) ?_
    rw [hvertex, hdepth hv, Int.add_zero, hsecond]
  rw [splitCommas, if_neg (by simp), hfirst, List.append_nil]

end

namespace Shape

/-- A group closes at its end if no token before the last one closes it. -/
theorem closesAtEnd_cons (depth : Int) (t : Token) (ts : List Token) :
    closesAtEnd depth (t :: ts) = ((depth + t.side.change != 0 || ts.isEmpty) &&
      closesAtEnd (depth + t.side.change) ts) := by
  rw [closesAtEnd]
  cases t.side <;> simp [Side.change, Int.sub_eq_add_neg]

/-- The depth after a bracket, as an integer. -/
theorem change_of_depthAfter {depth d : Nat} {side : Side}
    (h : Cursor.depthAfter depth side = some d) : (depth : Int) + side.change = d := by
  cases side with
  | opening =>
    cases h
    rfl
  | closing =>
    rw [Cursor.depthAfter] at h
    split at h
    · cases h
    · cases h
      simp only [Side.change]
      omega
  | plain =>
    cases h
    exact Int.add_zero _

/-- A group is closed by its closing bracket and not before. -/
theorem closesAtEnd_of_depthThrough {depth : Nat} {inner : List Token} {closing : Token}
    (h : depthThrough depth (inner.map Located.item) = some 0) (hc : closing.side = .closing) :
    closesAtEnd (depth + 1) (inner ++ [closing]) = true := by
  induction inner generalizing depth with
  | nil =>
    cases h
    rw [List.nil_append, closesAtEnd, hc]
    rfl
  | cons t inner ih =>
    obtain ⟨d, hd, hrest⟩ := Option.bind_eq_some_iff.mp h
    have hstep : (depth : Int) + 1 + t.side.change = d + 1 := by
      have hchange := @change_of_depthAfter depth d t.side hd
      omega
    have hopen : ((d : Int) + 1 != 0) = true := bne_iff_ne.mpr (by omega)
    rw [List.cons_append, closesAtEnd_cons, hstep, hopen, ih hrest]
    rfl

/-- Nothing inside a group stands outside all brackets. -/
theorem not_outside_of_depthThrough {depth last : Nat} {inner : List Token}
    (h : depthThrough depth (inner.map Located.item) = some last) :
    ∀ x ∈ Nesting.mark Token.side (depth + 1) inner, x.2 = false := by
  induction inner generalizing depth with
  | nil => exact fun _ hx => absurd hx List.not_mem_nil
  | cons t inner ih =>
    obtain ⟨d, hd, hrest⟩ := Option.bind_eq_some_iff.mp h
    have hmark := @mark_append (depth + 1) [t] inner
    have hstep : (depth : Int) + 1 + depthOf [t.item] = d + 1 := by
      have hchange := change_of_depthAfter hd
      rw [depthOf, depthOf]
      omega
    rw [List.singleton_append, List.map_singleton, hstep] at hmark
    rw [hmark, List.forall_mem_append]
    refine ⟨?_, ih hrest⟩
    intro x hx
    rw [Nesting.mark] at hx
    cases hside : t.side with
    | opening =>
      rw [hside] at hx
      rw [List.mem_singleton.mp hx]
    | closing =>
      rw [hside] at hx
      rw [List.mem_singleton.mp hx]
    | plain =>
      rw [hside] at hx
      rw [List.mem_singleton.mp hx]
      exact beq_eq_false_iff_ne.mpr (by omega)

section
variable {context dot signal opening closing : Token} {inner : List Token}
  (hcontext : context.item = .ident "context") (hdot : dot.item = .symbol .dot)
  (hsignal : signal.item = .ident "signal") (hopening : opening.item = .symbol .lparen)
include hcontext hdot hsignal hopening

/-- A call of the send function declares nothing. -/
theorem declares_signal (rest : List Token) :
    declares (context :: dot :: signal :: opening :: rest) = false := by
  rw [declares, List.map_cons, List.map_cons, List.map_cons, List.map_cons, hcontext, hdot, hsignal,
    hopening]
  rfl

/-- A call of the send function assigns nothing. -/
theorem assigns_signal (hinner : depthThrough 0 (inner.map Located.item) = some 0)
    (hclosing : closing.side = .closing) :
    assigns (context :: dot :: signal :: opening :: (inner ++ [closing])) = false := by
  have hlast : Nesting.mark Token.side (1 + depthOf (inner.map Located.item)) [closing] =
      [(closing, false)] := by
    rw [Nesting.mark, hclosing]
    rfl
  have hmark : Nesting.mark Token.side 0 (context :: dot :: signal :: opening ::
      (inner ++ [closing])) = (context, true) :: (dot, true) :: (signal, true) ::
        (opening, false) :: (Nesting.mark Token.side 1 inner ++ [(closing, false)]) := by
    simp only [Nesting.mark, Token.side, hcontext, hdot, hsignal, hopening, Lexeme.side]
    rw [← hlast, ← mark_append]
    rfl
  rw [assigns, hmark, List.any_eq_false]
  intro x hx
  simp only [List.mem_cons, List.mem_append, List.not_mem_nil, or_false] at hx
  rcases hx with rfl | rfl | rfl | rfl | hx | rfl
  · simp [Token.is, hcontext]
  · simp [Token.is, hdot]
  · simp [Token.is, hsignal]
  · simp
  · simp [@not_outside_of_depthThrough 0 0 inner hinner x hx]
  · simp

/-- A call of the send function with two arguments is spelled as a send of them. -/
theorem call?_signal (hinner : depthThrough 0 (inner.map Located.item) = some 0)
    (hclosing : closing.item = .symbol .rparen) {vertex message : List Token}
    (hparts : splitCommas inner = [vertex, message]) :
    call? (context :: dot :: signal :: opening :: (inner ++ [closing])) =
      some ⟨.call, sendSpelling (joinTight vertex) (joinTight message),
        context :: dot :: signal :: opening :: (inner ++ [closing]),
        [expression vertex, expression message],
        spanOf (context :: dot :: signal :: opening :: (inner ++ [closing]))⟩ := by
  have hbefore : ∀ t ∈ [context, dot, signal], Token.is .lparen t = false := by
    simp [Token.is, hcontext, hdot, hsignal]
  have hat : Token.is .lparen opening = true := by rw [Token.is, hopening]; rfl
  have hcallee : (context :: dot :: signal :: opening :: (inner ++ [closing])).takeWhile
      (fun t => !Token.is .lparen t) = [context, dot, signal] := by
    simp [hat, hbefore context, hbefore dot, hbefore signal]
  have hgroup : (context :: dot :: signal :: opening :: (inner ++ [closing])).dropWhile
      (fun t => !Token.is .lparen t) = opening :: (inner ++ [closing]) := by
    simp [hat, hbefore context, hbefore dot, hbefore signal]
  have hcloses : closesAtEnd 0 (opening :: (inner ++ [closing])) = true := by
    have hside : opening.side = .opening := by rw [Token.side, hopening]; rfl
    rw [closesAtEnd_cons, hside]
    exact closesAtEnd_of_depthThrough hinner (by rw [Token.side, hclosing]; rfl)
  have hlast : (context :: dot :: signal :: opening :: (inner ++ [closing])).getLast?.any
      (Token.is .rparen) = true := by
    rw [← List.cons_append, ← List.cons_append, ← List.cons_append, ← List.cons_append,
      List.getLast?_concat, Option.any_some, Token.is, hclosing]
    rfl
  have hname : joinTight [context, dot, signal] = "context.signal" := by
    simp only [joinTight, List.map_cons, List.map_nil, Token.spelling, hcontext, hdot, hsignal]
    rfl
  have hqualified : [context, dot, signal].all (fun t => inQualifiedName t.item) = true := by
    simp [hcontext, hdot, hsignal, inQualifiedName]
  rw [call?]
  simp only [hcallee, hgroup, hlast, hqualified, hcloses, hname]
  simp [hparts, expression, Node.ofTokens]

end

/-- The shape of a send: a call that is named by its two arguments. -/
theorem statement_signalCall {v m : List Lexeme} (hv : CallArgument v) (hm : CallArgument m)
    {tokens : List Token} (h : tokens.map Located.item = signalCall v m)
    (semicolon : Option Token) :
    ∃ vertex message, vertex.map Located.item = v ∧ message.map Located.item = m ∧
      statement tokens semicolon = ⟨.call, sendSpelling (joinTight vertex) (joinTight message),
        tokens, [expression vertex, expression message], spanOf tokens⟩ := by
  obtain ⟨context, ts, rfl, hcontext, h⟩ := List.map_eq_cons_iff.mp h
  obtain ⟨dot, ts, rfl, hdot, h⟩ := List.map_eq_cons_iff.mp h
  obtain ⟨signal, ts, rfl, hsignal, h⟩ := List.map_eq_cons_iff.mp h
  obtain ⟨opening, ts, rfl, hopening, h⟩ := List.map_eq_cons_iff.mp h
  obtain ⟨inner, ts, rfl, hinner, h⟩ := List.map_eq_append_iff.mp h
  obtain ⟨closing, ts, rfl, hclosing, h⟩ := List.map_eq_cons_iff.mp h
  obtain rfl := List.map_eq_nil_iff.mp h
  have hbalanced : depthThrough 0 (inner.map Located.item) = some 0 := by
    rw [hinner]
    exact balanced_pair hv hm
  obtain ⟨vertex, ts, rfl, hvertex, h⟩ := List.map_eq_append_iff.mp hinner
  obtain ⟨comma, message, rfl, hcomma, hmessage⟩ := List.map_eq_cons_iff.mp h
  have hside : Token.side closing = .closing := by rw [Token.side, hclosing]; rfl
  refine ⟨vertex, message, hvertex, hmessage, ?_⟩
  rw [statement, declares_signal hcontext hdot hsignal hopening,
    assigns_signal hcontext hdot hsignal hopening hbalanced hside,
    call?_signal hcontext hdot hsignal hopening hbalanced hclosing
      (splitCommas_pair hv hm hvertex hmessage hcomma)]
  rfl

end Shape

end VertexLanes
