import Mathlib.Data.List.Basic
import VertexLanes.Class.Parser
import VertexLanes.Proofs.ClauseReading
import VertexLanes.Token.Layout

/-!
# Where classes and members are read

A source file is read item by item, and the body of a class entry by entry. What is
found by one such step stands in the result of the whole, behind what the steps
before found, whatever comes after it. So a class or a member can be followed from
the lexemes at the place where its reading begins.
-/

namespace VertexLanes

/-! ## Texts of lexemes -/

/-- A lexeme that stands nowhere. -/
def Lexeme.token (l : Lexeme) : Token := ⟨l, Span.nowhere⟩

/-- Lexemes written as a type. -/
def typeText (ls : List Lexeme) : String := joinType (ls.map Lexeme.token)

/-- Lexemes written without separators. -/
def tightText (ls : List Lexeme) : String := joinTight (ls.map Lexeme.token)

theorem map_item_token (ls : List Lexeme) : (ls.map Lexeme.token).map Located.item = ls := by
  rw [List.map_map]
  exact List.map_id ls

theorem joinType_eq (ts : List Token) : joinType ts = typeText (ts.map Located.item) := by
  rw [typeText, joinType, joinType, map_item_token]

theorem joinTight_eq (ts : List Token) : joinTight ts = tightText (ts.map Located.item) := by
  rw [tightText, joinTight, joinTight, List.map_map, List.map_map]
  rfl

section
variable {α β : Type} {f : α → List β} {g : α → β} {l : List α} (hf : ∀ a ∈ l, f a ≠ [])
include hf

/-- A list has no more entries than what is made of them, if each of them makes something. -/
theorem length_le_length_flatMap : l.length ≤ (l.flatMap f).length := by
  induction l with
  | nil => exact Nat.le_refl _
  | cons a l ih =>
    obtain ⟨ha, hl⟩ := List.forall_mem_cons.mp hf
    have hpos := List.length_pos_iff.mpr ha
    have hle := ih hl
    rw [List.flatMap_cons, List.length_append, List.length_cons]
    omega

/-- Values without an empty part among them are one for each part only if every part has one. -/
theorem flatMap_eq_map_iff : l.flatMap f = l.map g ↔ ∀ a ∈ l, f a = [g a] := by
  constructor
  · intro h
    induction l with
    | nil => exact fun _ ha => absurd ha List.not_mem_nil
    | cons a l ih =>
      obtain ⟨ha, hl⟩ := List.forall_mem_cons.mp hf
      rw [List.flatMap_cons, List.map_cons, ← List.singleton_append] at h
      have hlength := congrArg List.length h
      have hpos := List.length_pos_iff.mpr ha
      have hle := length_le_length_flatMap hl
      rw [List.length_append, List.length_append, List.length_map] at hlength
      obtain ⟨hfirst, hothers⟩ := List.append_inj h (by rw [List.length_singleton] at *; omega)
      exact List.forall_mem_cons.mpr ⟨hfirst, ih hl hothers⟩
  · intro h
    rw [List.map_eq_flatMap]
    exact List.flatMap_congr h

end

/-! ## Steps -/

namespace Cursor

/-- A run ends where the first lexeme does not belong to it. -/
theorem run_of_ahead {c : Cursor} {p : Lexeme → Bool} {ls rest : List Lexeme} {l : Lexeme}
    (hc : c.ahead = ls ++ l :: rest) (hls : ∀ x ∈ ls, p x = true) (hl : p l = false) :
    (c.run p).map Located.item = ls ∧ (c.afterRun p).ahead = l :: rest := by
  have htake : (c.run p).map Located.item = c.ahead.takeWhile p := (List.takeWhile_map ..).symm
  have hdrop : (c.afterRun p).ahead = c.ahead.dropWhile p := (List.dropWhile_map ..).symm
  rw [htake, hdrop, hc, List.takeWhile_append_of_pos hls, List.dropWhile_append_of_pos hls,
    List.takeWhile_cons_of_neg (by simp [hl]), List.dropWhile_cons_of_neg (by simp [hl]),
    List.append_nil]
  exact ⟨rfl, rfl⟩

/-- Another lexeme ahead is not the mark. -/
theorem at_eq_false_of_ahead {c : Cursor} {l : Lexeme} {ls : List Lexeme} {mark : Symbol}
    (h : c.ahead = l :: ls) (hl : l ≠ .symbol mark) : c.at? mark = false := by
  rw [at?, peek_eq_head?_ahead, h]
  simpa using hl

/-- The cursors that steps lead to, as long as they go on. -/
inductive Stepped {α : Type} (step : Cursor → Parsed (Option α)) (goesOn : Cursor → Bool)
    (start : Cursor) : Cursor → Prop
  | start : Stepped step goesOn start start
  | next {c : Cursor} (h : Stepped step goesOn start c) (hc : goesOn c = true) :
      Stepped step goesOn start (step c).next

/-- What steps find from some cursor on stands behind what they found before it. -/
theorem Stepped.exists_append {α : Type} {step : Cursor → Parsed (Option α)}
    {goesOn : Cursor → Bool} (found : Cursor → List α)
    (hfound : ∀ c, goesOn c = true → found c = (step c).value.toList ++ found (step c).next)
    {start c : Cursor} (h : Stepped step goesOn start c) :
    ∃ before, found start = before ++ found c := by
  induction h with
  | start => exact ⟨[], rfl⟩
  | @next c _ hc ih =>
    obtain ⟨before, hbefore⟩ := ih
    refine ⟨before ++ (step c).value.toList, ?_⟩
    rw [hbefore, hfound c hc, List.append_assoc]

end Cursor

namespace Parser

open VertexLanes.Cursor

/-! ## Items of a file -/

/-- One item of a file that begins with a given token: a class, or something that is skipped. -/
def itemFrom (t : Token) (c : Cursor) : Parsed (Option ClassDef) :=
  match MemberOpening.ofLexeme t.item with
  | .idle => ⟨none, [], c.advance⟩
  | .nested key => (classDef key t.span c.advance).val
  | _ => c.skipItem.map fun _ => none

/-- One item of a file. -/
def item (c : Cursor) : Parsed (Option ClassDef) :=
  match c.rest with
  | [] => ⟨none, [], c⟩
  | t :: _ => itemFrom t c

/-- The places in a file where an item begins. -/
def ItemAt : Cursor → Cursor → Prop := Stepped item fun c => !c.rest.isEmpty

/-- An item is read by its first token. -/
theorem item_of_rest {c : Cursor} {t : Token} {ts : List Token} (hr : c.rest = t :: ts) :
    item c = itemFrom t c := by
  rw [item, hr]

/-- The classes of a file are that of the next item and those behind it. -/
theorem classes_eq {c : Cursor} (hc : c.rest.isEmpty = false) :
    (classes c).value = (item c).value.toList ++ (classes (item c).next).value := by
  rw [classes]
  split
  · next hr =>
    rw [hr] at hc
    cases hc
  · next t ts hr =>
    rw [item_of_rest hr, itemFrom]
    simp only
    cases MemberOpening.ofLexeme t.item <;> rfl

/-- The classes found from an item on are the last of the file. -/
theorem ItemAt.exists_classes {start c : Cursor} (h : ItemAt start c) :
    ∃ before, (classes start).value = before ++ (classes c).value :=
  Stepped.exists_append (fun c => (classes c).value)
    (fun _ hc => classes_eq (by simpa using hc)) h

/-! ## Entries of a class -/

/-- One entry of the body of a class that begins with a given token: a member, or something that is
not kept. -/
def entryFrom (t : Token) (c : Cursor) : Parsed (Option Member) :=
  match MemberOpening.ofLexeme t.item with
  | .access => (c.advance.expect .colon).map fun _ => none
  | .idle => ⟨none, [], c.advance⟩
  | .nested key => (classDef key t.span c.advance).val.map fun _ => none
  | .alias => (skipDeclaration c.advance).map fun _ => none
  | .member => member c

/-- One entry of the body of a class. -/
def entry (c : Cursor) : Parsed (Option Member) :=
  match c.rest with
  | [] => ⟨none, [], c⟩
  | t :: _ => entryFrom t c

/-- The places in the body of a class where an entry begins. -/
def EntryAt : Cursor → Cursor → Prop := Stepped entry fun c => !c.atBlockEnd

/-- An entry of a class is read by its first token. -/
theorem entry_of_rest {c : Cursor} {t : Token} {ts : List Token} (hr : c.rest = t :: ts) :
    entry c = entryFrom t c := by
  rw [entry, hr]

/-- At the end of a class there are no more members. -/
theorem members_of_atBlockEnd {c : Cursor} (hc : c.atBlockEnd = true) :
    (members c).val = ⟨[], [], c⟩ := by
  rw [members]
  split
  · rfl
  · next t ts hr =>
    have hbrace : t.is .rbrace = true := by
      simpa [atBlockEnd, at?, peek, hr, Token.is] using hc
    rw [if_pos hbrace]

/-- The members of a class are that of the next entry and those behind it. -/
theorem members_eq {c : Cursor} (hc : c.atBlockEnd = false) :
    (members c).val.value = (entry c).value.toList ++ (members (entry c).next).val.value := by
  rw [members]
  split
  · next hr => simp [atBlockEnd, hr] at hc
  · next t ts hr =>
    have hbrace : ¬t.is .rbrace = true := by
      simpa [atBlockEnd, at?, peek, hr, Token.is] using hc
    rw [if_neg hbrace, entry_of_rest hr, entryFrom]
    simp only
    cases MemberOpening.ofLexeme t.item <;> rfl

/-- The members found from an entry on are the last of the class. -/
theorem EntryAt.exists_members {start c : Cursor} (h : EntryAt start c) :
    ∃ before, (members start).val.value = before ++ (members c).val.value :=
  Stepped.exists_append (fun c => (members c).val.value)
    (fun _ hc => members_eq (by simpa using hc)) h

/-- The head of a member that is no operator ends where a lexeme does not belong to it. -/
theorem memberHead_of_ahead {c : Cursor} {ls rest : List Lexeme} {l : Lexeme}
    (hc : c.ahead = ls ++ l :: rest) (hls : ∀ x ∈ ls, inHead x = true) (hl : endsHead l = true) :
    (memberHead c).1.map Located.item = ls ∧ (memberHead c).2.ahead = l :: rest := by
  have hin : inHead l = false := by rw [inHead, hl]; rfl
  obtain ⟨hrun, hafter⟩ := run_of_ahead hc hls hin
  obtain ⟨t, ts, hr, ht, -⟩ := exists_rest_of_ahead hafter
  have hoperator : (t.item == .keyword .operatorKw) = false := by
    rw [ht]
    cases hk : l == .keyword .operatorKw with
    | false => rfl
    | true =>
      rw [eq_of_beq hk] at hl
      cases hl
  have hhead : memberHead c = (c.run inHead, c.afterRun inHead) := by
    unfold memberHead
    simp only [hr, hoperator]
    rfl
  rw [hhead]
  exact ⟨hrun, hafter⟩

/-! ## A class -/

/-- The keyword that introduces a class. -/
def keyLexeme : ClassKey → Lexeme
  | .structKey => .keyword .structKw
  | .classKey => .keyword .classKw

/-- What stands between the name of a class and its body: nothing, or bases after a colon. -/
def BaseClause (ls : List Lexeme) : Prop :=
  ls = [] ∨ ∃ bases, ls = .symbol .colon :: bases ∧ .symbol .lbrace ∉ bases

/-- The place behind the brace that opens the body of a class. -/
def classBody (c : Cursor) : Cursor := (bases c.advance.advance).2.advance

/-- Base classes are passed up to the brace. -/
theorem bases_of_ahead {c : Cursor} {ls rest : List Lexeme} (hls : BaseClause ls)
    (hc : c.ahead = ls ++ .symbol .lbrace :: rest) :
    (bases c).2.ahead = .symbol .lbrace :: rest := by
  unfold bases
  rcases hls with rfl | ⟨bs, rfl, hbs⟩
  · rw [if_neg (by rw [at_eq_false_of_ahead hc (by decide)]; exact Bool.false_ne_true)]
    exact hc
  · rw [if_pos (at_of_ahead hc)]
    obtain ⟨t, ts, -, -, hadvance⟩ := exists_rest_of_ahead hc
    refine (run_of_ahead hadvance (fun x hx => ?_) (by decide)).2
    rw [bne_iff_ne]
    rintro rfl
    exact hbs hx

/-- A class is found where its keyword, its name and a brace stand, with the members that are read
behind the brace. -/
theorem exists_item_of_ahead {c : Cursor} {key : ClassKey} {name : String}
    {bs rest : List Lexeme} (hbs : BaseClause bs)
    (hc : c.ahead = keyLexeme key :: .ident name :: (bs ++ .symbol .lbrace :: rest)) :
    ∃ cls, (item c).value = some cls ∧ cls.name.item = name ∧
      cls.fields = dataOf (members (classBody c)).val.value ∧
      cls.methods = functionsOf (members (classBody c)).val.value ∧
      (classBody c).ahead = rest := by
  obtain ⟨t, ts, hr, ht, hname⟩ := exists_rest_of_ahead hc
  obtain ⟨⟨l, span⟩, us, hu, hitem, hafter⟩ := exists_rest_of_ahead hname
  obtain rfl : l = .ident name := hitem
  have hbase := bases_of_ahead hbs hafter
  obtain ⟨brace, vs, -, -, hbody⟩ := exists_rest_of_ahead hbase
  have hopening : MemberOpening.ofLexeme t.item = .nested key := by
    rw [ht]
    cases key <;> rfl
  have hsemicolon : c.advance.advance.at? .semicolon = false := by
    rcases hbs with rfl | ⟨bs, rfl, -⟩
    · exact at_eq_false_of_ahead hafter (by decide)
    · exact at_eq_false_of_ahead hafter (by decide)
  have hvalue : (item c).value = (classDef key t.span c.advance).val.value := by
    rw [item_of_rest hr, itemFrom, hopening]
  rw [hvalue, classDef]
  split
  · next name' span' us' hu' =>
    cases hu.symm.trans hu'
    rw [if_neg (by rw [hsemicolon]; exact Bool.false_ne_true)]
    simp only
    rw [if_pos (at_of_ahead hbase)]
    exact ⟨_, rfl, rfl, rfl, rfl, hbody⟩
  · next hno => exact absurd hu (hno name span us)

end Parser

/-- A class stands in an accepted file in the order of the items, with the members that are read in
its body. -/
theorem exists_class_of_itemAt {source : List Char} {file : SourceFile}
    (h : parseFile source = .ok file) {c : Cursor} (hitem : Parser.ItemAt (lex source).cursor c)
    {key : ClassKey} {name : String} {bs rest : List Lexeme} (hbs : Parser.BaseClause bs)
    (hc : c.ahead = Parser.keyLexeme key :: .ident name :: (bs ++ .symbol .lbrace :: rest)) :
    ∃ before cls after, file.classes = before ++ cls :: after ∧ cls.name.item = name ∧
      cls.fields = Parser.dataOf (Parser.members (Parser.classBody c)).val.value ∧
      cls.methods = Parser.functionsOf (Parser.members (Parser.classBody c)).val.value ∧
      (Parser.classBody c).ahead = rest := by
  have hclasses : file.classes = (Parser.classes (lex source).cursor).value := by
    unfold parseFile at h
    simp only at h
    split at h
    · split at h
      · next hp =>
        cases h
        rw [hp]
      · cases h
    · cases h
  obtain ⟨before, hbefore⟩ := hitem.exists_classes
  obtain ⟨cls, hvalue, hrest⟩ := Parser.exists_item_of_ahead hbs hc
  obtain ⟨t, ts, hr, -, -⟩ := Cursor.exists_rest_of_ahead hc
  refine ⟨before, cls, (Parser.classes (Parser.item c).next).value, ?_, hrest⟩
  rw [hclasses, hbefore, Parser.classes_eq (by rw [hr]; rfl), hvalue]
  rfl

end VertexLanes
