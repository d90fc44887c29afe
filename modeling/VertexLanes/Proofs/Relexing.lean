import VertexLanes.Proofs.Tiling

/-!
# Reading lexemes back from their spellings

Lexemes that are written one after another, with one blank between any two, are
read back as they were. A lexeme has to be readable for that: its own spelling is
read as the lexeme wherever a blank or the end follows. Whatever is read from a
source is readable, a directive apart, which takes the rest of its line with it.
-/

namespace VertexLanes

/-- A text that no lexeme before it goes on with: it is empty or begins with a blank. -/
def EndsLexeme (rest : List Char) : Prop := rest = [] ∨ ∃ cs, rest = ' ' :: cs

/-- Whether a lexeme is a preprocessor line. -/
def Lexeme.isDirective : Lexeme → Bool
  | .directive _ => true
  | _ => false

/-- A lexeme whose spelling is read as the lexeme itself. -/
def Lexeme.Readable (l : Lexeme) : Prop :=
  ∀ lineStart rest, EndsLexeme rest → ∃ c cs, l.spelling.toList ++ rest = c :: cs ∧
    Lexer.Piece.next lineStart c cs = ⟨.token l, l.spelling.toList, rest⟩

/-- A run of characters that no blank belongs to ends with the lexeme. -/
theorem EndsLexeme.takeWhile_append {rest text : List Char} (h : EndsLexeme rest) {p : Char → Bool}
    (hp : p ' ' = false) (ht : ∀ c ∈ text, p c = true) : (text ++ rest).takeWhile p = text := by
  rw [List.takeWhile_append_of_pos ht]
  rcases h with rfl | ⟨cs, rfl⟩ <;> simp [hp]

/-- Behind such a run the rest is left. -/
theorem EndsLexeme.dropWhile_append {rest text : List Char} (h : EndsLexeme rest) {p : Char → Bool}
    (hp : p ' ' = false) (ht : ∀ c ∈ text, p c = true) : (text ++ rest).dropWhile p = rest := by
  rw [List.dropWhile_append_of_pos ht]
  rcases h with rfl | ⟨cs, rfl⟩ <;> simp [hp]

namespace Lexer

/-- The five characters of white space. -/
theorem isSpace_cases {c : Char} (h : isSpace c = true) :
    c = ' ' ∨ c = '\t' ∨ c = '\n' ∨ c = '\x0c' ∨ c = '\r' := by
  simpa [isSpace] using h

namespace Piece

/-- The rules before that of words do not apply to a character that begins a word. -/
theorem next_of_isWordStart {c : Char} (h : isWordStart c = true) (lineStart : Bool)
    (cs : List Char) : next lineStart c cs = word c cs := by
  have hspace : ¬isSpace c = true := by
    intro hs
    rcases isSpace_cases hs with rfl | rfl | rfl | rfl | rfl <;> exact absurd h (by decide)
  have hslash : c ≠ '/' := by
    rintro rfl
    exact absurd h (by decide)
  have hhash : c ≠ '#' := by
    rintro rfl
    exact absurd h (by decide)
  rw [next, if_neg hspace, if_neg (fun hc => hslash hc.1), if_neg (fun hc => hslash hc.1),
    if_neg (fun hc => hhash hc.1), if_pos h]

private theorem isWordStart_eq_false {c : Char} (h : c.isDigit = true) : isWordStart c = false := by
  rw [isWordStart, Bool.or_eq_false_iff]
  constructor
  · change (decide (c.val ≥ '0'.val) && decide (c.val ≤ '9'.val)) = true at h
    change (decide (c.val ≥ 'A'.val ∧ c.val ≤ 'Z'.val) ||
      (decide (c.val ≥ 'a'.val) && decide (c.val ≤ 'z'.val))) = false
    grind
  · rw [beq_eq_false_iff_ne]
    rintro rfl
    exact absurd h (by decide)

/-- A number starts with a digit or with a point. -/
theorem isDigit_or_of_startsNumber {c : Char} {cs : List Char} (h : startsNumber c cs = true) :
    c.isDigit = true ∨ c = '.' := by
  unfold startsNumber at h
  rcases Bool.or_eq_true_iff.mp h with hd | hd
  · exact Or.inl hd
  · exact Or.inr (by simpa using (Bool.and_eq_true_iff.mp hd).1)

/-- The rules before that of numbers do not apply to the beginning of a number. -/
theorem next_of_startsNumber {c : Char} {cs : List Char} (h : startsNumber c cs = true)
    (lineStart : Bool) : next lineStart c cs = number c cs := by
  have hc := isDigit_or_of_startsNumber h
  have hspace : ¬isSpace c = true := by
    intro hs
    rcases isSpace_cases hs with rfl | rfl | rfl | rfl | rfl <;> exact absurd hc (by decide)
  have hslash : c ≠ '/' := by
    rintro rfl
    exact absurd hc (by decide)
  have hhash : c ≠ '#' := by
    rintro rfl
    exact absurd hc (by decide)
  have hword : ¬isWordStart c = true := by
    rcases hc with hd | rfl
    · simp [isWordStart_eq_false hd]
    · decide
  rw [next, if_neg hspace, if_neg (fun hc => hslash hc.1), if_neg (fun hc => hslash hc.1),
    if_neg (fun hc => hhash hc.1), if_neg hword, if_pos h]

/-- A quotation mark starts a literal. -/
theorem next_mark (quote : Quote) (lineStart : Bool) (cs : List Char) :
    next lineStart quote.mark cs = literal quote cs := by
  cases quote <;> rfl

end Piece

/-- A number ends where its lexeme does. -/
theorem spanNumber_of_ends {rest : List Char} (h : EndsLexeme rest) (hexadecimal : Bool)
    (before : Char) : spanNumber hexadecimal before rest = ([], rest) := by
  rcases h with rfl | ⟨cs, rfl⟩
  · rfl
  · exact if_neg Bool.false_ne_true

/-- A number is read to the same end where a blank follows. -/
theorem spanNumber_append {rest : List Char} (h : EndsLexeme rest) (hexadecimal : Bool)
    (before : Char) (cs : List Char) :
    spanNumber hexadecimal before ((spanNumber hexadecimal before cs).1 ++ rest) =
      ((spanNumber hexadecimal before cs).1, rest) := by
  induction cs generalizing before with
  | nil => exact spanNumber_of_ends h hexadecimal before
  | cons c cs ih =>
    rw [spanNumber]
    split
    · next hc => rw [List.cons_append, spanNumber, if_pos hc, ih]
    · exact spanNumber_of_ends h hexadecimal before

/-- A digit or letter after the first character of a number belongs to it, so that the text of the
number tells as much about its next character as the source did. -/
theorem any_head?_spanNumber {rest : List Char} (h : EndsLexeme rest) (hexadecimal : Bool)
    (before : Char) (cs : List Char) {p : Char → Bool}
    (hp : ∀ c, p c = true → c.isAlphanum = true) :
    ((spanNumber hexadecimal before cs).1 ++ rest).head?.any p = cs.head?.any p := by
  have hblank : p ' ' = false := by
    cases hb : p ' ' with
    | false => rfl
    | true => exact absurd (hp ' ' hb) (by decide)
  have hrest : rest.head?.any p = false := by
    rcases h with rfl | ⟨ds, rfl⟩
    · rfl
    · exact hblank
  cases cs with
  | nil => exact hrest
  | cons c cs =>
    rw [spanNumber]
    split
    · rfl
    · next hc =>
      have hpc : p c = false := by
        cases hpc : p c with
        | false => rfl
        | true => exact absurd (by simp [continuesNumber, hp c hpc]) hc
      rw [List.nil_append, hrest]
      exact hpc.symm

/-- A literal goes on behind a character that neither escapes nor ends it. -/
theorem spanLiteral_cons {c : Char} (h : c ≠ '\\') (mark : Char) (cs : List Char) :
    spanLiteral mark (c :: cs) =
      if c = '\n' then ⟨[], c :: cs, false⟩
      else if c = mark then ⟨[c], cs, true⟩
      else (spanLiteral mark cs).push [c] := by
  rw [spanLiteral]
  · exact fun hc _ => h hc
  · exact fun _ _ hc _ => h hc

/-- A character that escapes nothing and is not the last is no backslash. -/
theorem ne_backslash {c : Char} {cs : List Char} (hend : c = '\\' → cs = [] → False)
    (hesc : ∀ d ds, c = '\\' → cs = d :: ds → False) : c ≠ '\\' := by
  intro hc
  cases cs with
  | nil => exact hend hc rfl
  | cons d ds => exact hesc d ds hc rfl

/-- A closed literal is read to the same end, whatever follows it. -/
theorem spanLiteral_append {mark : Char} {cs : List Char}
    (h : (spanLiteral mark cs).closed = true) (rest : List Char) :
    spanLiteral mark ((spanLiteral mark cs).text ++ rest) =
      ⟨(spanLiteral mark cs).text, rest, true⟩ := by
  fun_induction spanLiteral mark cs with
  | case1 => cases h
  | case2 => cases h
  | case3 c cs ih =>
    simp only [Literal.push, List.cons_append, List.nil_append]
    rw [spanLiteral, ih h]
    rfl
  | case4 => cases h
  | case5 cs hend hesc hline =>
    have hc := ne_backslash hend hesc
    exact (spanLiteral_cons hc _ _).trans (by rw [if_neg hline, if_pos rfl]; rfl)
  | case6 c cs hend hesc hline hmark ih =>
    have hc := ne_backslash hend hesc
    simp only [Literal.push, List.cons_append, List.nil_append]
    rw [spanLiteral_cons hc, if_neg hline, if_neg hmark, ih h]
    rfl

namespace Piece

/-- A number is read alike before any text that ends it. -/
theorem number_append {rest : List Char} (h : EndsLexeme rest) (c : Char) (cs : List Char) :
    ∃ tail, (number c cs).text = c :: tail ∧
      number c (tail ++ rest) = ⟨(number c cs).reading, c :: tail, rest⟩ ∧
      startsNumber c (tail ++ rest) = startsNumber c cs := by
  have hx : ∀ cs : List Char, (cs.head? == some 'x') = cs.head?.any (· == 'x') := by
    intro cs
    cases cs <;> rfl
  have hhex := any_head?_spanNumber h (c == '0' && cs.head? == some 'x') c cs (p := (· == 'x'))
    (by simp)
  have hdigit := any_head?_spanNumber h (c == '0' && cs.head? == some 'x') c cs
    (p := Char.isDigit) (by simp +contextual [Char.isAlphanum])
  refine ⟨_, rfl, ?_, ?_⟩
  · rw [number, hx, hhex, ← hx, spanNumber_append h]
    rfl
  · rw [startsNumber, startsNumber, hdigit]

end Piece

end Lexer

theorem Symbol.readable (s : Symbol) : (Lexeme.symbol s).Readable := by
  intro lineStart rest hrest
  rcases hrest with rfl | ⟨cs, rfl⟩
  · cases s <;> exact ⟨_, _, rfl, rfl⟩
  · cases s <;> exact ⟨_, _, rfl, rfl⟩

theorem Keyword.readable (k : Keyword) : (Lexeme.keyword k).Readable := by
  intro lineStart rest hrest
  rcases hrest with rfl | ⟨cs, rfl⟩
  · cases k <;> exact ⟨_, _, rfl, rfl⟩
  · cases k <;> exact ⟨_, _, rfl, rfl⟩

/-- Every lexeme but a directive is spelled as its text. -/
theorem Lexeme.Spells.toList_eq {l : Lexeme} {text : List Char} (h : l.Spells text)
    (hd : l.isDirective = false) : l.spelling.toList = text := by
  cases l with
  | directive line => cases hd
  | _ => exact (congrArg String.toList h).trans String.toList_ofList

open Lexer in
/-- Whatever is read from a source and is no directive can be read again. -/
theorem Lexeme.readable_of_next {lineStart : Bool} {c : Char} {cs : List Char} {l : Lexeme}
    (h : (Piece.next lineStart c cs).reading = .token l) (hd : l.isDirective = false) :
    l.Readable := by
  have htext := (Piece.spells_next h).toList_eq hd
  rcases Piece.next_token_cases h with he | ⟨hw, he⟩ | ⟨hn, he⟩ | ⟨quote, rfl, he⟩ | he
  · rw [he] at h
    cases h
    cases hd
  · intro ls rest hrest
    rw [he] at h htext
    rw [htext]
    refine ⟨c, cs.takeWhile isWordRest ++ rest, rfl, ?_⟩
    have hall : ∀ d ∈ cs.takeWhile isWordRest, isWordRest d = true :=
      fun d hmem => List.mem_takeWhile_imp hmem
    rw [Piece.next_of_isWordStart hw, Piece.word, hrest.takeWhile_append (by decide) hall,
      hrest.dropWhile_append (by decide) hall, ← h]
    rfl
  · intro ls rest hrest
    obtain ⟨tail, htail, hnumber, hstarts⟩ := Piece.number_append hrest c cs
    rw [he] at h htext
    rw [htext, htail]
    refine ⟨c, tail ++ rest, rfl, ?_⟩
    rw [Piece.next_of_startsNumber (hstarts.trans hn), hnumber, h]
  · intro ls rest hrest
    rw [he] at h htext
    obtain ⟨hclosed, rfl⟩ := Piece.token_literal h
    rw [htext]
    refine ⟨quote.mark, (spanLiteral quote.mark cs).text ++ rest, rfl, ?_⟩
    rw [Piece.next_mark, Piece.literal, spanLiteral_append hclosed]
    rfl
  · rw [he] at h
    obtain ⟨s, rfl, -, -⟩ := Piece.token_symbol h
    exact s.readable

/-- Lexemes as text, with one blank between any two. -/
def spaced : List Lexeme → List Char
  | [] => []
  | [l] => l.spelling.toList
  | l :: ls => l.spelling.toList ++ ' ' :: spaced ls

/-- Spaced lexemes begin with the spelling of the first one, which ends there. -/
theorem exists_spaced_cons (l : Lexeme) (ls : List Lexeme) :
    ∃ rest, EndsLexeme rest ∧ spaced (l :: ls) = l.spelling.toList ++ rest ∧
      (ls = [] ∧ rest = [] ∨ ls ≠ [] ∧ rest = ' ' :: spaced ls) := by
  cases ls with
  | nil => exact ⟨[], Or.inl rfl, (List.append_nil _).symm, Or.inl ⟨rfl, rfl⟩⟩
  | cons m ms => exact ⟨_, Or.inr ⟨_, rfl⟩, rfl, Or.inr ⟨List.cons_ne_nil m ms, rfl⟩⟩

namespace Lexer

/-- A readable lexeme before a text that ends it is the first piece. -/
theorem pieces_append {l : Lexeme} (h : l.Readable) (lineStart : Bool) {rest : List Char}
    (hrest : EndsLexeme rest) :
    pieces lineStart (l.spelling.toList ++ rest) =
      ⟨.token l, l.spelling.toList, rest⟩ :: pieces
        (Piece.endsAtLineStart lineStart ⟨.token l, l.spelling.toList, rest⟩) rest := by
  obtain ⟨c, cs, htext, hnext⟩ := h lineStart rest hrest
  rw [htext, pieces, hnext]

/-- The text of readable lexemes begins with no blank. -/
theorem isSpace_head_spaced {ls : List Lexeme} (h : ∀ l ∈ ls, l.Readable) {c : Char}
    (hc : c ∈ (spaced ls).head?) : isSpace c = false := by
  cases ls with
  | nil => cases hc
  | cons l ls =>
    obtain ⟨rest, hrest, hspaced, -⟩ := exists_spaced_cons l ls
    obtain ⟨d, ds, htext, hnext⟩ := h l List.mem_cons_self true rest hrest
    rw [hspaced, htext, List.head?_cons] at hc
    obtain rfl := Option.some.inj hc
    cases hs : isSpace d with
    | false => rfl
    | true =>
      rw [Piece.next, if_pos hs] at hnext
      cases congrArg Piece.reading hnext

/-- Blanks before a text are a piece of their own. -/
theorem pieces_blanks (lineStart : Bool) (n : Nat) {text : List Char}
    (h : ∀ c ∈ text.head?, isSpace c = false) :
    ∃ atStart, pieces lineStart (' ' :: (List.replicate n ' ' ++ text)) =
      ⟨.blank, ' ' :: List.replicate n ' ', text⟩ :: pieces atStart text := by
  have hblank : ∀ c ∈ List.replicate n ' ', isSpace c = true := by
    intro c hc
    rw [List.eq_of_mem_replicate hc]
    decide
  have htake : text.takeWhile isSpace = [] ∧ text.dropWhile isSpace = text := by
    cases text with
    | nil => exact ⟨rfl, rfl⟩
    | cons c cs =>
      have hc := h c rfl
      exact ⟨List.takeWhile_cons_of_neg (by simp [hc]), List.dropWhile_cons_of_neg (by simp [hc])⟩
  have hpiece : Piece.next lineStart ' ' (List.replicate n ' ' ++ text) =
      ⟨.blank, ' ' :: List.replicate n ' ', text⟩ := by
    rw [Piece.next, if_pos (by decide), Piece.space, List.takeWhile_append_of_pos hblank,
      List.dropWhile_append_of_pos hblank, htake.1, htake.2, List.append_nil]
  rw [pieces, hpiece]
  exact ⟨_, rfl⟩

/-- Readable lexemes are read back from their spaced text, and nothing else is. -/
theorem place_pieces_spaced {ls : List Lexeme} (h : ∀ l ∈ ls, l.Readable) (lineStart : Bool)
    (offset : Nat) :
    (place offset (pieces lineStart (spaced ls))).flatMap faultsOf = [] ∧
      ((place offset (pieces lineStart (spaced ls))).filterMap tokenOf).map Located.item = ls := by
  induction ls generalizing lineStart offset with
  | nil => simp [spaced, pieces, place]
  | cons l ls ih =>
    have hl := h l List.mem_cons_self
    have hls : ∀ m ∈ ls, m.Readable := fun m hm => h m (List.mem_cons_of_mem l hm)
    obtain ⟨rest, hrest, hspaced, hcases⟩ := exists_spaced_cons l ls
    rw [hspaced, pieces_append hl lineStart hrest]
    rcases hcases with ⟨rfl, rfl⟩ | ⟨-, rfl⟩
    · simp [pieces, place, faultsOf, tokenOf]
    · obtain ⟨atStart, hblank⟩ := pieces_blanks
        (Piece.endsAtLineStart lineStart ⟨.token l, l.spelling.toList, ' ' :: spaced ls⟩) 0
        fun _ => isSpace_head_spaced hls
      rw [List.replicate_zero, List.nil_append] at hblank
      obtain ⟨hfaults, hitems⟩ := ih hls atStart
        (offset + byteLength l.spelling.toList + byteLength [' '])
      rw [hblank, place, place]
      constructor
      · rw [List.flatMap_cons, List.flatMap_cons, hfaults]
        rfl
      · rw [List.filterMap_cons_some (tokenOf_of_token rfl),
          List.filterMap_cons_none (tokenOf_of_blank rfl), List.map_cons, hitems]

end Lexer

/-- Readable lexemes are read back from their spaced text without fault. -/
theorem lex_spaced {ls : List Lexeme} (h : ∀ l ∈ ls, l.Readable) :
    (lex (spaced ls)).faults = [] ∧ (lex (spaced ls)).tokens.map Located.item = ls :=
  Lexer.place_pieces_spaced h true 0

/-- The lexemes of a source are readable, directives apart. -/
theorem readable_of_mem_lex {source : List Char} {t : Token} (h : t ∈ (lex source).tokens)
    (hd : t.item.isDirective = false) : t.item.Readable := by
  obtain ⟨p, hp, ht⟩ := List.mem_filterMap.mp h
  obtain ⟨-, ls, c, cs, hnext⟩ := Lexer.covers_place [] hp
  have hr := (Lexer.tokenOf_eq_some ht).1
  rw [hnext] at hr
  exact Lexeme.readable_of_next hr hd

end VertexLanes
