import VertexLanes.Proofs.Relexing

/-!
# Lexemes without a blank after them

A lexeme is read to its end where a blank follows. Where another character
follows, it depends on that character alone whether the lexeme goes on: words go
on with letters and digits, numbers also with points, separators and the sign of
an exponent, and a symbol with what makes it a longer symbol, a comment or a
number. A quoted literal has its own end and never goes on.
-/

namespace VertexLanes

open Lexer

/-- How the lexemes of a source are spelled. -/
inductive Lexeme.Form : Lexeme → Prop
  | keyword (word : Keyword) : Form (.keyword word)
  | symbol (mark : Symbol) : Form (.symbol mark)
  | ident {c : Char} {tail : List Char} (hstart : isWordStart c = true)
      (hrest : ∀ d ∈ tail, isWordRest d = true)
      (hname : Lexeme.ofWord (String.ofList (c :: tail)) = .ident (String.ofList (c :: tail))) :
      Form (.ident (String.ofList (c :: tail)))
  | number {c : Char} {tail : List Char} (hstart : startsNumber c tail = true)
      (hrest : spanNumber (c == '0' && tail.head? == some 'x') c tail = (tail, [])) :
      Form (.number (String.ofList (c :: tail)))
  | quoted {quote : Quote} {text : List Char}
      (hclosed : spanLiteral quote.mark text = ⟨text, [], true⟩) :
      Form (.quoted quote (String.ofList (quote.mark :: text)))
  /-- A directive begins with a hash, unless nothing is left of it. -/
  | directive {text : List Char} (hhash : ∀ c, text.head? = some c → c = '#') :
      Form (.directive (String.ofList text))

/-- No word is a directive. -/
theorem Lexeme.ofWord_ne_directive (word line : String) :
    Lexeme.ofWord word ≠ .directive line := by
  unfold Lexeme.ofWord
  split <;> exact Lexeme.noConfusion

/-- A directive begins with its hash. -/
theorem Lexer.Piece.hash_of_directive {lineStart : Bool} {c : Char} {cs : List Char} {line : String}
    (h : (Piece.next lineStart c cs).reading = .token (.directive line)) : c = '#' := by
  revert h
  unfold Piece.next
  split
  · intro h
    cases h
  split
  · intro h
    cases h
  split
  · intro h
    unfold Piece.blockComment at h
    split at h <;> cases h
  split
  · next hc => exact fun _ => hc.1
  split
  · intro h
    exact absurd (Reading.token.inj h) (Lexeme.ofWord_ne_directive _ line)
  split
  · intro h
    cases h
  split
  · intro h
    cases (Piece.token_literal h).2
  split
  · intro h
    cases (Piece.token_literal h).2
  · intro h
    obtain ⟨s, hs, -⟩ := Piece.token_symbol h
    cases hs

/-- Whatever is read from a source has one of the forms. -/
theorem Lexeme.form_of_next {lineStart : Bool} {c : Char} {cs : List Char} {l : Lexeme}
    (h : (Piece.next lineStart c cs).reading = .token l) : l.Form := by
  rcases Piece.next_token_cases h with he | ⟨hw, he⟩ | ⟨hn, he⟩ | ⟨quote, rfl, he⟩ | he
  · have hdirective := h
    rw [he] at hdirective
    cases hdirective
    obtain rfl := Piece.hash_of_directive h
    refine .directive fun d hd => ?_
    obtain ⟨after, hafter⟩ := Text.dropEndWhile_prefix Text.isBlank ('#' :: (spanDirective cs).1)
    obtain ⟨ds, hds⟩ := List.head?_eq_some_iff.mp hd
    rw [Text.trimEnd] at hds
    rw [hds] at hafter
    exact (List.cons.inj hafter).1
  · rw [he] at h
    cases h
    unfold Lexeme.ofWord
    split
    · exact .keyword _
    · next hnone =>
      refine .ident hw (fun d hd => List.mem_takeWhile_imp hd) ?_
      rw [Lexeme.ofWord, hnone]
  · obtain ⟨tail, htail, hnumber, hstarts⟩ := Piece.number_append (Or.inl rfl) c cs
    rw [he] at h
    cases h
    have htext : c :: (spanNumber (c == '0' && cs.head? == some 'x') c cs).1 = c :: tail := htail
    obtain ⟨-, rfl⟩ := List.cons.inj htext
    rw [List.append_nil] at hnumber hstarts
    refine .number (hstarts.trans hn) ?_
    have hrest := congrArg Piece.rest hnumber
    have hspan := congrArg Piece.text hnumber
    exact Prod.ext (List.cons.inj hspan).2 hrest
  · rw [he] at h
    obtain ⟨hclosed, rfl⟩ := Piece.token_literal h
    have hagain := spanLiteral_append hclosed []
    rw [List.append_nil] at hagain
    exact .quoted hagain
  · rw [he] at h
    obtain ⟨s, rfl, -, -⟩ := Piece.token_symbol h
    exact .symbol s

/-- Every lexeme of a source has the form of its kind. -/
theorem Lexeme.form_of_mem_lex {source : List Char} {t : Token} (h : t ∈ (lex source).tokens) :
    t.item.Form := by
  obtain ⟨p, hp, ht⟩ := List.mem_filterMap.mp h
  obtain ⟨-, ls, c, cs, hnext⟩ := Lexer.covers_place [] hp
  have hr := (Lexer.tokenOf_eq_some ht).1
  rw [hnext] at hr
  exact Lexeme.form_of_next hr

/-- Whether a symbol with this character directly after it begins something else: a longer symbol, a
comment or a number. -/
def Symbol.goesOn (s : Symbol) (c : Char) : Bool :=
  Symbol.all.any (fun longer => longer.spelling.toList == s.spelling.toList ++ [c]) ||
    (s == .slash && (c == '/' || c == '*')) || (s == .dot && c.isDigit)

/-- Whether a lexeme goes on with a character directly after it, so that it is read as something
else. A directive takes the rest of its line. -/
def Lexeme.goesOn : Lexeme → Char → Bool
  | .keyword _, c => isWordRest c
  | .ident _, c => isWordRest c
  | .number text, c =>
    continuesNumber (text.toList.head? == some '0' && text.toList.tail.head? == some 'x')
      (text.toList.getLastD '0') c
  | .symbol mark, c => mark.goesOn c
  | .quoted _ _, _ => false
  | .directive _, c => c != '\n'

/-! ## Words -/

/-- A keyword is spelled as a word, and the word is read as the keyword. -/
theorem Keyword.exists_word (k : Keyword) : ∃ c tail, k.spelling.toList = c :: tail ∧
    isWordStart c = true ∧ (∀ d ∈ tail, isWordRest d = true) ∧
    Lexeme.ofWord (String.ofList (c :: tail)) = .keyword k := by
  cases k <;> exact ⟨_, _, rfl, by decide, List.all_eq_true.mp (by decide), by decide⟩

section
variable {c : Char} {tail : List Char}

/-- A word is read up to the first character that does not belong to one. -/
theorem Lexer.Piece.next_word (hstart : isWordStart c = true)
    (htail : ∀ d ∈ tail, isWordRest d = true) {rest : List Char}
    (hrest : ∀ d, rest.head? = some d → isWordRest d = false) (lineStart : Bool) :
    Piece.next lineStart c (tail ++ rest) =
      ⟨.token (.ofWord (String.ofList (c :: tail))), c :: tail, rest⟩ := by
  have hnone : rest.takeWhile isWordRest = [] ∧ rest.dropWhile isWordRest = rest := by
    cases rest with
    | nil => exact ⟨rfl, rfl⟩
    | cons d ds => simp [hrest d rfl]
  rw [Piece.next_of_isWordStart hstart, Piece.word, List.takeWhile_append_of_pos htail,
    List.dropWhile_append_of_pos htail, hnone.1, hnone.2, List.append_nil]

/-- A word with a letter or digit after it is longer. -/
theorem Lexer.Piece.next_longer_word (hstart : isWordStart c = true)
    (htail : ∀ d ∈ tail, isWordRest d = true) {d : Char} (hd : isWordRest d = true)
    (rest : List Char) (lineStart : Bool) :
    (Piece.next lineStart c (tail ++ d :: rest)).text ≠ c :: tail := by
  rw [Piece.next_of_isWordStart hstart, Piece.word, List.takeWhile_append_of_pos htail,
    List.takeWhile_cons_of_pos hd]
  simp

/-! ## Numbers -/

/-- A number that is read to its end goes on from its last character. -/
theorem Lexer.spanNumber_through {hexadecimal : Bool}
    (h : spanNumber hexadecimal c tail = (tail, [])) (rest : List Char) :
    spanNumber hexadecimal c (tail ++ rest) =
      (tail ++ (spanNumber hexadecimal (tail.getLastD c) rest).1,
        (spanNumber hexadecimal (tail.getLastD c) rest).2) := by
  induction tail generalizing c with
  | nil => rfl
  | cons d tail ih =>
    rw [spanNumber] at h
    split at h
    · next hd =>
      obtain ⟨htail, hnil⟩ := Prod.mk.inj h
      have hspan := ih (Prod.ext (List.cons.inj htail).2 hnil)
      rw [List.cons_append, spanNumber, if_pos hd, hspan, List.getLastD_cons]
      rfl
    · cases (Prod.mk.inj h).2

/-- What starts a number does so before any text. -/
theorem startsNumber_append (h : startsNumber c tail = true) (rest : List Char) :
    startsNumber c (tail ++ rest) = true := by
  cases tail with
  | nil =>
    have hdigit : c.isDigit = true := by simpa [startsNumber] using h
    simp [startsNumber, hdigit]
  | cons d tail => exact h

/-- A number goes on with letters and digits. -/
theorem continuesNumber_of_isAlphanum {hexadecimal : Bool} {before d : Char}
    (h : d.isAlphanum = true) : continuesNumber hexadecimal before d = true := by
  simp [continuesNumber, h]

/-- A number is read up to the first character that does not continue it. -/
theorem Lexer.Piece.next_number (hstart : startsNumber c tail = true)
    (hspan : spanNumber (c == '0' && tail.head? == some 'x') c tail = (tail, [])) {rest : List Char}
    (hrest : ∀ d, rest.head? = some d →
      continuesNumber (c == '0' && tail.head? == some 'x') (tail.getLastD c) d = false)
    (lineStart : Bool) :
    Piece.next lineStart c (tail ++ rest) =
      ⟨.token (.number (String.ofList (c :: tail))), c :: tail, rest⟩ := by
  have hhex : (c == '0' && (tail ++ rest).head? == some 'x') =
      (c == '0' && tail.head? == some 'x') := by
    cases tail with
    | cons d tail => rfl
    | nil =>
      have hx : rest.head? ≠ some 'x' := by
        intro hx
        cases (continuesNumber_of_isAlphanum (by decide)).symm.trans (hrest 'x' hx)
      simp [hx]
  have hstop : spanNumber (c == '0' && tail.head? == some 'x') (tail.getLastD c) rest =
      ([], rest) := by
    cases rest with
    | nil => rfl
    | cons d rest => rw [spanNumber, if_neg (Bool.eq_false_iff.mp (hrest d rfl))]
  rw [Piece.next_of_startsNumber (startsNumber_append hstart rest), Piece.number, hhex,
    spanNumber_through hspan, hstop, List.append_nil]

/-- A number with a character after it that continues it is longer. -/
theorem Lexer.Piece.next_longer_number (hstart : startsNumber c tail = true)
    (hspan : spanNumber (c == '0' && tail.head? == some 'x') c tail = (tail, [])) {d : Char}
    (hd : continuesNumber (c == '0' && tail.head? == some 'x') (tail.getLastD c) d = true)
    (rest : List Char) (lineStart : Bool) :
    (Piece.next lineStart c (tail ++ d :: rest)).text ≠ c :: tail := by
  rw [Piece.next_of_startsNumber (startsNumber_append hstart _), Piece.number]
  cases tail with
  | cons e tail =>
    rw [List.head?_cons] at hspan hd
    simp only [List.cons_append, List.head?_cons]
    rw [← List.cons_append, spanNumber_through hspan, spanNumber, if_pos hd]
    simp
  | nil =>
    -- The first digit alone does not tell whether the number is hexadecimal; an `x` does.
    rw [List.nil_append, List.head?_cons, spanNumber, if_pos ?_]
    · simp
    · by_cases hx : d = 'x'
      · exact continuesNumber_of_isAlphanum (by rw [hx]; decide)
      · have hsome : (some d == some 'x') = false := by simpa using hx
        rw [hsome]
        exact hd

end

/-! ## Symbols -/

namespace Symbol

theorem ofStart?_spelling (s : Symbol) : ofStart? s.spelling.toList = some s := by
  cases s <;> rfl

theorem spelling_injective {s t : Symbol} (h : s.spelling = t.spelling) : s = t := by
  have hs := s.ofStart?_spelling
  rw [h, t.ofStart?_spelling] at hs
  exact (Option.some.inj hs).symm

/-- A symbol has one character or two. -/
theorem length_spelling (s : Symbol) :
    s.spelling.toList.length = 1 ∨ s.spelling.toList.length = 2 := by
  cases s <;> decide

/-- A symbol begins a text and is read if no longer one begins it. -/
theorem ofStart?_eq_of_longest {s : Symbol} {text : List Char} (hs : s.spelling.toList <+: text)
    (hlongest : ∀ t : Symbol, t.spelling.toList <+: text →
      t.spelling.toList.length ≤ s.spelling.toList.length) : ofStart? text = some s := by
  cases hfound : ofStart? text with
  | none =>
    have hnot := List.find?_eq_none.mp hfound s s.mem_all
    exact absurd (List.isPrefixOf_iff_prefix.mpr hs) hnot
  | some t =>
    obtain ⟨ht, htlongest⟩ := Symbol.ofStart?_eq_some hfound
    have hle := hlongest t ht
    have hge := htlongest s hs
    rw [← String.length_toList, ← String.length_toList] at hge
    have heq : t.spelling.toList = s.spelling.toList :=
      (List.prefix_of_prefix_length_le ht hs hle).eq_of_length (by omega)
    rw [spelling_injective (String.toList_injective heq)]

/-- What the first character of a symbol is not, and which symbols begin like a comment or a
number. -/
theorem head_spelling {s : Symbol} {c : Char} (h : s.spelling.toList.head? = some c) :
    isSpace c = false ∧ c ≠ '#' ∧ isWordStart c = false ∧ c.isDigit = false ∧ c ≠ '"' ∧
      c ≠ '\'' ∧ (c = '/' → s = .slash ∨ s = .slashEq) ∧ (c = '.' → s = .dot) := by
  cases s <;> cases h <;> decide

end Symbol

section
variable {s : Symbol} {rest : List Char}

/-- A longer symbol goes on with the next character. -/
theorem Symbol.goesOn_of_longer {t : Symbol}
    (ht : t.spelling.toList <+: s.spelling.toList ++ rest)
    (hlt : s.spelling.toList.length < t.spelling.toList.length) :
    ∃ c, rest.head? = some c ∧ s.goesOn c = true := by
  have hone : s.spelling.toList.length = 1 ∧ t.spelling.toList.length = 2 := by
    have hs := s.length_spelling
    have ht := t.length_spelling
    omega
  cases rest with
  | nil =>
    have hle := ht.length_le
    rw [List.append_nil] at hle
    omega
  | cons c rest =>
    refine ⟨c, rfl, ?_⟩
    have heq : t.spelling.toList = s.spelling.toList ++ [c] := by
      refine (List.prefix_of_prefix_length_le ht ⟨rest, by simp⟩ ?_).eq_of_length ?_
      · simp [hone.1, hone.2]
      · simp [hone.1, hone.2]
    have hany : Symbol.all.any (fun longer => longer.spelling.toList == s.spelling.toList ++ [c]) =
        true := List.any_eq_true.mpr ⟨t, t.mem_all, by simp [heq]⟩
    simp [Symbol.goesOn, hany]

/-- A symbol is read before any text it does not go on with. -/
theorem Lexer.Piece.next_symbol (hrest : ∀ d, rest.head? = some d → s.goesOn d = false)
    {c : Char} {cs : List Char} (htext : s.spelling.toList ++ rest = c :: cs) (lineStart : Bool) :
    Piece.next lineStart c cs = ⟨.token (.symbol s), s.spelling.toList, rest⟩ := by
  have hlength := s.length_spelling
  have hhead : s.spelling.toList.head? = some c := by
    cases hs : s.spelling.toList with
    | nil => simp [hs] at hlength
    | cons d ds =>
      rw [hs] at htext
      rw [List.head?_cons, (List.cons.inj htext).1]
  obtain ⟨hspace, hhash, hword, hdigit, hstring, hcharacter, hslash, hdot⟩ :=
    Symbol.head_spelling hhead
  have hcomment : ∀ d, c = '/' → cs.head? = some d → d ≠ '/' ∧ d ≠ '*' := by
    intro d hc hd
    rcases hslash hc with rfl | rfl
    · have hcs : '/' :: rest = c :: cs := htext
      obtain ⟨-, rfl⟩ := List.cons.inj hcs
      have hnot := hrest d hd
      simp only [Symbol.goesOn, Bool.or_eq_false_iff] at hnot
      simpa using hnot.1.2
    · have hcs : '/' :: '=' :: rest = c :: cs := htext
      obtain ⟨-, rfl⟩ := List.cons.inj hcs
      cases hd
      decide
  have hnumber : startsNumber c cs = false := by
    rw [startsNumber, hdigit, Bool.false_or, Bool.and_eq_false_iff]
    by_cases hc : c = '.'
    · right
      obtain rfl := hdot hc
      have hcs : '.' :: rest = c :: cs := htext
      obtain ⟨-, rfl⟩ := List.cons.inj hcs
      cases hd : rest.head? with
      | none => rfl
      | some d =>
        have hnot := hrest d hd
        simp only [Symbol.goesOn, Bool.or_eq_false_iff] at hnot
        simpa using hnot.2
    · left
      simpa using hc
  have hstart : Symbol.ofStart? (c :: cs) = some s := by
    rw [← htext]
    refine Symbol.ofStart?_eq_of_longest (List.prefix_append _ _) fun t ht => ?_
    by_contra hlt
    obtain ⟨d, hd, hgo⟩ := Symbol.goesOn_of_longer ht (Nat.lt_of_not_le hlt)
    rw [hrest d hd] at hgo
    cases hgo
  rw [Piece.next, if_neg (by simp [hspace]), if_neg (fun h => (hcomment '/' h.1 h.2).1 rfl),
    if_neg (fun h => (hcomment '*' h.1 h.2).2 rfl), if_neg (fun h => hhash h.1),
    if_neg (by simp [hword]), if_neg (by simp [hnumber]), if_neg hstring, if_neg hcharacter,
    Piece.symbol, hstart, ← htext]
  simp only [← String.length_toList, List.take_left, List.drop_left]

/-- A symbol that goes on is not read. -/
theorem Lexer.Piece.next_ne_symbol {d : Char} (hd : s.goesOn d = true) {c : Char} {cs : List Char}
    (htext : s.spelling.toList ++ d :: rest = c :: cs) (lineStart : Bool) :
    (Piece.next lineStart c cs).reading ≠ .token (.symbol s) := by
  intro hread
  rcases Bool.or_eq_true_iff.mp hd with hd | hnumber
  · rcases Bool.or_eq_true_iff.mp hd with hlonger | hcomment
    · obtain ⟨t, -, ht⟩ := List.any_eq_true.mp hlonger
      have hspelling : t.spelling.toList = s.spelling.toList ++ [d] := eq_of_beq ht
      have hle := Piece.longest_next hread t
        ⟨rest, by rw [hspelling, ← htext, List.append_assoc, List.singleton_append]⟩
      rw [← String.length_toList, ← String.length_toList, hspelling, List.length_append,
        List.length_singleton] at hle
      omega
    · obtain ⟨hslash, hstar⟩ := Bool.and_eq_true_iff.mp hcomment
      obtain rfl := eq_of_beq hslash
      have hcs : '/' :: d :: rest = c :: cs := htext
      obtain ⟨rfl, rfl⟩ := List.cons.inj hcs
      rcases Bool.or_eq_true_iff.mp hstar with hslash | hstar
      · obtain rfl := eq_of_beq hslash
        cases hread
      · obtain rfl := eq_of_beq hstar
        change (Piece.blockComment rest).reading = _ at hread
        unfold Piece.blockComment at hread
        split at hread <;> cases hread
  · obtain ⟨hdot, hdigit⟩ := Bool.and_eq_true_iff.mp hnumber
    obtain rfl := eq_of_beq hdot
    have hcs : '.' :: d :: rest = c :: cs := htext
    obtain ⟨rfl, rfl⟩ := List.cons.inj hcs
    have hstarts : startsNumber '.' (d :: rest) = true := by simp [startsNumber, hdigit]
    rw [Piece.next_of_startsNumber hstarts] at hread
    cases hread

end

/-! ## Lexemes -/

/-- A number goes on with what continues it. -/
theorem Lexeme.goesOn_number (c : Char) (tail : List Char) (d : Char) :
    (Lexeme.number (String.ofList (c :: tail))).goesOn d =
      continuesNumber (c == '0' && tail.head? == some 'x') (tail.getLastD c) d := by
  rw [Lexeme.goesOn, String.toList_ofList, List.getLastD_cons]
  rfl

namespace Lexeme.Form

variable {l : Lexeme}

/-- A lexeme is read to its end where it does not go on. -/
theorem next_append (h : l.Form) (hd : l.isDirective = false) {rest : List Char}
    (hrest : ∀ c, rest.head? = some c → l.goesOn c = false) (lineStart : Bool) :
    ∃ c cs, l.spelling.toList ++ rest = c :: cs ∧
      Piece.next lineStart c cs = ⟨.token l, l.spelling.toList, rest⟩ := by
  cases h with
  | keyword k =>
    obtain ⟨c, tail, hk, hstart, htail, hword⟩ := k.exists_word
    refine ⟨c, tail ++ rest, by rw [Lexeme.spelling, hk, List.cons_append], ?_⟩
    rw [Piece.next_word hstart htail hrest, hword, Lexeme.spelling, hk]
  | symbol s =>
    cases htext : s.spelling.toList ++ rest with
    | nil =>
      have hlength := s.length_spelling
      simp [(List.append_eq_nil_iff.mp htext).1] at hlength
    | cons c cs => exact ⟨c, cs, htext, Piece.next_symbol hrest htext lineStart⟩
  | @ident c tail hstart htail hname =>
    rw [Lexeme.spelling, String.toList_ofList]
    refine ⟨c, tail ++ rest, List.cons_append, ?_⟩
    rw [Piece.next_word hstart htail hrest, hname]
  | @number c tail hstart hspan =>
    rw [Lexeme.spelling, String.toList_ofList]
    refine ⟨c, tail ++ rest, List.cons_append, Piece.next_number hstart hspan ?_ lineStart⟩
    intro d hdhead
    rw [← goesOn_number]
    exact hrest d hdhead
  | @quoted quote text hclosed =>
    rw [Lexeme.spelling, String.toList_ofList]
    refine ⟨quote.mark, text ++ rest, List.cons_append, ?_⟩
    have hend : (spanLiteral quote.mark text).closed = true := by rw [hclosed]
    have happend := spanLiteral_append hend rest
    rw [hclosed] at happend
    rw [Piece.next_mark, Piece.literal, happend]
    rfl
  | directive => cases hd

/-- A lexeme that goes on is not read. -/
theorem reading_ne (h : l.Form) (hd : l.isDirective = false) {d : Char} (hgo : l.goesOn d = true)
    {rest : List Char} {c : Char} {cs : List Char}
    (htext : l.spelling.toList ++ d :: rest = c :: cs) (lineStart : Bool) :
    (Piece.next lineStart c cs).reading ≠ .token l := by
  intro hread
  have hspells := (Piece.spells_next hread).toList_eq hd
  cases h with
  | keyword k =>
    obtain ⟨e, tail, hk, hstart, htail, -⟩ := k.exists_word
    rw [Lexeme.spelling, hk] at hspells htext
    obtain ⟨rfl, rfl⟩ := List.cons.inj htext
    exact Piece.next_longer_word hstart htail hgo rest lineStart hspells.symm
  | symbol s => exact Piece.next_ne_symbol hgo htext lineStart hread
  | @ident e tail hstart htail hname =>
    rw [Lexeme.spelling, String.toList_ofList] at hspells htext
    obtain ⟨rfl, rfl⟩ := List.cons.inj htext
    exact Piece.next_longer_word hstart htail hgo rest lineStart hspells.symm
  | @number e tail hstart hspan =>
    rw [Lexeme.spelling, String.toList_ofList] at hspells htext
    obtain ⟨rfl, rfl⟩ := List.cons.inj htext
    rw [goesOn_number] at hgo
    exact Piece.next_longer_number hstart hspan hgo rest lineStart hspells.symm
  | quoted => cases hgo
  | directive => cases hd

end Lexeme.Form

end VertexLanes
