import Mathlib.Data.List.Basic
import VertexLanes.Project

/-!
# Reading a project file back

A project file is written from the settings it holds: a section with one entry for
each of them, in any order and with any layout, among other sections with any
content. Reading goes through lines, blanks, section heads, equality signs, comments
and quotation marks one after the other. None of these takes away a character that
belongs to another one, so the settings are read back as they are, whatever signs
stand in their values.
-/

namespace VertexLanes

/-! ## Trimming -/

namespace Text

/-- Whether a text is made of blanks. -/
def Blanks (text : List Char) : Prop := ∀ c ∈ text, isBlank c = true

/-- A character that is not blank is in no blank text. -/
theorem Blanks.not_mem {text : List Char} (h : Blanks text) {c : Char} (hc : isBlank c = false) :
    c ∉ text := by
  intro hmem
  rw [h c hmem] at hc
  cases hc

/-- Whether a text neither begins nor ends with a blank, nor is empty. -/
def Trimmed (text : List Char) : Prop :=
  (∃ c, text.head? = some c ∧ isBlank c = false) ∧
    ∃ d, text.getLast? = some d ∧ isBlank d = false

/-- Blanks before a character that is not blank are trimmed. -/
theorem trimStart_append {blanks text : List Char} (hb : Blanks blanks) {c : Char}
    (hc : text.head? = some c) (hblank : isBlank c = false) :
    trimStart (blanks ++ text) = text := by
  obtain ⟨rest, rfl⟩ := List.head?_eq_some_iff.mp hc
  rw [trimStart, List.dropWhile_append_of_pos hb, List.dropWhile_cons_of_neg (by simp [hblank])]

/-- Trimming stops at a text that is trimmed, and goes on behind it. -/
theorem trim_append {before text after : List Char} (hb : Blanks before) (h : Trimmed text) :
    trim (before ++ (text ++ after)) = text ++ trimEnd after := by
  obtain ⟨⟨c, hc, hcb⟩, d, hd, hdb⟩ := h
  have hhead : (text ++ after).head? = some c := by rw [List.head?_append, hc, Option.some_or]
  rw [trim, trimStart_append hb hhead hcb, trimEnd, dropEndWhile_append hd hdb]
  rfl

/-- A trimmed text comes back when blanks around it are trimmed. -/
theorem trim_padded {before text after : List Char} (hb : Blanks before) (ha : Blanks after)
    (h : Trimmed text) : trim (before ++ (text ++ after)) = text := by
  rw [trim_append hb h, trimEnd, dropEndWhile_of_pos ha, List.append_nil]

private theorem trim_of_blanks {text : List Char} (h : Blanks text) : trim text = [] := by
  have hstart : trimStart (text ++ []) = [] := List.dropWhile_append_of_pos h
  rw [List.append_nil] at hstart
  rw [trim, hstart]
  rfl

/-- Blanks at the end of a text do not change what is left of it. -/
theorem trim_append_blanks {text after : List Char} (h : Blanks after) :
    trim (text ++ after) = trim text := by
  rw [trim, trimStart, List.dropWhile_append]
  split
  · next hempty =>
    rw [trim, trimStart, List.isEmpty_iff.mp hempty]
    exact trim_of_blanks h
  · rw [trimEnd, dropEndWhile_append_of_pos h]
    rfl

/-- A carriage return at the end of a line is a blank. -/
theorem trim_dropReturn (line : List Char) : trim (dropReturn line) = trim line := by
  unfold dropReturn
  split
  · next hlast =>
    obtain ⟨before, rfl⟩ := List.getLast?_eq_some_iff.mp hlast
    rw [List.dropLast_concat, trim_append_blanks]
    rintro c hc
    rw [List.mem_singleton.mp hc]
    decide
  · rfl

/-- Copies of a character around a text without any are removed. -/
theorem trimChar_padded {mark : Char} {before text after : List Char}
    (hb : ∀ c ∈ before, (c == mark) = true) (ha : ∀ c ∈ after, (c == mark) = true)
    (h : mark ∉ text) : trimChar mark (before ++ (text ++ after)) = text := by
  rw [trimChar, List.dropWhile_append_of_pos hb]
  cases hlast : text.getLast? with
  | none =>
    rw [List.getLast?_eq_none_iff.mp hlast, List.nil_append]
    exact dropEndWhile_of_pos fun c hc => ha c ((List.dropWhile_suffix _).subset hc)
  | some d =>
    have hne (c : Char) (hc : c ∈ text) : (c == mark) = false := by
      rw [beq_eq_false_iff_ne]
      rintro rfl
      exact h hc
    obtain ⟨c, rest, rfl⟩ := List.exists_cons_of_ne_nil
      (List.ne_nil_of_mem (List.mem_of_getLast? hlast))
    rw [List.cons_append, List.dropWhile_cons_of_neg (by simp [hne c List.mem_cons_self]),
      ← List.cons_append, dropEndWhile_append hlast (hne d (List.mem_of_getLast? hlast)),
      dropEndWhile_of_pos ha, List.append_nil]

/-! ## Lines -/

/-- A text without line breaks is added to the line that has begun. -/
theorem linesFrom_append {line : List Char} (h : '\n' ∉ line) (begun text : List Char) :
    linesFrom begun (line ++ text) = linesFrom (line.reverse ++ begun) text := by
  induction line generalizing begun with
  | nil => rfl
  | cons c line ih =>
    obtain ⟨hc, hline⟩ := not_or.mp (mt List.mem_cons.mpr h)
    rw [List.cons_append, linesFrom, if_neg (Ne.symm hc), ih hline, List.reverse_cons,
      List.append_assoc]
    rfl

/-- A text up to its first line break is its first line. -/
theorem lines_append_break {line : List Char} (h : '\n' ∉ line) (text : List Char) :
    lines (line ++ '\n' :: text) = dropReturn line :: lines text := by
  rw [lines, linesFrom_append h, linesFrom, if_pos rfl, List.append_nil, List.reverse_reverse]
  rfl

/-- A text without line breaks is one line, or none if it is empty. -/
theorem lines_of_not_mem {line : List Char} (h : '\n' ∉ line) :
    lines line = if line = [] then [] else [line] := by
  have hlines := linesFrom_append h [] []
  rw [List.append_nil, List.append_nil, linesFrom, List.isEmpty_reverse, List.reverse_reverse]
    at hlines
  rw [lines, hlines]
  cases line <;> rfl

end Text

namespace Project

/-! ## Written files -/

/-- Blanks on a line. -/
structure Padding where
  text : List Char
  blanks : Text.Blanks text
  inline : '\n' ∉ text

/-- A comment at the end of a line, or nothing. -/
structure Remark where
  text : List Char
  marked : text = [] ∨ text.head? = some '#'
  inline : '\n' ∉ text

/-- A text that can stand between quotation marks on one line. -/
structure Quotable where
  text : String
  unquoted : '"' ∉ text.toList
  inline : '\n' ∉ text.toList

/-- One setting. -/
inductive Entry where
  | trackFree (value : Bool)
  | vectorType (value : Quotable)
  | lanes (value : Quotable)

namespace Entry

/-- The key of a setting. -/
def key : Entry → String
  | .trackFree _ => "track_free"
  | .vectorType _ => "vector_type"
  | .lanes _ => "lanes"

/-- The value of a setting as it is written: a text stands between quotation marks. -/
def value : Entry → List Char
  | .trackFree true => "true".toList
  | .trackFree false => "false".toList
  | .vectorType v => ['"'] ++ (v.text.toList ++ ['"'])
  | .lanes v => ['"'] ++ (v.text.toList ++ ['"'])

/-- Settings with one of them made. -/
def set (s : Settings) : Entry → Settings
  | .trackFree b => { s with trackFree := some b }
  | .vectorType v => { s with vectorType := some v.text }
  | .lanes v => { s with lanes := some v.text }

end Entry

/-- A line of the section with the settings. -/
inductive BodyLine where
  /-- A blank line or a comment. -/
  | idle (indent : Padding) (remark : Remark)
  /-- A setting, with blanks around its key and around its value. -/
  | entry (e : Entry) (indent afterKey beforeValue afterValue : Padding) (remark : Remark)

/-- The text of a line. -/
def BodyLine.text : BodyLine → List Char
  | .idle indent remark => indent.text ++ remark.text
  | .entry e indent afterKey beforeValue afterValue remark =>
    indent.text ++ ((e.key.toList ++ afterKey.text ++ ['='] ++ beforeValue.text ++ e.value) ++
      (afterValue.text ++ remark.text))

/-- The setting that a line makes, if it makes one. -/
def BodyLine.entry? : BodyLine → Option Entry
  | .idle _ _ => none
  | .entry e _ _ _ _ _ => some e

/-- Whether a line is the head of a section: it begins and ends with a square bracket, blanks
apart. -/
def IsHead (line : List Char) : Prop :=
  (Text.trim line).head? = some '[' ∧ (Text.trim line).getLast? = some ']'

instance (line : List Char) : Decidable (IsHead line) := inferInstanceAs (Decidable (_ ∧ _))

/-- The head of a section. Blanks inside the brackets do not belong to the name. -/
structure Heading where
  indent : Padding
  name : List Char
  outdent : Padding
  inline : '\n' ∉ name

/-- The text of the head of a section. -/
def Heading.text (h : Heading) : List Char :=
  h.indent.text ++ (['['] ++ h.name ++ [']'] ++ h.outdent.text)

/-- A section with anything but the settings. -/
structure OtherSection where
  heading : Heading
  other : Text.trim heading.name ≠ convertSection
  lines : List (List Char)
  inline : ∀ line ∈ lines, '\n' ∉ line
  plain : ∀ line ∈ lines, ¬IsHead line

/-- The lines of a section, its head included. -/
def OtherSection.texts (o : OtherSection) : List (List Char) := o.heading.text :: o.lines

/-- A project file: one section with settings among others, and any lines before the first head. -/
structure Written where
  preamble : List (List Char)
  inline : ∀ line ∈ preamble, '\n' ∉ line
  plain : ∀ line ∈ preamble, ¬IsHead line
  before : List OtherSection
  heading : Heading
  convert : Text.trim heading.name = convertSection
  body : List BodyLine
  after : List OtherSection

namespace Written

/-- The settings of a file, in order. -/
def entries (w : Written) : List Entry := w.body.filterMap BodyLine.entry?

/-- The lines of a file. -/
def lines (w : Written) : List (List Char) :=
  w.preamble ++ (w.before.flatMap OtherSection.texts ++
    (w.heading.text :: (w.body.map BodyLine.text ++ w.after.flatMap OtherSection.texts)))

/-- The text of a file. -/
def text (w : Written) : List Char := List.intercalate ['\n'] w.lines

end Written

/-! ## Kinds of lines -/

private theorem ofText_heading (h : Heading) : Line.ofText h.text = .header (Text.trim h.name) := by
  have hlast : (['['] ++ h.name ++ [']']).getLast? = some ']' := List.getLast?_concat
  have htrim : Text.trim h.text = ['['] ++ h.name ++ [']'] :=
    Text.trim_padded h.indent.blanks h.outdent.blanks
      ⟨⟨'[', rfl, by decide⟩, ']', hlast, by decide⟩
  rw [Line.ofText, htrim, hlast]
  simp

/-- A line that is no head of a section is not read as one. -/
theorem ofText_ne_header {line : List Char} (h : ¬IsHead line) (name : List Char) :
    Line.ofText line ≠ .header name := by
  unfold Line.ofText
  simp only
  split
  · exact Line.noConfusion
  · split
    · next hhead =>
      simp only [Bool.and_eq_true, beq_iff_eq] at hhead
      exact absurd hhead h
    · split <;> exact Line.noConfusion

/-- A line with a remark only is idle. -/
theorem ofText_idle (indent : Padding) (remark : Remark) :
    Line.ofText (indent.text ++ remark.text) = .idle := by
  rw [Line.ofText]
  rcases remark.marked with hnone | hmark
  · rw [hnone, List.append_nil, Text.trim_of_blanks indent.blanks]
    rfl
  · obtain ⟨rest, hrest⟩ := List.head?_eq_some_iff.mp hmark
    have htrim : Text.trim (indent.text ++ (['#'] ++ rest)) = ['#'] ++ Text.trimEnd rest :=
      Text.trim_append indent.blanks ⟨⟨'#', rfl, by decide⟩, '#', rfl, by decide⟩
    rw [hrest, ← List.singleton_append, htrim]
    rfl

/-! ## Entries -/

/-- A text without quotes and comment marks is kept when a comment is cut off. -/
theorem cutComment_append {quoted : Bool} {text : List Char} (hmark : '#' ∉ text)
    (hquote : '"' ∉ text) (rest : List Char) :
    cutComment quoted (text ++ rest) = text ++ cutComment quoted rest := by
  induction text with
  | nil => rfl
  | cons c text ih =>
    obtain ⟨hm, hmark⟩ := not_or.mp (mt List.mem_cons.mpr hmark)
    obtain ⟨hq, hquote⟩ := not_or.mp (mt List.mem_cons.mpr hquote)
    rw [List.cons_append, cutComment, if_neg (fun h => hm h.1.symm), if_neg (Ne.symm hq),
      ih hmark hquote, List.cons_append]

/-- Between quotation marks no comment begins. -/
theorem cutComment_quoted {text : List Char} (hquote : '"' ∉ text) (rest : List Char) :
    cutComment true (text ++ '"' :: rest) = text ++ '"' :: cutComment false rest := by
  induction text with
  | nil => rfl
  | cons c text ih =>
    obtain ⟨hq, hquote⟩ := not_or.mp (mt List.mem_cons.mpr hquote)
    rw [List.cons_append, cutComment, if_neg (fun h => Bool.noConfusion h.2), if_neg (Ne.symm hq),
      ih hquote, List.cons_append]

/-- What stands behind a value is cut down to blanks. -/
theorem blanks_cutComment (padding : Padding) (remark : Remark) :
    Text.Blanks (cutComment false (Text.trimEnd (padding.text ++ remark.text))) := by
  rcases remark.marked with hnone | hmark
  · rw [hnone, List.append_nil, Text.trimEnd, Text.dropEndWhile_of_pos padding.blanks]
    exact fun _ hc => absurd hc List.not_mem_nil
  · obtain ⟨rest, hrest⟩ := List.head?_eq_some_iff.mp hmark
    have htrim : Text.trimEnd ((padding.text ++ ['#']) ++ rest) =
        (padding.text ++ ['#']) ++ Text.trimEnd rest :=
      Text.dropEndWhile_append List.getLast?_concat (by decide)
    rw [hrest, ← List.singleton_append, ← List.append_assoc, htrim, List.append_assoc,
      cutComment_append (padding.blanks.not_mem (by decide)) (padding.blanks.not_mem (by decide)),
      List.singleton_append, cutComment, if_pos ⟨rfl, rfl⟩, List.append_nil]
    exact padding.blanks

namespace Entry

/-- The characters of keys. -/
theorem key_chars (e : Entry) :
    e.key.toList.all (fun c => !(['=', '"', '#', '[', '\n'].contains c)) = true := by
  cases e <;> dsimp only [key] <;> decide

/-- No key has a character that means something in a project file. -/
theorem not_mem_key (e : Entry) {c : Char} (hc : c ∈ ['=', '"', '#', '[', '\n']) :
    c ∉ e.key.toList := by
  intro hmem
  have hkey := List.all_eq_true.mp e.key_chars c hmem
  rw [List.contains_iff_mem.mpr hc] at hkey
  cases hkey

private theorem trimmed_key (e : Entry) : Text.Trimmed e.key.toList := by
  cases e with
  | trackFree =>
    change Text.Trimmed "track_free".toList
    exact ⟨⟨'t', by decide, by decide⟩, 'e', by decide, by decide⟩
  | vectorType =>
    change Text.Trimmed "vector_type".toList
    exact ⟨⟨'v', by decide, by decide⟩, 'e', by decide, by decide⟩
  | lanes =>
    change Text.Trimmed "lanes".toList
    exact ⟨⟨'l', by decide, by decide⟩, 's', by decide, by decide⟩

/-- A key is read without the blanks behind it, and has no quotation marks around it. -/
theorem trim_key (e : Entry) (padding : Padding) :
    Text.trimChar '"' (Text.trim (e.key.toList ++ padding.text)) = e.key.toList := by
  have hnone : Text.Blanks [] := fun _ h => absurd h List.not_mem_nil
  have htrim : Text.trim ([] ++ (e.key.toList ++ padding.text)) = e.key.toList :=
    Text.trim_padded hnone padding.blanks e.trimmed_key
  have hquote : Text.trimChar '"' ([] ++ (e.key.toList ++ [])) = e.key.toList :=
    Text.trimChar_padded (by simp) (by simp) (e.not_mem_key (by decide))
  rw [List.nil_append] at htrim
  rw [List.nil_append, List.append_nil] at hquote
  rw [htrim, hquote]

/-- A quoted text begins and ends with its quotes, so trimming keeps it. -/
theorem trimmed_quoted (text : List Char) : Text.Trimmed (['"'] ++ (text ++ ['"'])) :=
  ⟨⟨'"', rfl, by decide⟩, '"', by rw [← List.append_assoc, List.getLast?_concat], by decide⟩

private theorem trimmed_value (e : Entry) : Text.Trimmed e.value := by
  cases e with
  | trackFree b =>
    cases b with
    | true => exact ⟨⟨'t', by decide, by decide⟩, 'e', by decide, by decide⟩
    | false => exact ⟨⟨'f', by decide, by decide⟩, 'e', by decide, by decide⟩
  | vectorType v => exact trimmed_quoted _
  | lanes v => exact trimmed_quoted _

/-- A value is kept whole, number signs between its quotation marks included. -/
theorem cutComment_value (e : Entry) (rest : List Char) :
    cutComment false (e.value ++ rest) = e.value ++ cutComment false rest := by
  have hquoted (v : Quotable) :
      cutComment false (['"'] ++ (v.text.toList ++ ['"']) ++ rest) =
        ['"'] ++ (v.text.toList ++ ['"']) ++ cutComment false rest := by
    simp only [List.append_assoc, List.cons_append, List.nil_append]
    rw [cutComment, if_neg (fun h => absurd h.1 (by decide)), if_pos rfl]
    exact congrArg _ (cutComment_quoted v.unquoted rest)
  cases e with
  | trackFree b => cases b <;> exact cutComment_append (by decide) (by decide) rest
  | vectorType v => exact hquoted v
  | lanes v => exact hquoted v

end Entry

/-- A text is cut at the first mark in it. -/
theorem cutAtChar_append {mark : Char} {text : List Char} (h : mark ∉ text) (rest : List Char) :
    Text.cutAtChar mark (text ++ mark :: rest) = some (text, rest) := by
  have hpos : ∀ c ∈ text, (c != mark) = true := by
    intro c hc
    rw [bne_iff_ne]
    rintro rfl
    exact h hc
  rw [Text.cutAtChar, List.dropWhile_append_of_pos hpos, List.takeWhile_append_of_pos hpos,
    List.dropWhile_cons_of_neg (by simp), List.takeWhile_cons_of_neg (by simp), List.append_nil]

/-- A line whose first equality sign stands behind its key is an entry. -/
theorem ofText_of_trim {line key value : List Char} {c : Char}
    (h : Text.trim line = key ++ '=' :: value) (hc : key.head? = some c) (hmark : c ≠ '#')
    (hopen : c ≠ '[') (hkey : '=' ∉ key) :
    Line.ofText line =
      .entry (Text.trimChar '"' (Text.trim key)) (Text.trim (cutComment false value)) := by
  have hhead : (key ++ '=' :: value).head? = some c := by
    rw [List.head?_append, hc, Option.some_or]
  rw [Line.ofText, h, hhead, cutAtChar_append hkey, if_neg (by simp [hmark]),
    if_neg (by simp [hopen])]

/-- A line that sets an entry is read as its key and its value, whatever blanks and remark it has.
-/
theorem ofText_entry (e : Entry) (indent afterKey beforeValue afterValue : Padding)
    (remark : Remark) :
    Line.ofText (BodyLine.text (.entry e indent afterKey beforeValue afterValue remark)) =
      .entry e.key.toList e.value := by
  obtain ⟨⟨c, hc, hcb⟩, -⟩ := e.trimmed_key
  obtain ⟨-, d, hd, hdb⟩ := e.trimmed_value
  -- Up to its value the line is trimmed already, and it begins with its key.
  have hhead : (e.key.toList ++ afterKey.text ++ ['='] ++ beforeValue.text ++ e.value).head? =
      some c := by
    simp [hc]
  have hlast : (e.key.toList ++ afterKey.text ++ ['='] ++ beforeValue.text ++ e.value).getLast? =
      some d := by
    rw [List.getLast?_append, hd, Option.some_or]
  have htrim : Text.trim (BodyLine.text (.entry e indent afterKey beforeValue afterValue remark)) =
      (e.key.toList ++ afterKey.text) ++ '=' :: (beforeValue.text ++ (e.value ++
        Text.trimEnd (afterValue.text ++ remark.text))) := by
    rw [BodyLine.text, Text.trim_append indent.blanks ⟨⟨c, hhead, hcb⟩, d, hlast, hdb⟩]
    simp
  have hfirst : (e.key.toList ++ afterKey.text).head? = some c := by
    rw [List.head?_append, hc, Option.some_or]
  have hmem := List.mem_of_head? hc
  have hkey : '=' ∉ e.key.toList ++ afterKey.text := by
    rw [List.mem_append, not_or]
    exact ⟨e.not_mem_key (by decide), afterKey.blanks.not_mem (by decide)⟩
  rw [ofText_of_trim htrim hfirst (fun h => e.not_mem_key (by decide) (h ▸ hmem))
    (fun h => e.not_mem_key (by decide) (h ▸ hmem)) hkey,
    cutComment_append (beforeValue.blanks.not_mem (by decide))
      (beforeValue.blanks.not_mem (by decide)),
    e.cutComment_value,
    Text.trim_padded beforeValue.blanks (blanks_cutComment afterValue remark) e.trimmed_value,
    e.trim_key afterKey]

/-! ## Reading the lines -/

/-- Reading some lines leads from one section and settings to others, whatever lines follow. -/
def Leads (file : Path) (name : List Char) (s : Settings) (texts : List (List Char))
    (name' : List Char) (s' : Settings) : Prop :=
  ∀ rest, readLines file name s (texts ++ rest) = readLines file name' s' rest

namespace Leads

variable {file : Path} {name name' name'' : List Char} {s s' s'' : Settings}
  {texts texts' : List (List Char)}

theorem refl : Leads file name s [] name s := fun _ => rfl

/-- Lines lead on from where the lines before them led. -/
theorem append (h : Leads file name s texts name' s') (h' : Leads file name' s' texts' name'' s'') :
    Leads file name s (texts ++ texts') name'' s'' := by
  intro rest
  rw [List.append_assoc, h, h']

/-- The other lines lead on from where the first one led. -/
theorem cons {text : List Char} (h : Leads file name s [text] name' s')
    (h' : Leads file name' s' texts name'' s'') : Leads file name s (text :: texts) name'' s'' :=
  h.append h'

theorem heading (h : Heading) : Leads file name s [h.text] (Text.trim h.name) s := by
  intro rest
  rw [List.singleton_append, readLines, ofText_heading]

/-- An idle line changes neither the section nor the settings. -/
theorem idle {text : List Char} (h : Line.ofText text = .idle) :
    Leads file name s [text] name s := by
  intro rest
  rw [List.singleton_append, readLines, h]

/-- Outside the section with the settings, lines say nothing. -/
theorem other (hname : name ≠ convertSection) (h : ∀ text ∈ texts, ¬IsHead text) :
    Leads file name s texts name s := by
  induction texts with
  | nil => exact refl
  | cons text texts ih =>
    obtain ⟨htext, htexts⟩ := List.forall_mem_cons.mp h
    refine cons ?_ (ih htexts)
    intro rest
    rw [List.singleton_append, readLines]
    cases hline : Line.ofText text with
    | idle => rfl
    | header other => exact absurd hline (ofText_ne_header htext other)
    | entry key value =>
      simp only [if_neg hname]
      rfl

/-- A section of another name leaves the settings as they are. -/
theorem otherSection (o : OtherSection) :
    Leads file name s o.texts (Text.trim o.heading.name) s :=
  cons (heading o.heading) (other o.other o.plain)

/-- Sections of other names leave the settings as they are. -/
theorem exists_otherSections (file : Path) (name : List Char) (s : Settings)
    (os : List OtherSection) :
    ∃ name', Leads file name s (os.flatMap OtherSection.texts) name' s := by
  induction os generalizing name with
  | nil => exact ⟨name, refl⟩
  | cons o os ih =>
    obtain ⟨name', h⟩ := ih (Text.trim o.heading.name)
    exact ⟨name', (otherSection o).append h⟩

end Leads

/-- An entry is assigned what it sets. -/
theorem assign_entry (file : Path) (s : Settings) (e : Entry) :
    assign file s e.key.toList e.value = .ok (e.set s) := by
  have hquoted (v : Quotable) :
      String.ofList (Text.trimChar '"' (['"'] ++ (v.text.toList ++ ['"']))) = v.text := by
    rw [Text.trimChar_padded (by simp) (by simp) v.unquoted, String.ofList_toList]
  rw [assign, String.ofList_toList]
  cases e with
  | trackFree b =>
    cases b with
    | true => rfl
    | false => rfl
  | vectorType v =>
    exact congrArg (fun text => Except.ok { s with vectorType := some text }) (hquoted v)
  | lanes v => exact congrArg (fun text => Except.ok { s with lanes := some text }) (hquoted v)

/-- A line of the section sets its entry, if it has one. -/
theorem leads_bodyLine (file : Path) (s : Settings) (line : BodyLine) :
    Leads file convertSection s [line.text] convertSection (line.entry?.elim s (Entry.set s)) := by
  cases line with
  | idle indent remark => exact .idle (ofText_idle indent remark)
  | entry e indent afterKey beforeValue afterValue remark =>
    intro rest
    rw [List.singleton_append, readLines, ofText_entry]
    simp only [if_true, assign_entry]
    rfl

/-- The lines of the section set their entries in order. -/
theorem leads_body (file : Path) (s : Settings) (body : List BodyLine) :
    Leads file convertSection s (body.map BodyLine.text) convertSection
      ((body.filterMap BodyLine.entry?).foldl Entry.set s) := by
  induction body generalizing s with
  | nil => exact .refl
  | cons line body ih =>
    refine .cons (leads_bodyLine file s line) ?_
    cases line with
    | idle indent remark => exact ih s
    | entry e indent afterKey beforeValue afterValue remark => exact ih (e.set s)

/-! ## Splitting the text -/

/-- A line is read alike with and without a carriage return at its end. -/
theorem ofText_dropReturn (line : List Char) :
    Line.ofText (Text.dropReturn line) = Line.ofText line := by
  rw [Line.ofText, Text.trim_dropReturn]
  rfl

/-- A text is read as the lines it was put together from. -/
theorem readLines_intercalate (file : Path) (name : List Char) (s : Settings)
    {texts : List (List Char)} (h : ∀ line ∈ texts, '\n' ∉ line) :
    readLines file name s (Text.lines (List.intercalate ['\n'] texts)) =
      readLines file name s texts := by
  induction texts generalizing name s with
  | nil => rfl
  | cons line texts ih =>
    obtain ⟨hline, htexts⟩ := List.forall_mem_cons.mp h
    cases texts with
    | nil =>
      rw [List.intercalate_singleton, Text.lines_of_not_mem hline]
      split
      · next hempty =>
        rw [hempty]
        rfl
      · rfl
    | cons next texts =>
      rw [List.intercalate_cons_cons, List.append_assoc, List.singleton_append,
        Text.lines_append_break hline, readLines, readLines, ofText_dropReturn]
      simp only [fun name s => ih name s htexts]

private theorem inline_heading (h : Heading) : '\n' ∉ h.text := by
  simp only [Heading.text, List.mem_append, not_or]
  exact ⟨h.indent.inline, ⟨⟨by decide, h.inline⟩, by decide⟩, h.outdent.inline⟩

theorem Entry.inline_value (e : Entry) : '\n' ∉ e.value := by
  have hquoted (v : Quotable) : '\n' ∉ ['"'] ++ (v.text.toList ++ ['"']) := by
    simp only [List.mem_append, not_or]
    exact ⟨by decide, v.inline, by decide⟩
  cases e with
  | trackFree b => cases b <;> exact (by decide)
  | vectorType v => exact hquoted v
  | lanes v => exact hquoted v

private theorem inline_bodyLine (line : BodyLine) : '\n' ∉ line.text := by
  cases line with
  | idle indent remark =>
    simp only [BodyLine.text, List.mem_append, not_or]
    exact ⟨indent.inline, remark.inline⟩
  | entry e indent afterKey beforeValue afterValue remark =>
    simp only [BodyLine.text, List.mem_append, not_or]
    exact ⟨indent.inline, ⟨⟨⟨⟨e.not_mem_key (by decide), afterKey.inline⟩, by decide⟩,
      beforeValue.inline⟩, e.inline_value⟩, afterValue.inline, remark.inline⟩

/-- A line of another section has no line break. -/
theorem inline_texts {os : List OtherSection} {line : List Char}
    (h : line ∈ os.flatMap OtherSection.texts) : '\n' ∉ line := by
  obtain ⟨o, -, hline⟩ := List.mem_flatMap.mp h
  rcases List.mem_cons.mp hline with rfl | hline
  · exact inline_heading o.heading
  · exact o.inline line hline

/-- No line of a written project has a line break. -/
theorem Written.inline_lines (w : Written) {line : List Char} (h : line ∈ w.lines) :
    '\n' ∉ line := by
  simp only [Written.lines, List.mem_append, List.mem_cons, List.mem_map] at h
  rcases h with h | h | rfl | ⟨body, -, rfl⟩ | h
  · exact w.inline line h
  · exact inline_texts h
  · exact inline_heading w.heading
  · exact inline_bodyLine body
  · exact inline_texts h

/-! ## Reading the file -/

/-- A written file is read as its settings, made one after the other. -/
theorem readLines_written (w : Written) (file : Path) :
    readLines file [] Settings.none w.lines = .ok (w.entries.foldl Entry.set Settings.none) := by
  have hpreamble : Leads file [] Settings.none w.preamble [] Settings.none :=
    .other (by decide) w.plain
  obtain ⟨name, hbefore⟩ := Leads.exists_otherSections file [] Settings.none w.before
  have hheading : Leads file name Settings.none [w.heading.text] convertSection Settings.none :=
    w.convert ▸ .heading w.heading
  obtain ⟨_, hafter⟩ := Leads.exists_otherSections file convertSection
    (w.entries.foldl Entry.set Settings.none) w.after
  have hall := hpreamble.append (hbefore.append
    (hheading.cons ((leads_body file Settings.none w.body).append hafter)))
  have hread := hall []
  rw [List.append_nil] at hread
  exact hread

/-- A written project is parsed to the settings that its entries make, in order. -/
theorem parse_written (w : Written) (file : Path) :
    parse w.text file =
      .ok ⟨file.parent?.getD ⟨['.']⟩, w.entries.foldl Entry.set Settings.none⟩ := by
  rw [parse, Written.text, readLines_intercalate file [] Settings.none (fun _ => w.inline_lines),
    readLines_written]
  rfl

/-- Settings with different keys can be made in any order. -/
theorem foldl_set_of_perm {entries : List Entry} {b : Bool} {v l : Quotable}
    (h : entries.Perm [.trackFree b, .vectorType v, .lanes l]) :
    entries.foldl Entry.set Settings.none = ⟨some b, some v.text, some l.text⟩ := by
  refine (h.symm.foldl_eq' ?_ Settings.none).symm
  intro x hx y hy s
  simp only [List.mem_cons, List.not_mem_nil, or_false] at hx hy
  rcases hx with rfl | rfl | rfl <;> rcases hy with rfl | rfl | rfl <;> rfl

/-- Project files are read back. A file with one section of settings, which makes each of the three
once, in any order and with any layout, among sections of other names with any lines in them, is
read as exactly these settings, and the options of a conversion follow them. -/
theorem project_read_back (w : Written) (file : Path) {b : Bool} {v l : Quotable}
    (h : w.entries.Perm [.trackFree b, .vectorType v, .lanes l]) :
    ∃ project, parse w.text file = .ok project ∧
      project.settings = ⟨some b, some v.text, some l.text⟩ ∧
      Options.ofSettings project.settings = ⟨!b, v.text, l.text⟩ := by
  refine ⟨_, parse_written w file, foldl_set_of_perm h, ?_⟩
  rw [foldl_set_of_perm h]
  rfl

private theorem blanks_spaces (n : Nat) : Text.Blanks (List.replicate n ' ') := by
  intro c hc
  rw [List.eq_of_mem_replicate hc]
  decide

private theorem inline_spaces (n : Nat) : '\n' ∉ List.replicate n ' ' := fun h =>
  absurd (List.eq_of_mem_replicate h) (by decide)

/-- A number of spaces. -/
def Padding.spaces (n : Nat) : Padding := ⟨List.replicate n ' ', blanks_spaces n, inline_spaces n⟩

/-- No comment. -/
def Remark.none : Remark := ⟨[], .inl rfl, List.not_mem_nil⟩

/-- A file with a line that only looks like the head of its section, comments with signs of their
own, and values that are empty or hold the signs of the file. -/
def tangledProject : List String :=
  ["[ package ]", "name = \"convert\"", "[convert] # no head", " [convert]\r", "",
    "  lanes=  \"A #B = [c]\" # \"x", "# track_free = no", "track_free =true#]",
    "vector_type = \"\"", "[tail]", "track_free = maybe"]

open Padding in
/-- A project with remarks, other sections and marks inside a quoted value is read back. -/
theorem project_read_back_tangled :
    ∃ (w : Written) (v l : Quotable), w.lines = tangledProject.map String.toList ∧ v.text = "" ∧
      l.text = "A #B = [c]" ∧ w.entries.Perm [.trackFree true, .vectorType v, .lanes l] ∧
      ∃ project, parse w.text ⟨"automi.toml".toList⟩ = .ok project ∧
        project.settings = ⟨some true, some v.text, some l.text⟩ ∧
        Options.ofSettings project.settings = ⟨false, v.text, l.text⟩ := by
  let v : Quotable := ⟨"", by decide, by decide⟩
  let l : Quotable := ⟨"A #B = [c]", by decide, by decide⟩
  let w : Written :=
    { preamble := []
      inline := fun _ h => absurd h List.not_mem_nil
      plain := fun _ h => absurd h List.not_mem_nil
      before :=
        [{  heading := ⟨spaces 0, " package ".toList, spaces 0, by decide⟩
            other := by decide
            lines := ["name = \"convert\"".toList, "[convert] # no head".toList]
            inline := List.forall_mem_cons.mpr
              ⟨by decide, List.forall_mem_singleton.mpr (by decide)⟩
            plain := List.forall_mem_cons.mpr
              ⟨by decide, List.forall_mem_singleton.mpr (by decide)⟩ }]
      heading := ⟨spaces 1, "convert".toList,
        ⟨['\r'], List.forall_mem_singleton.mpr (by decide), by decide⟩, by decide⟩
      convert := by decide
      body :=
        [.idle (spaces 0) .none,
          .entry (.lanes l) (spaces 2) (spaces 0) (spaces 2) (spaces 1)
            ⟨"# \"x".toList, .inr rfl, by decide⟩,
          .idle (spaces 0) ⟨"# track_free = no".toList, .inr rfl, by decide⟩,
          .entry (.trackFree true) (spaces 0) (spaces 1) (spaces 0) (spaces 0)
            ⟨"#]".toList, .inr rfl, by decide⟩,
          .entry (.vectorType v) (spaces 0) (spaces 1) (spaces 1) (spaces 0) .none]
      after :=
        [{  heading := ⟨spaces 0, "tail".toList, spaces 0, by decide⟩
            other := by decide
            lines := ["track_free = maybe".toList]
            inline := List.forall_mem_singleton.mpr (by decide)
            plain := List.forall_mem_singleton.mpr (by decide) }] }
  have hentries : ([Entry.lanes l] ++ [Entry.trackFree true, .vectorType v]).Perm
      ([Entry.trackFree true, .vectorType v] ++ [Entry.lanes l]) := List.perm_append_comm
  exact ⟨w, v, l, by decide +kernel, rfl, rfl, hentries, project_read_back w _ hentries⟩

end Project

end VertexLanes
