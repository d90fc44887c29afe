/-!
# Lines

A line feed ends a line, and a carriage return directly before it belongs to
the line end. What follows the last line feed is a line only if it is not
empty, and keeps its carriage return.
-/

namespace VertexLanes.Text

/-- Remove one carriage return at the end of a line. -/
def dropReturn (line : List Char) : List Char :=
  if line.getLast? = some '\r' then line.dropLast else line

/-- Split at line feeds, with the characters of the line begun so far in reverse. -/
def linesFrom (begun : List Char) : List Char → List (List Char)
  | [] => if begun.isEmpty then [] else [begun.reverse]
  | c :: text =>
    if c = '\n' then dropReturn begun.reverse :: linesFrom [] text
    else linesFrom (c :: begun) text

/-- The lines of a text without their line ends. -/
def lines (text : List Char) : List (List Char) := linesFrom [] text

/-- Split at every copy of one character; `n` copies give `n + 1` parts. -/
def splitAtChar (mark : Char) : List Char → List (List Char)
  | [] => [[]]
  | c :: text =>
    if c = mark then [] :: splitAtChar mark text
    else
      match splitAtChar mark text with
      | [] => [[c]]
      | part :: parts => (c :: part) :: parts

/-- Splitting gives at least one part. -/
theorem splitAtChar_ne_nil (mark : Char) (text : List Char) : splitAtChar mark text ≠ [] := by
  cases text with
  | nil => simp [splitAtChar]
  | cons c text =>
    rw [splitAtChar]
    split
    · simp
    · split <;> simp

/-- A copy of the character divides the parts before it from those after it. -/
theorem splitAtChar_append (mark : Char) (a b : List Char) :
    splitAtChar mark (a ++ mark :: b) = splitAtChar mark a ++ splitAtChar mark b := by
  induction a with
  | nil => simp [splitAtChar]
  | cons c a ih =>
    rw [List.cons_append, splitAtChar, splitAtChar, ih]
    split
    · rfl
    · cases hs : splitAtChar mark a with
      | nil => exact absurd hs (splitAtChar_ne_nil mark a)
      | cons part parts => rfl

/-- Putting the character back between the parts gives the text. -/
theorem intercalate_splitAtChar (mark : Char) (text : List Char) :
    List.intercalate [mark] (splitAtChar mark text) = text := by
  induction text with
  | nil => rfl
  | cons c text ih =>
    have hne := splitAtChar_ne_nil mark text
    rw [splitAtChar]
    split
    · next h =>
      cases hs : splitAtChar mark text with
      | nil => exact absurd hs hne
      | cons part parts => rw [List.intercalate_cons_cons, ← hs, ih, h]; rfl
    · cases hs : splitAtChar mark text with
      | nil => exact absurd hs hne
      | cons part parts =>
        rw [hs] at ih
        cases parts with
        | nil => simpa [List.intercalate] using ih
        | cons next parts =>
          rw [List.intercalate_cons_cons] at ih ⊢
          simp only [List.cons_append, ih]

/-- A text without the character is its only part. -/
theorem splitAtChar_of_notMem {mark : Char} {text : List Char} (h : mark ∉ text) :
    splitAtChar mark text = [text] := by
  induction text with
  | nil => rfl
  | cons c text ih =>
    have hc : c ≠ mark := fun hc => h (hc ▸ List.mem_cons_self)
    rw [splitAtChar, if_neg hc, ih fun hmem => h (List.mem_cons_of_mem c hmem)]

/-- No part holds the character. -/
theorem notMem_of_mem_splitAtChar {mark : Char} {text part : List Char}
    (h : part ∈ splitAtChar mark text) : mark ∉ part := by
  induction text generalizing part with
  | nil =>
    rw [List.mem_singleton.mp h]
    exact List.not_mem_nil
  | cons c text ih =>
    rw [splitAtChar] at h
    split at h
    · rcases List.mem_cons.mp h with rfl | hpart
      · exact List.not_mem_nil
      · exact ih hpart
    · next hc =>
      cases hs : splitAtChar mark text with
      | nil => exact absurd hs (splitAtChar_ne_nil mark text)
      | cons first parts =>
        rw [hs] at h ih
        rcases List.mem_cons.mp h with rfl | hpart
        · intro hmem
          rcases List.mem_cons.mp hmem with heq | hfirst
          · exact hc heq.symm
          · exact ih List.mem_cons_self hfirst
        · exact ih (List.mem_cons_of_mem first hpart)

/-- Parts without the character are found again between its copies. -/
theorem splitAtChar_intercalate {mark : Char} {parts : List (List Char)} (hne : parts ≠ [])
    (h : ∀ part ∈ parts, mark ∉ part) :
    splitAtChar mark (List.intercalate [mark] parts) = parts := by
  induction parts with
  | nil => exact absurd rfl hne
  | cons part parts ih =>
    have hpart := splitAtChar_of_notMem (h part List.mem_cons_self)
    cases parts with
    | nil => simpa [List.intercalate] using hpart
    | cons next parts =>
      have hrest := ih (List.cons_ne_nil next parts) fun q hq => h q (List.mem_cons_of_mem part hq)
      rw [List.intercalate_cons_cons, List.append_assoc, List.singleton_append,
        splitAtChar_append, hpart, hrest]
      rfl

/-- Cut around the first copy of one character. -/
def cutAtChar (mark : Char) (text : List Char) : Option (List Char × List Char) :=
  match text.dropWhile (· != mark) with
  | [] => none
  | _ :: after => some (text.takeWhile (· != mark), after)

end VertexLanes.Text
