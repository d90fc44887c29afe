/-!
# Blank characters

The characters with the Unicode property `White_Space`, and trimming by it.
The lexer's own white space is a smaller, ASCII-only set and is not defined here.
-/

namespace VertexLanes.Text

/-- The ranges of code points with the property `White_Space`, in order. -/
def blankRanges : List (Nat × Nat) :=
  [(0x9, 0xD), (0x20, 0x20), (0x85, 0x85), (0xA0, 0xA0), (0x1680, 0x1680), (0x2000, 0x200A),
    (0x2028, 0x2029), (0x202F, 0x202F), (0x205F, 0x205F), (0x3000, 0x3000)]

/-- Whether a character has the property `White_Space`. -/
def isBlank (c : Char) : Bool :=
  blankRanges.any fun (first, last) => first ≤ c.toNat && c.toNat ≤ last

/-- Remove the longest run at the end whose items all satisfy `p`. -/
def dropEndWhile {α : Type} (p : α → Bool) (items : List α) : List α :=
  (items.reverse.dropWhile p).reverse

/-- What is left after removing items at the end stood at the beginning. -/
theorem dropEndWhile_prefix {α : Type} (p : α → Bool) (items : List α) :
    dropEndWhile p items <+: items := by
  have h := List.dropWhile_suffix p (l := items.reverse)
  simpa [dropEndWhile] using List.reverse_prefix.mpr h

section
variable {α : Type} {p : α → Bool} {a b : List α}

/-- Items at the end are removed, and nothing else. -/
theorem exists_dropEndWhile_append (p : α → Bool) (a : List α) :
    ∃ removed, a = dropEndWhile p a ++ removed ∧ ∀ x ∈ removed, p x = true := by
  refine ⟨(a.reverse.takeWhile p).reverse, ?_, fun x hx => ?_⟩
  · rw [dropEndWhile, ← List.reverse_append, List.takeWhile_append_dropWhile, List.reverse_reverse]
  · exact List.all_eq_true.mp List.all_takeWhile x (List.mem_reverse.mp hx)

/-- An end that is all dropped does not change what is left. -/
theorem dropEndWhile_append_of_pos (h : ∀ x ∈ b, p x = true) :
    dropEndWhile p (a ++ b) = dropEndWhile p a := by
  rw [dropEndWhile, List.reverse_append, List.dropWhile_append_of_pos (by simpa using h)]
  rfl

theorem dropEndWhile_of_pos (h : ∀ x ∈ b, p x = true) : dropEndWhile p b = [] :=
  dropEndWhile_append_of_pos (a := []) h

/-- What stands before an item that is not removed stays. -/
theorem dropEndWhile_append {x : α} (hx : a.getLast? = some x) (hp : p x = false) :
    dropEndWhile p (a ++ b) = a ++ dropEndWhile p b := by
  obtain ⟨before, rfl⟩ := List.getLast?_eq_some_iff.mp hx
  have hdrop : (x :: before.reverse).dropWhile p = x :: before.reverse :=
    List.dropWhile_cons_of_neg (by simp [hp])
  rw [dropEndWhile, dropEndWhile, List.reverse_append, List.dropWhile_append,
    List.reverse_append, List.reverse_singleton, List.singleton_append, hdrop]
  split
  · next hempty =>
    rw [List.isEmpty_iff.mp hempty]
    simp
  · simp

/-- The last item that is left is one that is not removed. -/
theorem getLast?_dropEndWhile {x : α} (h : (dropEndWhile p a).getLast? = some x) : p x = false := by
  have hhead := List.head?_dropWhile_not p a.reverse
  rw [dropEndWhile, List.getLast?_reverse] at h
  rw [h] at hhead
  simpa using hhead

/-- A list whose last entry is kept is kept. -/
theorem dropEndWhile_eq_self (h : ∀ x, a.getLast? = some x → p x = false) :
    dropEndWhile p a = a := by
  cases hlast : a.getLast? with
  | none =>
    rw [List.getLast?_eq_none_iff.mp hlast]
    rfl
  | some x => simpa [dropEndWhile] using dropEndWhile_append (b := []) hlast (h x hlast)

end

/-- Remove blanks at the beginning. -/
def trimStart (text : List Char) : List Char := text.dropWhile isBlank

/-- Remove blanks at the end. -/
def trimEnd (text : List Char) : List Char := dropEndWhile isBlank text

/-- Remove blanks at both ends. -/
def trim (text : List Char) : List Char := trimEnd (trimStart text)

/-- Remove every copy of one character from both ends. -/
def trimChar (c : Char) (text : List Char) : List Char :=
  dropEndWhile (· == c) (text.dropWhile (· == c))

end VertexLanes.Text
