import VertexLanes.Text.Blank
import VertexLanes.Text.Lines

/-!
# Paths

A path is kept as its text. Slashes divide it into segments; empty segments and
single dots say nothing unless the path begins with them, and those at its end
are not looked at. The last segment is the file name, unless it leads upwards.
-/

namespace VertexLanes

/-- A path to a file or a directory. -/
structure Path where
  /-- Its text. -/
  chars : List Char
deriving DecidableEq, Repr

namespace Path

/-- The path of a given text. -/
def ofString (text : String) : Path := ⟨text.toList⟩

/-- The text of a path. -/
def text (p : Path) : String := String.ofList p.chars

/-- The slash or the single dot with which a path may begin. -/
def lead (p : Path) : List Char :=
  match p.chars with
  | '/' :: _ => ['/']
  | ['.'] => ['.']
  | '.' :: '/' :: _ => ['.']
  | _ => []

/-- Whether a segment says nothing. -/
def isIdle (segment : List Char) : Bool := segment.isEmpty || segment == ['.']

/-- The segment that leads to the directory above. -/
def upward : List Char := ['.', '.']

/-- The segments after the lead, without idle ones at the end. -/
def segments (p : Path) : List (List Char) :=
  Text.dropEndWhile isIdle (Text.splitAtChar '/' (p.chars.drop p.lead.length))

/-- Segments with slashes between them. -/
def joined (segments : List (List Char)) : List Char := List.intercalate ['/'] segments

/-- The file name, if the path has one. -/
def fileName? (p : Path) : Option (List Char) := p.segments.getLast?.filter (· != upward)

/-- The path without its last segment. -/
def parent? (p : Path) : Option Path :=
  if p.segments.isEmpty then if p.lead == ['.'] then some ⟨[]⟩ else none
  else some ⟨p.lead ++ joined (Text.dropEndWhile isIdle p.segments.dropLast)⟩

/-- A path extended by a relative path. -/
def join (p : Path) (other : List Char) : Path :=
  ⟨p.chars ++ (if p.chars.isEmpty || p.chars.getLast? == some '/' then [] else ['/']) ++ other⟩

/-- A path with another file name. Where it has none, the name is added. -/
def withFileName (p : Path) (name : List Char) : Path :=
  if p.fileName?.isSome then (p.parent?.getD p).join name else p.join name

/-- The part of a file name before its last dot. A name with no other dot than one at its beginning
is its own stem. -/
def stemOf (name : List Char) : List Char :=
  match name.reverse.dropWhile (· != '.') with
  | [] => name
  | _ :: before => if before.isEmpty then name else before.reverse

/-- What is added to a stem for the converted program. -/
def outputEnding : List Char := ".mi.cpp".toList

/-- The stem for a path without a file name. -/
def defaultStem : List Char := "out".toList

/-- Where the converted program goes if nothing else is said. -/
def defaultOutput (input : Path) : Path :=
  input.withFileName (((input.fileName?.map stemOf).getD defaultStem) ++ outputEnding)

/-- Joining fewer segments gives a beginning of the text. -/
theorem joined_mono {xs ys : List (List Char)} (h : xs <+: ys) : joined xs <+: joined ys := by
  obtain ⟨zs, rfl⟩ := h
  induction xs with
  | nil => exact List.nil_prefix
  | cons x xs ih =>
    cases xs with
    | nil =>
      cases zs with
      | nil => exact List.prefix_refl _
      | cons z zs =>
        rw [joined, joined, List.singleton_append, List.intercalate_cons_cons, List.append_assoc]
        simp [List.intercalate]
    | cons x' xs =>
      rw [joined, joined] at ih ⊢
      rw [List.cons_append, List.cons_append, List.intercalate_cons_cons,
        List.intercalate_cons_cons]
      exact (List.prefix_append_right_inj _).mpr ih

/-- A further segment that is not empty gives a longer text. -/
theorem length_joined_lt (xs : List (List Char)) {s : List Char} (h : s ≠ []) :
    (joined xs).length < (joined (xs ++ [s])).length := by
  induction xs with
  | nil => simpa [joined, List.intercalate] using List.length_pos_iff.mpr h
  | cons x xs ih =>
    cases xs with
    | nil =>
      simp only [joined, List.singleton_append, List.intercalate_cons_cons, List.length_append]
      simp [List.intercalate]
      omega
    | cons x' xs =>
      simp only [joined, List.cons_append, List.intercalate_cons_cons, List.length_append] at ih ⊢
      omega

theorem length_lead_le (p : Path) : p.lead.length ≤ p.chars.length := by
  unfold lead
  split <;> simp_all

/-- The lead and the segments are no longer than the path. -/
theorem length_segments_le (p : Path) :
    p.lead.length + (joined p.segments).length ≤ p.chars.length := by
  have hsegments := (joined_mono
    (Text.dropEndWhile_prefix isIdle (Text.splitAtChar '/' (p.chars.drop p.lead.length)))).length_le
  rw [joined, joined, Text.intercalate_splitAtChar, List.length_drop] at hsegments
  have hlead := length_lead_le p
  simp only [joined, segments] at hsegments ⊢
  omega

/-- The last segment of a path is not empty. -/
theorem getLast_segments_ne_nil (p : Path) {s : List Char} (h : p.segments.getLast? = some s) :
    s ≠ [] := by
  rintro rfl
  exact absurd (Text.getLast?_dropEndWhile h) (by decide)

/-- A path is longer than the path without its last segment. -/
theorem length_parent_lt {p q : Path} (h : p.parent? = some q) :
    q.chars.length < p.chars.length := by
  have hle := length_segments_le p
  unfold parent? at h
  split at h
  · split at h
    · next hl =>
      obtain rfl := Option.some.inj h
      have hlead : p.lead.length = 1 := by simp [eq_of_beq hl]
      show 0 < p.chars.length
      omega
    · exact absurd h (by simp)
  · next hs =>
    obtain rfl := Option.some.inj h
    have hne : p.segments ≠ [] := by simpa using hs
    have hlast := List.dropLast_concat_getLast hne
    have hs : p.segments.getLast hne ≠ [] :=
      getLast_segments_ne_nil p (List.getLast?_eq_some_getLast hne)
    have hlt := length_joined_lt p.segments.dropLast hs
    rw [hlast] at hlt
    have hshort :=
      (joined_mono (Text.dropEndWhile_prefix isIdle p.segments.dropLast)).length_le
    simp only [List.length_append]
    omega

/-- The path and all its parents, nearest first. -/
def ancestors (p : Path) : List Path :=
  match _h : p.parent? with
  | none => [p]
  | some q => p :: ancestors q
termination_by p.chars.length
decreasing_by exact length_parent_lt _h

end Path

end VertexLanes
