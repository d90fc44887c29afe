import VertexLanes.Path

/-!
# Names and directories of paths

A path is a lead, a directory and a name. Adding a name to a path keeps its lead,
makes the name its last segment, and leaves the path as the directory, less the
idle segments at its end. What is taken for the directory of a path has none there.
-/

namespace VertexLanes

namespace Path

/-! ## Names -/

/-- Whether a segment can name a file. -/
structure IsName (segment : List Char) : Prop where
  /-- It is one segment. -/
  no_slash : '/' ∉ segment
  /-- It leads somewhere. -/
  not_idle : isIdle segment = false
  /-- It does not lead upwards. -/
  not_upward : segment ≠ upward

theorem IsName.ne_nil {name : List Char} (h : IsName name) : name ≠ [] := by
  rintro rfl
  exact absurd h.not_idle (by decide)

/-- A segment stands between two slashes. -/
theorem mem_splitAtChar_of_mem_segments {p : Path} {s : List Char} (h : s ∈ p.segments) :
    s ∈ Text.splitAtChar '/' (p.chars.drop p.lead.length) :=
  (Text.dropEndWhile_prefix isIdle _).subset h

/-- The file name is the last segment, unless that leads upward. -/
theorem fileName?_eq_some_iff {p : Path} {name : List Char} :
    p.fileName? = some name ↔ p.segments.getLast? = some name ∧ name ≠ upward := by
  rw [fileName?, Option.filter_eq_some_iff, bne_iff_ne]

/-- A file name is a name. -/
theorem isName_of_fileName? {p : Path} {name : List Char} (h : p.fileName? = some name) :
    IsName name := by
  obtain ⟨hlast, hup⟩ := fileName?_eq_some_iff.mp h
  have hmem := mem_splitAtChar_of_mem_segments (List.mem_of_getLast? hlast)
  exact ⟨Text.notMem_of_mem_splitAtChar hmem, Text.getLast?_dropEndWhile hlast, hup⟩

/-! ## The lead of a path -/

/-- Whether a text begins with no slash and with no single dot as a segment. -/
structure Leadless (text : List Char) : Prop where
  ne_slash : text.head? ≠ some '/'
  ne_dot : text ≠ ['.']
  ne_dot_slash : ∀ more, text ≠ '.' :: '/' :: more

private theorem lead_of_leadless {text : List Char} (h : Leadless text) : lead ⟨text⟩ = [] := by
  obtain ⟨hslash, hdot, hdots⟩ := h
  unfold lead
  split <;> simp_all

/-- A path begins with a slash, with a dot as a segment, or with neither. -/
theorem lead_cases (p : Path) :
    (∃ rest, p.chars = '/' :: rest ∧ p.lead = ['/']) ∨
    (p.chars = ['.'] ∧ p.lead = ['.']) ∨
    (∃ rest, p.chars = '.' :: '/' :: rest ∧ p.lead = ['.']) ∨
    (Leadless p.chars ∧ p.lead = []) := by
  unfold lead
  split
  · next rest h => exact .inl ⟨rest, h, rfl⟩
  · next h => exact .inr (.inl ⟨h, rfl⟩)
  · next rest h => exact .inr (.inr (.inl ⟨rest, h, rfl⟩))
  · next hslash hdot hdots =>
    refine .inr (.inr (.inr ⟨⟨fun h => ?_, hdot, hdots⟩, rfl⟩))
    obtain ⟨rest, hrest⟩ := List.head?_eq_some_iff.mp h
    exact hslash rest hrest

private theorem lead_append (p : Path) : p.lead ++ p.chars.drop p.lead.length = p.chars := by
  rcases lead_cases p with ⟨rest, hp, hl⟩ | ⟨hp, hl⟩ | ⟨rest, hp, hl⟩ | ⟨-, hl⟩
  · rw [hl, hp]
    rfl
  · rw [hl, hp]
    rfl
  · rw [hl, hp]
    rfl
  · rw [hl]
    rfl

/-! ## Adding a name -/

/-- What stands between a path and a name that is added to it. -/
def separator (p : Path) : List Char :=
  if p.chars.isEmpty || p.chars.getLast? == some '/' then [] else ['/']

/-- A name is added behind the separator. -/
theorem chars_join (p : Path) (name : List Char) :
    (p.join name).chars = p.chars ++ p.separator ++ name := rfl

/-- There is a slash between them, unless the path ends in one or has nothing after its lead. -/
theorem separator_cases (p : Path) :
    p.separator = ['/'] ∨ p.separator = [] ∧ (p.chars.drop p.lead.length = [] ∨
      (p.chars.drop p.lead.length).getLast? = some '/') := by
  unfold separator
  split
  · next h =>
    refine .inr ⟨rfl, ?_⟩
    rcases Bool.or_eq_true_iff.mp h with hempty | hlast
    · rw [List.isEmpty_iff.mp hempty]
      exact .inl List.drop_nil
    · have hchars := eq_of_beq hlast
      rw [← lead_append p, List.getLast?_append] at hchars
      cases hrest : (p.chars.drop p.lead.length).getLast? with
      | none => exact .inl (List.getLast?_eq_none_iff.mp hrest)
      | some c =>
        rw [hrest] at hchars
        exact .inr hchars
  · exact .inl rfl

section
variable {p : Path} {name : List Char}

theorem leadless_of_isName (h : IsName name) : Leadless name where
  ne_slash hslash := h.no_slash (List.mem_of_head? hslash)
  ne_dot hdot := absurd h.not_idle (by rw [hdot]; decide)
  ne_dot_slash more hmore := h.no_slash (by rw [hmore]; simp)

/-- The beginning of a leadless text is leadless, unless it is a single dot. -/
theorem Leadless.of_append {text more : List Char} (h : Leadless (text ++ more))
    (hdot : text ≠ ['.']) : Leadless text where
  ne_slash hslash := h.ne_slash (by rw [List.head?_append, hslash]; rfl)
  ne_dot := hdot
  ne_dot_slash rest hrest := h.ne_dot_slash (rest ++ more) (by rw [hrest]; rfl)

/-- A leadless text stays so when more is added. -/
theorem Leadless.append {text more : List Char} (h : Leadless text) (hne : text ≠ [])
    (hmore : more ≠ []) : Leadless (text ++ more) := by
  obtain ⟨hslash, hdot, hdots⟩ := h
  cases text with
  | nil => exact absurd rfl hne
  | cons c text =>
    refine ⟨hslash, by simp [hmore], fun rest hrest => ?_⟩
    cases text with
    | nil =>
      obtain ⟨rfl, -⟩ := List.cons.inj hrest
      exact hdot rfl
    | cons d text =>
      obtain ⟨rfl, hd⟩ := List.cons.inj hrest
      obtain ⟨rfl, -⟩ := List.cons.inj hd
      exact hdots text rfl

theorem lead_join (h : IsName name) : (p.join name).lead = p.lead := by
  rcases lead_cases p with ⟨rest, hp, hl⟩ | ⟨hp, hl⟩ | ⟨rest, hp, hl⟩ | ⟨hp, hl⟩
  · rw [hl, join, hp]
    rfl
  · rw [hl, join, hp]
    rfl
  · rw [hl, join, hp]
    rfl
  · rw [hl]
    refine lead_of_leadless ?_
    change Leadless (p.chars ++ p.separator ++ name)
    by_cases hempty : p.chars = []
    · have hsep : p.separator = [] := by simp [separator, hempty]
      rw [hempty, hsep]
      exact leadless_of_isName h
    · rw [List.append_assoc]
      exact hp.append hempty (by simp [h.ne_nil])

/-- What follows the lead of a path with an added name. -/
theorem drop_lead_join (h : IsName name) :
    (p.join name).chars.drop (p.join name).lead.length =
      p.chars.drop p.lead.length ++ p.separator ++ name := by
  rw [lead_join h, chars_join, List.append_assoc, List.drop_append_of_le_length p.length_lead_le,
    List.append_assoc]

/-- Adding a name after a slash, or where none is needed, adds one part. -/
theorem exists_splitAtChar_append {text sep : List Char} (h : '/' ∉ name)
    (hsep : sep = ['/'] ∨ sep = [] ∧ (text = [] ∨ text.getLast? = some '/')) :
    ∃ parts, Text.splitAtChar '/' (text ++ sep ++ name) = parts ++ [name] ∧
      (Text.splitAtChar '/' text = parts ∨ Text.splitAtChar '/' text = parts ++ [[]]) := by
  have hname := Text.splitAtChar_of_notMem h
  rcases hsep with rfl | ⟨rfl, rfl | hlast⟩
  · refine ⟨Text.splitAtChar '/' text, ?_, .inl rfl⟩
    rw [List.append_assoc, List.singleton_append, Text.splitAtChar_append, hname]
  · exact ⟨[], hname, .inr rfl⟩
  · obtain ⟨before, rfl⟩ := List.getLast?_eq_some_iff.mp hlast
    refine ⟨Text.splitAtChar '/' before, ?_, .inr (Text.splitAtChar_append '/' before [])⟩
    rw [List.append_nil, List.append_assoc, List.singleton_append, Text.splitAtChar_append, hname]

/-- The last segment of a path with an added name is the name; those before it are those of the
path, up to idle ones at the end. -/
theorem exists_segments_join (h : IsName name) :
    ∃ parts, (p.join name).segments = parts ++ [name] ∧
      Text.dropEndWhile isIdle parts = p.segments := by
  obtain ⟨parts, hparts, hpath⟩ := exists_splitAtChar_append h.no_slash (separator_cases p)
  refine ⟨parts, ?_, ?_⟩
  · rw [segments, drop_lead_join h, hparts]
    refine Text.dropEndWhile_eq_self fun s hs => ?_
    rw [List.getLast?_concat] at hs
    rw [← Option.some.inj hs]
    exact h.not_idle
  · rw [segments]
    rcases hpath with hpath | hpath
    · rw [hpath]
    · rw [hpath, Text.dropEndWhile_append_of_pos (by decide)]

theorem fileName?_join (h : IsName name) : (p.join name).fileName? = some name := by
  obtain ⟨parts, hparts, -⟩ := exists_segments_join (p := p) h
  rw [fileName?_eq_some_iff, hparts]
  exact ⟨List.getLast?_concat, h.not_upward⟩

/-! ## Directories -/

/-- A path without the idle segments at its end. -/
def trimmed (p : Path) : Path := ⟨p.lead ++ joined p.segments⟩

/-- The directory of a path with an added name is the path. -/
theorem parent?_join (h : IsName name) : (p.join name).parent? = some p.trimmed := by
  obtain ⟨parts, hparts, hpath⟩ := exists_segments_join (p := p) h
  rw [parent?, hparts, if_neg (by simp), List.dropLast_concat, hpath, lead_join h]
  rfl

end

section
variable {p : Path} {kept : List (List Char)}

/-- Segments from the beginning of a path are found again in their text. -/
theorem splitAtChar_joined (h : kept <+: Text.splitAtChar '/' (p.chars.drop p.lead.length))
    (hne : kept ≠ []) : Text.splitAtChar '/' (joined kept) = kept :=
  Text.splitAtChar_intercalate hne fun _ hs => Text.notMem_of_mem_splitAtChar (h.subset hs)

/-- Segments at the beginning of a path keep its lead, unless they end in an idle one. -/
theorem lead_joined (h : kept <+: Text.splitAtChar '/' (p.chars.drop p.lead.length))
    (hlast : ∀ s, kept.getLast? = some s → isIdle s = false) :
    lead ⟨p.lead ++ joined kept⟩ = p.lead := by
  have hbegin : joined kept <+: p.chars.drop p.lead.length := by
    have hjoined := joined_mono h
    rwa [joined, joined, Text.intercalate_splitAtChar] at hjoined
  rcases lead_cases p with ⟨rest, hp, hl⟩ | ⟨hp, hl⟩ | ⟨rest, hp, hl⟩ | ⟨hp, hl⟩
  · rw [hl]
    rfl
  · rw [hl, hp] at hbegin
    rw [hl, List.prefix_nil.mp hbegin]
    rfl
  · rw [hl, hp] at hbegin
    rcases List.prefix_cons_iff.mp hbegin with hnil | ⟨more, hmore, -⟩
    · rw [hl, hnil]
      rfl
    · rw [hl, hmore]
      rfl
  · rw [hl] at hbegin ⊢
    obtain ⟨more, hmore⟩ := hbegin
    have hwhole : Leadless (joined kept ++ more) := by
      rw [hmore]
      exact hp
    refine lead_of_leadless (hwhole.of_append fun hdot => ?_)
    -- a single dot would be the only segment, and an idle one
    have hne : kept ≠ [] := by
      rintro rfl
      cases hdot
    have hkept := splitAtChar_joined h hne
    rw [hdot] at hkept
    exact absurd (hlast ['.'] (by rw [← hkept]; rfl)) (by decide)

/-- First segments of a path, joined behind its lead, are its segments. -/
theorem segments_joined (h : kept <+: Text.splitAtChar '/' (p.chars.drop p.lead.length))
    (hlast : ∀ s, kept.getLast? = some s → isIdle s = false) :
    segments ⟨p.lead ++ joined kept⟩ = kept := by
  rw [segments, lead_joined h hlast, List.drop_left]
  by_cases hnil : kept = []
  · rw [hnil]
    rfl
  · rw [splitAtChar_joined h hnil, Text.dropEndWhile_eq_self hlast]

/-- The directory of a path has no idle segments at its end. -/
theorem trimmed_of_parent? {q : Path} (h : p.parent? = some q) : q.trimmed = q := by
  unfold parent? at h
  split at h
  · split at h
    · rw [← Option.some.inj h]
      rfl
    · cases h
  · rw [← Option.some.inj h]
    have hkept : Text.dropEndWhile isIdle p.segments.dropLast <+:
        Text.splitAtChar '/' (p.chars.drop p.lead.length) :=
      (Text.dropEndWhile_prefix isIdle _).trans
        ((List.dropLast_prefix _).trans (Text.dropEndWhile_prefix isIdle _))
    have hlast : ∀ s, (Text.dropEndWhile isIdle p.segments.dropLast).getLast? = some s →
        isIdle s = false := fun _ => Text.getLast?_dropEndWhile
    rw [trimmed, segments_joined hkept hlast, lead_joined hkept hlast]

end

end Path

end VertexLanes
