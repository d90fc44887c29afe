import Mathlib.Order.Monotone.Basic
import VertexLanes.Proofs.ConversionOrder
import VertexLanes.Proofs.PathNames

/-!
# Default outputs

The default output of an input stands in the directory of the input. Its name is
the input's stem with an ending of two dots. A stem lacks at most one dot of the
name, so each default output has more dots in its name than its input: it has
another name, and so have all default outputs that are made from it in turn. A
path to another name in the same directory leads to another place, and a
conversion that writes there leaves its input as it was.
-/

namespace VertexLanes

namespace Path

/-! ## Stems -/

/-- A name is its own stem, or its stem with an ending after the last dot. -/
theorem stemOf_cases (name : List Char) :
    stemOf name = name ∨ ∃ ending, name = stemOf name ++ '.' :: ending ∧ '.' ∉ ending := by
  have hsplit := List.takeWhile_append_dropWhile (p := (· != '.')) (l := name.reverse)
  have hhead := List.head?_dropWhile_not (· != '.') name.reverse
  have hnone : '.' ∉ name.reverse.takeWhile (· != '.') := fun h => by
    simpa using List.all_eq_true.mp List.all_takeWhile '.' h
  unfold stemOf
  cases hdrop : name.reverse.dropWhile (· != '.') with
  | nil => exact .inl rfl
  | cons c before =>
    rw [hdrop] at hsplit hhead
    have hc : c = '.' := by simpa using hhead
    by_cases hbefore : before.isEmpty
    · exact .inl (if_pos hbefore)
    · have hname := congrArg List.reverse hsplit
      rw [List.reverse_reverse, List.reverse_append, List.reverse_cons, List.append_assoc,
        List.singleton_append, hc] at hname
      refine .inr ⟨(name.reverse.takeWhile (· != '.')).reverse, ?_, by simpa using hnone⟩
      simpa only [if_neg hbefore] using hname.symm

/-- A stem has at most one dot less than the name. -/
theorem count_dot_le_stemOf (name : List Char) :
    name.count '.' ≤ (stemOf name).count '.' + 1 := by
  rcases stemOf_cases name with heq | ⟨ending, hname, hdot⟩
  · rw [heq]
    exact Nat.le_succ _
  · have hcount := congrArg (List.count '.') hname
    rw [List.count_append, List.count_cons_self, List.count_eq_zero_of_not_mem hdot] at hcount
    exact Nat.le_of_eq hcount

private theorem stemOf_subset (name : List Char) : stemOf name ⊆ name := by
  rcases stemOf_cases name with heq | ⟨ending, hname, -⟩
  · rw [heq]
    exact List.Subset.refl _
  · intro c hc
    rw [hname]
    exact List.mem_append_left _ hc

/-! ## The name of the default output -/

/-- The name of the default output of an input. -/
def outputName (p : Path) : List Char :=
  (p.fileName?.map stemOf).getD defaultStem ++ outputEnding

/-- A stem without slashes and the output ending make a name. -/
theorem isName_append_outputEnding {stem : List Char} (h : '/' ∉ stem) :
    IsName (stem ++ outputEnding) := by
  have hlength : 2 < (stem ++ outputEnding).length := by
    rw [List.length_append]
    exact Nat.lt_add_left _ (by decide)
  refine ⟨fun hmem => ?_, ?_, fun hup => ?_⟩
  · rcases List.mem_append.mp hmem with hstem | hending
    · exact h hstem
    · exact absurd hending (by decide)
  · refine Bool.eq_false_iff.mpr fun hidle => ?_
    rcases Bool.or_eq_true_iff.mp hidle with hnil | hdot
    · rw [List.isEmpty_iff.mp hnil] at hlength
      exact absurd hlength (by decide)
    · rw [eq_of_beq hdot] at hlength
      exact absurd hlength (by decide)
  · rw [hup] at hlength
    exact absurd hlength (by decide)

theorem isName_outputName (p : Path) : IsName p.outputName := by
  unfold outputName
  cases hname : p.fileName? with
  | none => exact isName_append_outputEnding (by decide)
  | some name =>
    have hslash := (isName_of_fileName? hname).no_slash
    exact isName_append_outputEnding fun hmem => hslash (stemOf_subset name hmem)

section
variable {p : Path}

/-- A path with a file name has its output in the same directory. -/
theorem defaultOutput_of_some {name : List Char} (h : p.fileName? = some name) :
    ∃ directory, p.parent? = some directory ∧ p.defaultOutput = directory.join p.outputName := by
  have hne : p.segments.isEmpty ≠ true := by
    intro hempty
    have hlast := (fileName?_eq_some_iff.mp h).1
    rw [List.isEmpty_iff.mp hempty] at hlast
    cases hlast
  refine ⟨_, if_neg hne, ?_⟩
  rw [defaultOutput, withFileName, h, if_pos Option.isSome_some, parent?, if_neg hne, outputName, h]
  rfl

private theorem defaultOutput_of_none (h : p.fileName? = none) :
    p.defaultOutput = p.join p.outputName := by
  rw [defaultOutput, withFileName, h, outputName, h]
  rfl

/-- The name is added to the directory of the input, or to the input itself. -/
theorem exists_defaultOutput_eq_join (p : Path) :
    ∃ q : Path, p.defaultOutput = q.join p.outputName := by
  cases h : p.fileName? with
  | none => exact ⟨p, defaultOutput_of_none h⟩
  | some name =>
    obtain ⟨directory, -, houtput⟩ := defaultOutput_of_some h
    exact ⟨directory, houtput⟩

theorem fileName?_defaultOutput (p : Path) : p.defaultOutput.fileName? = some p.outputName := by
  obtain ⟨q, houtput⟩ := exists_defaultOutput_eq_join p
  rw [houtput]
  exact fileName?_join (isName_outputName p)

theorem outputEnding_suffix_chars (p : Path) : outputEnding <:+ p.defaultOutput.chars := by
  obtain ⟨q, houtput⟩ := exists_defaultOutput_eq_join p
  rw [houtput]
  exact (List.suffix_append _ _).trans (List.suffix_append _ _)

/-- The default output stands in the directory of the input. -/
theorem parent?_defaultOutput {name : List Char} (h : p.fileName? = some name) :
    ∃ directory, p.parent? = some directory ∧ p.defaultOutput.parent? = some directory := by
  obtain ⟨directory, hparent, houtput⟩ := defaultOutput_of_some h
  refine ⟨directory, hparent, ?_⟩
  rw [houtput, parent?_join (isName_outputName p), trimmed_of_parent? hparent]

/-! ## Default outputs of default outputs -/

/-- The number of dots in the name of a path. -/
def dots (p : Path) : Nat := (p.fileName?.getD []).count '.'

/-- A default output has more dots than its input. -/
theorem dots_lt_defaultOutput (p : Path) : p.dots < p.defaultOutput.dots := by
  have hending : outputEnding.count '.' = 2 := by decide
  rw [dots, dots, fileName?_defaultOutput, outputName, Option.getD_some, List.count_append, hending]
  cases p.fileName? with
  | none => exact Nat.lt_add_left _ (by decide)
  | some name =>
    have hstem := count_dot_le_stemOf name
    simp only [Option.map_some, Option.getD_some]
    omega

/-- The output of an output has more dots in its name, again and again. -/
theorem strictMono_dots (p : Path) : StrictMono fun n => (defaultOutput^[n] p).dots :=
  strictMono_nat_of_lt_succ fun n => by
    rw [Function.iterate_succ_apply']
    exact dots_lt_defaultOutput _

/-- No default output in a row has the name of an earlier one, or of the input. -/
theorem fileName?_iterate_ne (p : Path) {i j : Nat} (h : i < j) :
    (defaultOutput^[i] p).fileName? ≠ (defaultOutput^[j] p).fileName? := by
  intro hname
  have hdots := strictMono_dots p h
  simp only [dots, hname] at hdots
  exact absurd hdots (Nat.lt_irrefl _)

end

end Path

namespace FileTree

/-! ## Where paths lead -/

section
variable {p : Path} {place last : Place} {name : List Char}

/-- A name leads from a directory to the entry of that name. -/
theorem exists_of_next? (h : Path.IsName name) (hnext : next? place name = some last) :
    ∃ names, place = .inside names ∧ last = .inside (names ++ [name]) := by
  have hup : ¬ (name == Path.upward) = true := fun hup => h.not_upward (eq_of_beq hup)
  unfold next? at hnext
  rw [h.not_idle, if_neg Bool.false_ne_true] at hnext
  cases place with
  | outside =>
    simp only [if_neg hup] at hnext
    cases hnext
  | inside names =>
    simp only [if_neg hup] at hnext
    split at hnext
    · cases hnext
    · exact ⟨names, rfl, (Option.some.inj hnext).symm⟩

/-- An idle name stays at its place. -/
theorem foldlM_next?_cons_of_idle (h : Path.isIdle name = true) (ss : List (List Char)) :
    (name :: ss).foldlM next? place = ss.foldlM next? place := by
  have hnext : next? place name = some place := if_pos h
  rw [List.foldlM_cons, hnext]
  rfl

/-- Idle names stay at their place. -/
theorem foldlM_next?_of_idle {ss : List (List Char)} (h : ∀ s ∈ ss, Path.isIdle s = true) :
    ss.foldlM next? place = some place := by
  induction ss with
  | nil => rfl
  | cons s ss ih =>
    rw [foldlM_next?_cons_of_idle (h s List.mem_cons_self)]
    exact ih fun t ht => h t (List.mem_cons_of_mem s ht)

/-- Idle segments at the end make no difference. -/
theorem foldlM_next?_dropEndWhile {q : List Char → Bool}
    (hq : ∀ s, q s = true → Path.isIdle s = true) (ss : List (List Char)) :
    (Text.dropEndWhile q ss).foldlM next? place = ss.foldlM next? place := by
  obtain ⟨removed, hss, hremoved⟩ := Text.exists_dropEndWhile_append q ss
  rw [hss, List.foldlM_append, ← hss]
  cases (Text.dropEndWhile q ss).foldlM next? place with
  | none => rfl
  | some last => exact (foldlM_next?_of_idle fun s hs => hq s (hremoved s hs)).symm

/-- A destination is found name by name. -/
theorem destination?_eq_split (p : Path) :
    destination? p = (Text.splitAtChar '/' p.chars).foldlM next? (start p) :=
  foldlM_next?_dropEndWhile (fun s hs => by simp [Path.isIdle, hs]) _

/-- A path leads where its segments lead. -/
theorem destination?_eq (p : Path) : destination? p = p.segments.foldlM next? (start p) := by
  have hslash : ∀ text, Text.splitAtChar '/' ('/' :: text) = [] :: Text.splitAtChar '/' text :=
    fun _ => rfl
  have hdot : ∀ text,
      Text.splitAtChar '/' ('.' :: '/' :: text) = ['.'] :: Text.splitAtChar '/' text := fun _ => rfl
  rw [destination?_eq_split, Path.segments, foldlM_next?_dropEndWhile fun _ hs => hs]
  rcases Path.lead_cases p with ⟨rest, hp, hl⟩ | ⟨hp, hl⟩ | ⟨rest, hp, hl⟩ | ⟨-, hl⟩
  · rw [hl, hp, hslash, foldlM_next?_cons_of_idle rfl]
    rfl
  · rw [hl, hp]
    rfl
  · rw [hl, hp, hdot, foldlM_next?_cons_of_idle rfl]
    exact (foldlM_next?_cons_of_idle rfl _).symm
  · rw [hl]
    rfl

private theorem start_join (h : Path.IsName name) : start (p.join name) = start p := by
  have hhead : (p.join name).chars.head? = some '/' ↔ p.chars.head? = some '/' := by
    rw [Path.chars_join]
    cases hp : p.chars with
    | nil => simpa [Path.separator, hp] using (Path.leadless_of_isName h).ne_slash
    | cons c cs => rfl
  simp only [start, beq_iff_eq, hhead]

/-- A path with an added name leads where the name leads from where the path leads. -/
theorem destination?_join (h : Path.IsName name) :
    destination? (p.join name) = (destination? p).bind fun place => next? place name := by
  obtain ⟨parts, hparts, hpath⟩ := Path.exists_segments_join (p := p) h
  rw [destination?_eq, destination?_eq, hparts, start_join h, ← hpath,
    foldlM_next?_dropEndWhile fun _ hs => hs, List.foldlM_append]
  cases parts.foldlM next? (start p) with
  | none => rfl
  | some place => exact bind_pure (next? place name)

/-- A path leads to an entry of its name. -/
theorem exists_of_destination? (h : p.fileName? = some name) (hp : destination? p = some place) :
    ∃ names, place = .inside (names ++ [name]) := by
  obtain ⟨before, hsegments⟩ := List.getLast?_eq_some_iff.mp (Path.fileName?_eq_some_iff.mp h).1
  rw [destination?_eq, hsegments, List.foldlM_append] at hp
  obtain ⟨directory, -, hlast⟩ := Option.bind_eq_some_iff.mp hp
  have hnext := (bind_pure (next? directory name)).symm.trans hlast
  obtain ⟨names, -, hplace⟩ := exists_of_next? (Path.isName_of_fileName? h) hnext
  exact ⟨names, hplace⟩

/-- An input and its default output lead to different places. -/
theorem destination?_defaultOutput_ne (hp : destination? p = some place) :
    destination? p.defaultOutput ≠ some place := by
  intro houtput
  cases hname : p.fileName? with
  | none =>
    have houtputName := Path.isName_outputName p
    rw [Path.defaultOutput_of_none hname, destination?_join houtputName, hp] at houtput
    obtain ⟨names, hdirectory, hplace⟩ := exists_of_next? houtputName houtput
    have hlength := congrArg List.length (Place.inside.inj (hdirectory.symm.trans hplace))
    simp at hlength
  | some name =>
    obtain ⟨names, hplace⟩ := exists_of_destination? hname hp
    obtain ⟨others, hother⟩ := exists_of_destination? (Path.fileName?_defaultOutput p) houtput
    have hsame := congrArg List.getLast? (Place.inside.inj (hplace.symm.trans hother))
    rw [List.getLast?_concat, List.getLast?_concat, ← hname, ← Path.fileName?_defaultOutput]
      at hsame
    exact Path.fileName?_iterate_ne p Nat.one_pos hsame

end

/-! ## What a conversion leaves of its input -/

section
variable {t u : FileTree} {p : Path} {place last : Place}

/-- A step can only be made from a directory. -/
theorem entryAt_of_step {s : List Char} (h : t.step place s = .ok last) :
    t.entryAt place = some .directory := by
  cases hplace : t.entryAt place with
  | none => simp [step, requireDirectory, hplace, bind, Except.bind] at h
  | some entry =>
    cases entry with
    | file content => simp [step, requireDirectory, hplace, bind, Except.bind] at h
    | directory => rfl

/-- On the way to the end of a path there are directories only. -/
theorem entryAt_of_mem_trail {ss : List (List Char)} (h : ss.foldlM t.step place = .ok last) :
    ∀ q ∈ trail place ss, q = last ∨ t.entryAt q = some .directory := by
  induction ss generalizing place with
  | nil =>
    cases h
    exact fun q hq => .inl (List.mem_singleton.mp hq)
  | cons s ss ih =>
    rw [List.foldlM_cons] at h
    cases hs : t.step place s with
    | error e =>
      rw [hs] at h
      cases h
    | ok next =>
      rw [hs] at h
      rw [trail_cons (next?_of_step hs)]
      intro q hq
      rcases List.mem_cons.mp hq with rfl | hq
      · exact .inr (entryAt_of_step hs)
      · exact ih h q hq

theorem destination?_of_resolve (h : t.resolve p = .ok place) : destination? p = some place := by
  rw [destination?_eq_split]
  exact foldlM_next?_of_step (foldlM_step_of_resolve h)

/-- A file that can be read has a place. -/
theorem exists_resolve_of_read {source : String} (h : t.read p = .ok source) :
    ∃ place, t.resolve p = .ok place := by
  cases hplace : t.resolve p with
  | error e =>
    unfold read at h
    rw [hplace] at h
    cases h
  | ok place => exact ⟨place, rfl⟩

/-- Writing the default output of a file that can be read leaves that file as it was. -/
theorem read_of_write_defaultOutput {source text : String} (hread : t.read p = .ok source)
    (hwrite : t.write p.defaultOutput text = .ok u) : u.read p = t.read p := by
  obtain ⟨last, hlast⟩ := exists_resolve_of_read hread
  have hsame : Agree (visited p.defaultOutput) t t := fun _ _ => rfl
  rcases write_congr hsame text with ⟨e, herror, -⟩ | ⟨names, hn, houtput, hfree, hput, -⟩
  · rw [herror] at hwrite
    cases hwrite
  · rw [hput] at hwrite
    refine (read_congr fun place hplace => ?_).symm
    rw [← Except.ok.inj hwrite, entryAt_put t hn, if_neg]
    rintro rfl
    -- the output is neither the input nor a directory on the way to it
    rcases entryAt_of_mem_trail (foldlM_step_of_resolve hlast) _ hplace with rfl | hdirectory
    · exact destination?_defaultOutput_ne (destination?_of_resolve hlast) houtput
    · exact hfree hdirectory

end

end FileTree

/-- A conversion to the default output leaves its input as it was. -/
theorem read_convertInput (config : Option Path) (trackFree : Bool) (input : Path)
    (t : FileTree) :
    ((convertInput none config trackFree input : StateM FileTree _).run t).2.read input =
      t.read input := by
  rcases convertInput_cases config trackFree input t with
    ⟨e, hrun, -⟩ | ⟨source, text, tree, report, hread, hwrite, hrun⟩
  · rw [hrun]
  · rw [hrun]
    exact FileTree.read_of_write_defaultOutput hread hwrite

/-- The default output of an input has another name, which ends in `.mi.cpp`, and stands in the
directory of the input, where the input has a name. All default outputs that are made in turn have
names that differ from one another and from that of the input. So a conversion does not write to
its own input. -/
theorem defaultOutput_apart_from_input (p : Path) :
    (∃ name, p.defaultOutput.fileName? = some name ∧ p.fileName? ≠ some name ∧
      ".mi.cpp".toList <:+ name) ∧
    ".mi.cpp".toList <:+ p.defaultOutput.chars ∧
    (p.fileName?.isSome → ∃ directory, p.parent? = some directory ∧
      p.defaultOutput.parent? = some directory) ∧
    (∀ i j, i < j → (Path.defaultOutput^[i] p).fileName? ≠ (Path.defaultOutput^[j] p).fileName?) ∧
    ∀ config trackFree t,
      ((convertInput none config trackFree p : StateM FileTree _).run t).2.read p = t.read p := by
  have hname := p.fileName?_defaultOutput
  refine ⟨⟨p.outputName, hname, ?_, List.suffix_append _ _⟩, p.outputEnding_suffix_chars, ?_,
    fun i j => p.fileName?_iterate_ne, fun config trackFree => read_convertInput config trackFree p⟩
  · rw [← hname]
    exact p.fileName?_iterate_ne Nat.one_pos
  · intro hsome
    obtain ⟨name, h⟩ := Option.isSome_iff_exists.mp hsome
    exact Path.parent?_defaultOutput h

/-- An input that begins with a dot and already has the output ending. -/
theorem defaultOutput_apart_from_input_dotted :
    (Path.ofString "/a//.mi.cpp/.").fileName?.isSome ∧
    (∃ directory, (Path.ofString "/a//.mi.cpp/.").parent? = some directory ∧
      (Path.ofString "/a//.mi.cpp/.").defaultOutput.parent? = some directory) ∧
    (Path.ofString "/a//.mi.cpp/.").fileName? ≠
      (Path.defaultOutput^[3] (Path.ofString "/a//.mi.cpp/.")).fileName? := by
  obtain ⟨-, -, hparent, hiterate, -⟩ := defaultOutput_apart_from_input (.ofString "/a//.mi.cpp/.")
  exact ⟨by decide, hparent (by decide), hiterate 0 3 (by decide)⟩

end VertexLanes
