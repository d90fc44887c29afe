import VertexLanes.Command.Run
import VertexLanes.File.Tree

/-!
# Converting files in any order

A conversion looks at a file tree only along the paths that it opens, and changes
it at most where its output goes. Conversions whose outputs lie on no path of
another do not notice one another and can be run in any order. Default outputs
need not lie like that: an input may be the default output of another one, and
inputs that differ in their ending only have the same.
-/

namespace VertexLanes

namespace FileTree

/-! ## Following paths -/

/-- Where a segment leads from a directory, if it can lead anywhere. -/
def next? (place : Place) (segment : List Char) : Option Place :=
  if Path.isIdle segment then some place
  else
    match place with
    | .outside => if segment == Path.upward then some .outside else none
    | .inside names =>
      if segment == Path.upward then
        some (if names.isEmpty then .outside else .inside names.dropLast)
      else if maxName < byteLength segment then none
      else some (.inside (names ++ [segment]))

/-- The places through which segments lead, with the one they lead to. -/
def trail : Place → List (List Char) → List Place
  | place, [] => [place]
  | place, s :: ss =>
    place ::
      match next? place s with
      | none => []
      | some next => trail next ss

/-- The places through which a path leads, with the one it leads to. -/
def visited (p : Path) : List Place := trail (start p) (Text.splitAtChar '/' p.chars)

/-- The place to which a path leads, if it can lead anywhere; slashes at its end make no
difference. -/
def destination? (p : Path) : Option Place :=
  (Text.dropEndWhile List.isEmpty (Text.splitAtChar '/' p.chars)).foldlM next? (start p)

/-- Two trees have the same entries at some places. -/
def Agree (places : List Place) (t u : FileTree) : Prop :=
  ∀ place ∈ places, t.entryAt place = u.entryAt place

/-- Trees that agree on some places agree on any of them. -/
theorem Agree.subset {places others : List Place} {t u : FileTree} (h : Agree places t u)
    (hs : others ⊆ places) : Agree others t u := fun place hp => h place (hs hp)

section
variable {t u : FileTree} {place last : Place} {s : List Char} {ss : List (List Char)}

/-- Whether a place is a directory depends only on its entry. -/
theorem requireDirectory_congr (h : t.entryAt place = u.entryAt place) :
    t.requireDirectory place = u.requireDirectory place := by
  rw [requireDirectory, requireDirectory, h]

private theorem step_congr (h : t.entryAt place = u.entryAt place) :
    t.step place s = u.step place s := by
  unfold step
  rw [requireDirectory_congr h]

/-- A step that succeeds leads where it would lead in any tree. -/
theorem next?_of_step (h : t.step place s = .ok last) : next? place s = some last := by
  unfold step at h
  cases hd : t.requireDirectory place with
  | error e =>
    rw [hd] at h
    cases h
  | ok _ =>
    rw [hd] at h
    simp only [bind, Except.bind, pure, Except.pure, throw, throwThe, MonadExceptOf.throw] at h
    unfold next?
    split at h
    · next hidle => rw [if_pos hidle, Except.ok.inj h]
    · next hidle =>
      rw [if_neg hidle]
      cases place with
      | outside =>
        simp only at h ⊢
        split at h
        · next hup => rw [if_pos hup, Except.ok.inj h]
        · cases h
      | inside names =>
        simp only at h ⊢
        split at h
        · next hup => rw [if_pos hup, Except.ok.inj h]
        · next hup =>
          rw [if_neg hup]
          split at h
          · cases h
          · next hlong => rw [if_neg hlong, Except.ok.inj h]

/-- A trail goes through its first place and then along the rest of the path. -/
theorem trail_cons {next : Place} (h : next? place s = some next) :
    trail place (s :: ss) = place :: trail next ss := by
  rw [trail, h]

private theorem mem_trail_self (place : Place) (ss : List (List Char)) :
    place ∈ trail place ss := by
  cases ss <;> exact List.mem_cons_self

/-- Following segments depends only on the entries along their trail. -/
theorem foldlM_step_congr (h : Agree (trail place ss) t u) :
    ss.foldlM t.step place = ss.foldlM u.step place := by
  induction ss generalizing place with
  | nil => rfl
  | cons s ss ih =>
    rw [List.foldlM_cons, List.foldlM_cons, step_congr (h place (mem_trail_self place _))]
    cases hs : u.step place s with
    | error e => rfl
    | ok next =>
      rw [trail_cons (next?_of_step hs)] at h
      exact ih (h.subset (List.subset_cons_self _ _))

/-- Following segments ends where they lead to. -/
theorem foldlM_next?_of_step (h : ss.foldlM t.step place = .ok last) :
    ss.foldlM next? place = some last := by
  induction ss generalizing place with
  | nil =>
    cases h
    rfl
  | cons s ss ih =>
    rw [List.foldlM_cons] at h ⊢
    cases hs : t.step place s with
    | error e =>
      rw [hs] at h
      cases h
    | ok next =>
      rw [hs] at h
      rw [next?_of_step hs]
      exact ih h

private theorem mem_trail_of_foldlM (h : ss.foldlM next? place = some last) :
    last ∈ trail place ss := by
  induction ss generalizing place with
  | nil =>
    cases h
    exact List.mem_cons_self
  | cons s ss ih =>
    rw [List.foldlM_cons] at h
    obtain ⟨next, hnext, hrest⟩ := Option.bind_eq_some_iff.mp h
    rw [trail_cons hnext]
    exact List.mem_cons_of_mem _ (ih hrest)

/-- A longer path passes all places of a shorter one. -/
theorem trail_append_subset (place : Place) (ss more : List (List Char)) :
    trail place ss ⊆ trail place (ss ++ more) := by
  induction ss generalizing place with
  | nil =>
    intro q hq
    rw [List.mem_singleton.mp hq]
    exact mem_trail_self place more
  | cons s ss ih =>
    rw [List.cons_append, trail, trail]
    refine List.cons_subset_cons place ?_
    split
    · exact List.Subset.refl _
    · exact ih _

end

/-! ## Reading and writing -/

section
variable {t u : FileTree} {p : Path}

/-- A path leads to the same place in trees that agree on the places it visits. -/
theorem resolve_congr (h : Agree (visited p) t u) : t.resolve p = u.resolve p := by
  rw [resolve, resolve, foldlM_step_congr h]

/-- A path that is resolved is followed name by name. -/
theorem foldlM_step_of_resolve {place : Place} (h : t.resolve p = .ok place) :
    (Text.splitAtChar '/' p.chars).foldlM t.step (start p) = .ok place := by
  unfold resolve at h
  cases hp : requirePath p with
  | error e =>
    rw [hp] at h
    cases h
  | ok _ =>
    rw [hp] at h
    exact h

/-- The place that a path leads to is one it visits. -/
theorem mem_visited_of_resolve {place : Place} (h : t.resolve p = .ok place) :
    place ∈ visited p :=
  mem_trail_of_foldlM (foldlM_next?_of_step (foldlM_step_of_resolve h))

/-- A file is read alike in trees that agree on the places its path visits. -/
theorem read_congr (h : Agree (visited p) t u) : t.read p = u.read p := by
  unfold read
  rw [resolve_congr h]
  cases hr : u.resolve p with
  | error e => rfl
  | ok place => simp only [bind, Except.bind, h place (mem_visited_of_resolve hr)]

/-- A path is present in both or neither of two trees that agree on the places it visits. -/
theorem isPresent_congr (h : Agree (visited p) t u) : t.isPresent p = u.isPresent p := by
  unfold isPresent
  rw [resolve_congr h]
  cases hr : u.resolve p with
  | error e => rfl
  | ok place => simp only [h place (mem_visited_of_resolve hr)]

/-- Empty names at the end of a path lead through no other places. -/
theorem trail_dropEnd_subset (place : Place) (ss : List (List Char)) :
    trail place (Text.dropEndWhile List.isEmpty ss) ⊆ trail place ss := by
  obtain ⟨more, hmore⟩ := Text.dropEndWhile_prefix List.isEmpty ss
  have hsubset := trail_append_subset place (Text.dropEndWhile List.isEmpty ss) more
  rwa [hmore] at hsubset

/-- The place that is written to is one the path visits. -/
theorem mem_visited_of_destination? {place : Place} (h : destination? p = some place) :
    place ∈ visited p :=
  trail_dropEnd_subset _ _ (mem_trail_of_foldlM h)

/-- Whether a file is written depends only on the entries along its path, and it is written to the
end of that path, unless there is a directory. -/
theorem write_congr (h : Agree (visited p) t u) (text : String) :
    (∃ e, t.write p text = .error e ∧ u.write p text = .error e) ∨
      ∃ names, names ≠ [] ∧ destination? p = some (.inside names) ∧
        u.entryAt (.inside names) ≠ some .directory ∧
        t.write p text = .ok (t.put names (.file text.toUTF8)) ∧
        u.write p text = .ok (u.put names (.file text.toUTF8)) := by
  have htrail := trail_dropEnd_subset (start p) (Text.splitAtChar '/' p.chars)
  unfold write destination?
  cases requirePath p with
  | error e => exact Or.inl ⟨e, rfl, rfl⟩
  | ok _ =>
    simp only [bind, Except.bind]
    generalize Text.dropEndWhile List.isEmpty (Text.splitAtChar '/' p.chars) = segments at *
    cases hlast : segments.getLast? with
    | none => exact Or.inl ⟨_, rfl, rfl⟩
    | some name =>
      obtain ⟨ds, rfl⟩ := List.getLast?_eq_some_iff.mp hlast
      have hds : trail (start p) ds ⊆ visited p :=
        List.Subset.trans (trail_append_subset _ ds [name]) htrail
      simp only [List.dropLast_concat]
      rw [foldlM_step_congr (h.subset hds)]
      cases hfold : ds.foldlM u.step (start p) with
      | error e => exact Or.inl ⟨e, rfl, rfl⟩
      | ok directory =>
        have hmem := mem_trail_of_foldlM (foldlM_next?_of_step hfold)
        have hdirectory := h directory (hds hmem)
        simp only [requireDirectory_congr hdirectory, step_congr hdirectory]
        cases u.requireDirectory directory with
        | error e => exact Or.inl ⟨e, rfl, rfl⟩
        | ok _ =>
          simp only
          split
          · exact Or.inl ⟨_, rfl, rfl⟩
          · cases hstep : u.step directory name with
            | error e => exact Or.inl ⟨e, rfl, rfl⟩
            | ok place =>
              have hwhole : (ds ++ [name]).foldlM u.step (start p) = .ok place := by
                rw [List.foldlM_append, hfold]
                exact congrArg (· >>= pure) hstep
              have hend := foldlM_next?_of_step hwhole
              have hentry := h place (htrail (mem_trail_of_foldlM hend))
              cases place with
              | outside => exact Or.inl ⟨_, rfl, rfl⟩
              | inside names =>
                simp only [hentry]
                cases hu : u.entryAt (.inside names) with
                | none =>
                  refine Or.inr ⟨names, ?_, hend, by rw [hu]; nofun, rfl, rfl⟩
                  rintro rfl
                  cases hu
                | some entry =>
                  cases entry with
                  | directory => exact Or.inl ⟨_, rfl, rfl⟩
                  | file content =>
                    refine Or.inr ⟨names, ?_, hend, by rw [hu]; nofun, rfl, rfl⟩
                    rintro rfl
                    cases hu

end

section
variable {key names : List (List Char)} {entries : List (List (List Char) × FileEntry)}

/-- Where an entry is replaced, the new one is found. -/
theorem lookup_replaced (entry : FileEntry) (h : entries.any (fun e => e.1 == names) = true) :
    (entries.map fun e => if e.1 == names then (names, entry) else e).lookup names =
      some entry := by
  induction entries with
  | nil => cases h
  | cons e entries ih =>
    obtain ⟨k, x⟩ := e
    by_cases hk : k = names
    · simp [hk]
    · have hrest : entries.any (fun e => e.1 == names) = true := by simpa [hk] using h
      simpa [hk, List.lookup_cons, beq_false_of_ne (Ne.symm hk)] using ih hrest

/-- Replacing an entry leaves the others as they are. -/
theorem lookup_replaced_of_ne (entry : FileEntry) (h : key ≠ names) :
    (entries.map fun e => if e.1 == names then (names, entry) else e).lookup key =
      entries.lookup key := by
  induction entries with
  | nil => rfl
  | cons e entries ih =>
    obtain ⟨k, x⟩ := e
    by_cases hk : k = names
    · simpa [hk, List.lookup_cons, beq_false_of_ne h] using ih
    · rw [List.map_cons, if_neg (by simpa using hk), List.lookup_cons, List.lookup_cons, ih]

/-- A tree with a new entry differs from the old one in that entry only. -/
theorem lookup_put (t : FileTree) (entry : FileEntry) :
    (t.put names entry).entries.lookup key =
      if key = names then some entry else t.entries.lookup key := by
  unfold put
  split
  · next hany =>
    split
    · next hkey => rw [hkey, lookup_replaced entry hany]
    · next hkey => exact lookup_replaced_of_ne entry hkey
  · next hnone =>
    have hlookup : t.entries.lookup names = none := by
      rw [List.lookup_eq_none_iff]
      intro e he
      rw [bne_iff_ne]
      rintro rfl
      exact hnone (List.any_eq_true.mpr ⟨e, he, beq_self_eq_true _⟩)
    rw [List.lookup_append]
    split
    · next hkey => rw [hkey, hlookup, Option.none_or, List.lookup_cons_self]
    · next hkey =>
      rw [List.lookup_cons, beq_false_of_ne hkey]
      exact Option.or_none

end

/-- What stands at a place after an entry was put somewhere. -/
theorem entryAt_put (t : FileTree) {names : List (List Char)} (hn : names ≠ []) (entry : FileEntry)
    (place : Place) :
    (t.put names entry).entryAt place =
      if place = .inside names then some entry else t.entryAt place := by
  cases place with
  | outside => rfl
  | inside key =>
    cases key with
    | nil =>
      rw [if_neg fun h => hn (Place.inside.inj h).symm]
      rfl
    | cons first others =>
      simp only [Place.inside.injEq]
      exact lookup_put t entry

end FileTree

/-! ## Conversions -/

section
variable {α β : Type} {places : List FileTree.Place} {target : Option FileTree.Place}

/-- A step that changes nothing, and whose result depends only on the entries at some places. -/
def ReadsOnly (places : List FileTree.Place) (x : StateM FileTree α) : Prop :=
  ∀ t, (x.run t).2 = t ∧ ∀ u, FileTree.Agree places t u → (x.run u).1 = (x.run t).1

/-- A step that changes nothing but what stands at one place, and whose result depends only on the
entries at some places; so does what it leaves at that one. -/
structure Confined (places : List FileTree.Place) (target : Option FileTree.Place)
    (x : StateM FileTree α) : Prop where
  /-- The same entries at the places give the same result. -/
  result : ∀ t u, FileTree.Agree places t u → (x.run u).1 = (x.run t).1
  /-- They give the same entry at the place that is changed. -/
  effect : ∀ t u, FileTree.Agree places t u → ∀ place, target = some place →
    (x.run u).2.entryAt place = (x.run t).2.entryAt place
  /-- All else stays as it was. -/
  frame : ∀ t place, target ≠ some place → (x.run t).2.entryAt place = t.entryAt place

/-- A computation goes on from the result and the tree of its first part. -/
theorem run_bind_of_run {x : StateM FileTree α} {f : α → StateM FileTree β} {a : α} {t u : FileTree}
    (h : x.run t = (a, u)) : (x >>= f).run t = (f a).run u := by
  rw [StateT.run_bind, h]
  rfl

/-- A computation that only reads leaves the tree as it is. -/
theorem ReadsOnly.run_eq {x : StateM FileTree α} {t : FileTree} {a : α} (hx : ReadsOnly places x)
    (h : (x.run t).1 = a) : x.run t = (a, t) := Prod.ext h (hx t).1

theorem ReadsOnly.pure (a : α) : ReadsOnly places (Pure.pure a : StateM FileTree α) :=
  fun _ => ⟨rfl, fun _ _ => rfl⟩

/-- Two computations that only read, one after the other, only read. -/
theorem ReadsOnly.bind {x : StateM FileTree α} {f : α → StateM FileTree β}
    (hx : ReadsOnly places x) (hf : ∀ t, ReadsOnly places (f (x.run t).1)) :
    ReadsOnly places (x >>= f) := by
  intro t
  have hrun : ∀ u, FileTree.Agree places t u → (x >>= f).run u = (f (x.run t).1).run u :=
    fun u hu => run_bind_of_run (hx.run_eq ((hx t).2 u hu))
  refine ⟨?_, fun u hu => ?_⟩
  · rw [hrun t fun _ _ => rfl]
    exact (hf t t).1
  · rw [hrun u hu, hrun t fun _ _ => rfl]
    exact (hf t t).2 u hu

/-- A result that is given at once changes nothing. -/
theorem Confined.pure (hmem : ∀ place, target = some place → place ∈ places) (a : α) :
    Confined places target (Pure.pure a : StateM FileTree α) where
  result _ _ _ := rfl
  effect _ _ h place hplace := (h place (hmem place hplace)).symm
  frame _ _ _ := rfl

/-- A computation that only reads may come before a confined one. -/
theorem Confined.bind {x : StateM FileTree α} {f : α → StateM FileTree β}
    (hx : ReadsOnly places x) (hf : ∀ a, Confined places target (f a)) :
    Confined places target (x >>= f) := by
  have hrun : ∀ t u, FileTree.Agree places t u → (x >>= f).run u = (f (x.run t).1).run u :=
    fun t u hu => run_bind_of_run (hx.run_eq ((hx t).2 u hu))
  refine ⟨fun t u h => ?_, fun t u h place hplace => ?_, fun t place hplace => ?_⟩
  · rw [hrun t u h, hrun t t fun _ _ => rfl]
    exact (hf _).result t u h
  · rw [hrun t u h, hrun t t fun _ _ => rfl]
    exact (hf _).effect t u h place hplace
  · rw [hrun t t fun _ _ => rfl]
    exact (hf _).frame t place hplace

/-- A confined computation stays so whatever is made of its result. -/
theorem Confined.bind_pure {x : StateM FileTree α} {f : α → StateM FileTree β}
    (hx : Confined places target x) (hf : ∀ a, ∃ b, f a = Pure.pure b) :
    Confined places target (x >>= f) := by
  obtain ⟨g, hg⟩ := Classical.axiomOfChoice hf
  obtain rfl : f = fun a => Pure.pure (g a) := funext hg
  exact ⟨fun t u h => congrArg g (hx.result t u h), hx.effect, hx.frame⟩

end

section
variable {places : List FileTree.Place} {p : Path}

/-- Reading a file only reads the places its path visits. -/
theorem readsOnly_read (h : FileTree.visited p ⊆ places) :
    ReadsOnly places (FileAccess.read p : StateM FileTree (Except FileError String)) :=
  fun _ => ⟨rfl, fun _ hu => (FileTree.read_congr (hu.subset h)).symm⟩

/-- Writing a file that can be written gives the tree with it. -/
theorem run_write_of_ok {t tree : FileTree} {text : String} (h : t.write p text = .ok tree) :
    (FileAccess.write p text : StateM FileTree _).run t = (.ok (), tree) := by
  simp only [FileAccess.write, bind_pure_comp, StateT.run_bind, StateT.run_get, pure_bind, h,
    StateT.run_map, StateT.run_set, map_pure]
  rfl

/-- A file that cannot be written leaves the tree as it is. -/
theorem run_write_of_error {t : FileTree} {text : String} {e : FileError}
    (h : t.write p text = .error e) :
    (FileAccess.write p text : StateM FileTree _).run t = (.error e, t) := by
  simp only [FileAccess.write, bind_pure_comp, StateT.run_bind, StateT.run_get, pure_bind, h,
    StateT.run_pure]
  rfl

/-- Writing a file is confined to the place that its path leads to. -/
theorem confined_write (h : FileTree.visited p ⊆ places) (text : String) :
    Confined places (FileTree.destination? p)
      (FileAccess.write p text : StateM FileTree (Except FileError Unit)) := by
  refine ⟨fun t u hagree => ?_, fun t u hagree place hplace => ?_, fun t place hplace => ?_⟩
  · rcases FileTree.write_congr (hagree.subset h) text with ⟨e, ht, hu⟩ | ⟨names, -, -, -, ht, hu⟩
    · rw [run_write_of_error ht, run_write_of_error hu]
    · rw [run_write_of_ok ht, run_write_of_ok hu]
  · have hentry := hagree place (h (FileTree.mem_visited_of_destination? hplace))
    rcases FileTree.write_congr (hagree.subset h) text with
      ⟨e, ht, hu⟩ | ⟨names, hn, -, -, ht, hu⟩
    · rw [run_write_of_error ht, run_write_of_error hu]
      exact hentry.symm
    · rw [run_write_of_ok ht, run_write_of_ok hu, FileTree.entryAt_put t hn,
        FileTree.entryAt_put u hn, hentry]
  · have hsame : FileTree.Agree (FileTree.visited p) t t := fun _ _ => rfl
    rcases FileTree.write_congr hsame text with ⟨e, ht, -⟩ | ⟨names, hn, hdestination, -, ht, -⟩
    · rw [run_write_of_error ht]
    · rw [run_write_of_ok ht, FileTree.entryAt_put t hn, if_neg]
      rintro rfl
      exact hplace hdestination

end

/-- The project files that may be looked for. -/
def projectCandidates (config : Option Path) (input : Path) : List Path :=
  match config with
  | some file => [file]
  | none => (input.parent?.getD ⟨['.']⟩).ancestors.map (·.join Project.fileName)

/-- The paths that the conversion of an input may open. -/
def openedPaths (config : Option Path) (input : Path) : List Path :=
  input :: input.defaultOutput :: projectCandidates config input

/-- The places that the conversion of an input may look at. -/
def footprint (config : Option Path) (input : Path) : List FileTree.Place :=
  (openedPaths config input).flatMap FileTree.visited

/-- A job looks at all places of the paths it may open. -/
theorem visited_subset_footprint {config : Option Path} {input p : Path}
    (h : p ∈ openedPaths config input) : FileTree.visited p ⊆ footprint config input :=
  fun _ hplace => List.mem_flatMap.mpr ⟨p, h, hplace⟩

/-- The nearest project file is the first that is present. -/
theorem run_findM? (ps : List Path) (t : FileTree) :
    (ps.findM? FileAccess.isPresent : StateM FileTree (Option Path)).run t =
      (ps.find? t.isPresent, t) := by
  induction ps with
  | nil => rfl
  | cons p ps ih =>
    rw [List.find?_cons]
    cases hp : t.isPresent p with
    | true =>
      simp only [List.findM?, FileAccess.isPresent, bind_pure_comp, bind_map_left, StateT.run_bind,
        StateT.run_get, pure_bind, hp, StateT.run_pure]
      rfl
    | false => simpa [List.findM?, FileAccess.isPresent, hp] using ih

/-- The first present path is the same in trees that agree on the places of all of them. -/
theorem find?_isPresent_congr {ps : List Path} {t u : FileTree}
    (h : FileTree.Agree (ps.flatMap FileTree.visited) t u) :
    ps.find? u.isPresent = ps.find? t.isPresent := by
  induction ps with
  | nil => rfl
  | cons p ps ih =>
    rw [List.flatMap_cons] at h
    rw [List.find?_cons, List.find?_cons,
      FileTree.isPresent_congr (h.subset (List.subset_append_left _ _)),
      ih (h.subset (List.subset_append_right _ _))]

section
variable {config : Option Path} {input : Path}

/-- The project file is the given one or the first candidate that is present, and nothing is
written. -/
theorem run_projectFile (t : FileTree) :
    (projectFile input config : StateM FileTree (Option Path)).run t =
      (config.or ((projectCandidates none input).find? t.isPresent), t) := by
  cases config with
  | none => exact run_findM? _ t
  | some file => rfl

/-- The project file is one of the candidates. -/
theorem mem_candidates_of_projectFile {t : FileTree} {file : Path}
    (h : ((projectFile input config : StateM FileTree (Option Path)).run t).1 = some file) :
    file ∈ projectCandidates config input := by
  rw [run_projectFile] at h
  cases config with
  | none => exact List.mem_of_find?_eq_some h
  | some given =>
    cases h
    exact List.mem_cons_self

/-- Looking for the project file only reads. -/
theorem readsOnly_projectFile :
    ReadsOnly (footprint config input) (projectFile input config : StateM FileTree _) := by
  intro t
  rw [run_projectFile]
  refine ⟨rfl, fun u hu => ?_⟩
  rw [run_projectFile]
  cases config with
  | none =>
    refine find?_isPresent_congr (hu.subset fun place hplace => ?_)
    obtain ⟨file, hfile, hvisited⟩ := List.mem_flatMap.mp hplace
    exact List.mem_flatMap.mpr
      ⟨file, List.mem_cons_of_mem _ (List.mem_cons_of_mem _ hfile), hvisited⟩
  | some file => rfl

/-- Loading a project file only reads. -/
theorem readsOnly_load {places : List FileTree.Place} {file : Path}
    (h : FileTree.visited file ⊆ places) :
    ReadsOnly places (Project.load file : StateM FileTree _) := by
  refine ReadsOnly.bind (readsOnly_read h) fun t => ?_
  split <;> exact .pure _

/-- Finding the options only reads. -/
theorem readsOnly_resolveOptions (trackFree : Bool) :
    ReadsOnly (footprint config input)
      (resolveOptions input config trackFree : StateM FileTree _) := by
  refine ReadsOnly.bind readsOnly_projectFile fun t => ?_
  cases hfile : ((projectFile input config : StateM FileTree (Option Path)).run t).1 with
  | none => exact .pure _
  | some file =>
    have hmem : file ∈ openedPaths config input :=
      List.mem_cons_of_mem _ (List.mem_cons_of_mem _ (mem_candidates_of_projectFile hfile))
    refine ReadsOnly.bind (readsOnly_load (visited_subset_footprint hmem)) fun u => ?_
    split <;> exact .pure _

/-- The place of the default output is one that the job looks at. -/
theorem mem_footprint_of_destination? {place : FileTree.Place}
    (h : FileTree.destination? input.defaultOutput = some place) :
    place ∈ footprint config input :=
  visited_subset_footprint (List.mem_cons_of_mem _ List.mem_cons_self)
    (FileTree.mem_visited_of_destination? h)

/-- A conversion looks only at its footprint and changes at most its output. -/
theorem confined_convertInput (trackFree : Bool) :
    Confined (footprint config input) (FileTree.destination? input.defaultOutput)
      (convertInput none config trackFree input : StateM FileTree _) := by
  refine Confined.bind (readsOnly_resolveOptions trackFree) fun options => ?_
  have hstop : ∀ r : Except ConversionError ConversionReport,
      Confined (footprint config input) (FileTree.destination? input.defaultOutput)
        (pure r : StateM FileTree _) :=
    Confined.pure fun _ => mem_footprint_of_destination?
  cases options with
  | error e => exact hstop _
  | ok options =>
    have hread : ReadsOnly (footprint config input)
        (readInput input : StateM FileTree (Except ConversionError String)) :=
      ReadsOnly.bind (readsOnly_read (visited_subset_footprint List.mem_cons_self)) fun _ => .pure _
    refine Confined.bind hread fun source => ?_
    cases source with
    | error e => exact hstop _
    | ok source =>
      simp only
      cases convert source.toList options with
      | error diagnostics => exact hstop _
      | ok converted =>
        have houtput : input.defaultOutput ∈ openedPaths config input :=
          List.mem_cons_of_mem _ List.mem_cons_self
        refine (confined_write (visited_subset_footprint houtput) converted.text).bind_pure ?_
        rintro (reason | done) <;> exact ⟨_, rfl⟩

end

/-! ## Conversions one after another -/

section
variable {ι α : Type} {job : ι → StateM FileTree α} {places : ι → List FileTree.Place}
  {target : ι → Option FileTree.Place} {t : FileTree}

/-- A job that does not disturb another one alone does not disturb it after others either. -/
theorem Confined.agree_run {i j : ι} (hi : Confined (places i) (target i) (job i))
    (hquiet : FileTree.Agree (places j) t ((job i).run t).2) {u : FileTree}
    (hui : FileTree.Agree (places i) t u) (huj : FileTree.Agree (places j) t u) :
    FileTree.Agree (places j) t ((job i).run u).2 := by
  intro place hplace
  by_cases htarget : target i = some place
  · rw [hi.effect t u hui place htarget]
    exact hquiet place hplace
  · rw [hi.frame u place htarget]
    exact huj place hplace

/-- Jobs run one after the other, each on the tree that the last one left. -/
theorem run_mapM_cons (i : ι) (order : List ι) (u : FileTree) :
    ((i :: order).mapM job).run u =
      (((job i).run u).1 :: ((order.mapM job).run ((job i).run u).2).1,
        ((order.mapM job).run ((job i).run u).2).2) := by
  rw [List.mapM_cons]
  rfl

/-- Jobs that do not disturb one another give in any order the results that each gives alone, and
leave what each leaves alone. -/
theorem run_mapM_of_quiet (hjob : ∀ i, Confined (places i) (target i) (job i))
    (htarget : ∀ i place, target i = some place → place ∈ places i) {order : List ι}
    (hnodup : order.Nodup)
    (hquiet : ∀ i ∈ order, ∀ j ∈ order, i ≠ j → FileTree.Agree (places j) t ((job i).run t).2)
    {u : FileTree} (hu : ∀ i ∈ order, FileTree.Agree (places i) t u) :
    ((order.mapM job).run u).1 = order.map (fun i => ((job i).run t).1) ∧
      (∀ i ∈ order, ∀ place, target i = some place →
        ((order.mapM job).run u).2.entryAt place = ((job i).run t).2.entryAt place) ∧
      ∀ place, (∀ i ∈ order, target i ≠ some place) →
        ((order.mapM job).run u).2.entryAt place = u.entryAt place := by
  induction order generalizing u with
  | nil => exact ⟨rfl, fun _ h => absurd h List.not_mem_nil, fun _ _ => rfl⟩
  | cons i order ih =>
    obtain ⟨hi, hrest⟩ := List.nodup_cons.mp hnodup
    have hself : i ∈ i :: order := List.mem_cons_self
    have htail : ∀ {j}, j ∈ order → j ∈ i :: order := List.mem_cons_of_mem i
    have hne : ∀ {j}, j ∈ order → i ≠ j := fun hj h => hi (h ▸ hj)
    -- what the first job leaves is still as at the start for each of the others
    have hafter : ∀ j ∈ order, FileTree.Agree (places j) t ((job i).run u).2 := fun j hj =>
      (hjob i).agree_run (hquiet i hself j (htail hj) (hne hj)) (hu i hself) (hu j (htail hj))
    obtain ⟨hresults, hwritten, hkept⟩ :=
      ih hrest (fun j hj k hk => hquiet j (htail hj) k (htail hk)) hafter
    rw [run_mapM_cons]
    refine ⟨?_, fun j hj place hplace => ?_, fun place hplace => ?_⟩
    · rw [List.map_cons, hresults, (hjob i).result t u (hu i hself)]
    · rcases List.mem_cons.mp hj with rfl | hj
      · by_cases hlater : ∃ k ∈ order, target k = some place
        · -- jobs with the same target leave it as it is, or they would disturb one another
          obtain ⟨k, hk, hkplace⟩ := hlater
          rw [hwritten k hk place hkplace,
            ← hquiet k (htail hk) j hself (hne hk).symm place (htarget j place hplace)]
          exact hquiet j hself k (htail hk) (hne hk) place (htarget k place hkplace)
        · rw [hkept place fun k hk hkplace => hlater ⟨k, hk, hkplace⟩]
          exact (hjob j).effect t u (hu j hself) place hplace
      · exact hwritten j hj place hplace
    · rw [hkept place fun j hj => hplace j (htail hj)]
      exact (hjob i).frame u place (hplace i hself)

end

/-- Convert inputs one after another, each to its default output. -/
def convertAll (config : Option Path) (trackFree : Bool) (inputs : List Path) :
    StateM FileTree (List (Except ConversionError ConversionReport)) :=
  inputs.mapM (convertInput none config trackFree)

/-- Where the default output of `p` lies on a path that the conversion of `q` may open, the
conversion of `p` alone leaves what stands there. -/
def Spares (config : Option Path) (trackFree : Bool) (t : FileTree) (p q : Path) : Prop :=
  ∀ place ∈ footprint config q, FileTree.destination? p.defaultOutput = some place →
    t.entryAt place =
      ((convertInput none config trackFree p : StateM FileTree _).run t).2.entryAt place

section
variable {config : Option Path} {trackFree : Bool} {t : FileTree}

/-- A job that spares another leaves all places that the other looks at as they were. -/
theorem Spares.agree {p q : Path} (h : Spares config trackFree t p q) :
    FileTree.Agree (footprint config q) t
      ((convertInput none config trackFree p : StateM FileTree _).run t).2 := by
  intro place hplace
  by_cases htarget : FileTree.destination? p.defaultOutput = some place
  · exact h place hplace htarget
  · exact ((confined_convertInput trackFree).frame t place htarget).symm

/-- A conversion command runs all jobs and reports their results. -/
theorem run_convert (inputs : List Path) :
    ((Command.convert inputs none config trackFree).run : StateM FileTree Outcome).run t =
      (conversionOutcome ((convertAll config trackFree inputs).run t).1,
        ((convertAll config trackFree inputs).run t).2) := rfl

/-- Conversions that spare one another give together what they give alone. -/
theorem run_convertAll {inputs : List Path} (hnodup : inputs.Nodup)
    (hspare : ∀ p ∈ inputs, ∀ q ∈ inputs, p ≠ q → Spares config trackFree t p q) :
    ((convertAll config trackFree inputs).run t).1 = inputs.map (fun p =>
        ((convertInput none config trackFree p : StateM FileTree _).run t).1) ∧
      (∀ p ∈ inputs, ∀ place, FileTree.destination? p.defaultOutput = some place →
        ((convertAll config trackFree inputs).run t).2.entryAt place =
          ((convertInput none config trackFree p : StateM FileTree _).run t).2.entryAt place) ∧
      ∀ place, (∀ p ∈ inputs, FileTree.destination? p.defaultOutput ≠ some place) →
        ((convertAll config trackFree inputs).run t).2.entryAt place = t.entryAt place :=
  run_mapM_of_quiet (fun _ => confined_convertInput trackFree)
    (fun _ _ => mem_footprint_of_destination?) hnodup
    (fun p hp q hq hne => (hspare p hp q hq hne).agree) fun _ _ _ _ => rfl

/-- Conversions that spare one another give each input the same result and leave the same files in
any order. -/
theorem convert_any_order {inputs others : List Path} (hnodup : inputs.Nodup)
    (hperm : inputs.Perm others)
    (hspare : ∀ p ∈ inputs, ∀ q ∈ inputs, p ≠ q → Spares config trackFree t p q) :
    (inputs.zip ((convertAll config trackFree inputs).run t).1).Perm
      (others.zip ((convertAll config trackFree others).run t).1) ∧
    ∀ place,
      (((Command.convert inputs none config trackFree).run : StateM FileTree Outcome).run
        t).2.entryAt place =
      (((Command.convert others none config trackFree).run : StateM FileTree Outcome).run
        t).2.entryAt place := by
  have hothers : ∀ p ∈ others, ∀ q ∈ others, p ≠ q → Spares config trackFree t p q :=
    fun p hp q hq => hspare p (hperm.mem_iff.mpr hp) q (hperm.mem_iff.mpr hq)
  obtain ⟨hresults, hwritten, hkept⟩ := run_convertAll hnodup hspare
  obtain ⟨hresults', hwritten', hkept'⟩ := run_convertAll (hperm.nodup hnodup) hothers
  refine ⟨?_, fun place => ?_⟩
  · rw [hresults, hresults', ← List.map_prod_left_eq_zip, ← List.map_prod_left_eq_zip]
    exact hperm.map _
  · rw [run_convert, run_convert]
    by_cases hplace : ∃ p ∈ inputs, FileTree.destination? p.defaultOutput = some place
    · obtain ⟨p, hp, hdestination⟩ := hplace
      exact (hwritten p hp place hdestination).trans
        (hwritten' p (hperm.mem_iff.mp hp) place hdestination).symm
    · have hnone : ∀ p ∈ inputs, FileTree.destination? p.defaultOutput ≠ some place :=
        fun p hp h => hplace ⟨p, hp, h⟩
      exact (hkept place hnone).trans
        (hkept' place fun p hp => hnone p (hperm.mem_iff.mpr hp)).symm

end

/-- A program that converts. -/
def smallProgram : String :=
  "struct vertex_data\x7b\x7d;struct msg_type\x7b\x7d;class vertex_program\x7b" ++
    "gather()\x7breturn;\x7dapply(T t)\x7breturn;\x7dscatter()\x7breturn;\x7d\x7d;"

/-- A working directory with one program in it and one below it. -/
def smallTree : FileTree :=
  (FileTree.empty.addFile ["a.cpp".toList] smallProgram.toUTF8).addFile
    ["lib".toList, "a.cpp".toList] smallProgram.toUTF8

/-- Inputs whose outputs are apart, one of them missing from the tree. -/
def apartInputs : List Path := [.ofString "a.cpp", .ofString "lib/a.cpp", .ofString "lib/a.b.cc"]

/-- The inputs whose outputs are apart, in the given and in the reversed order. -/
theorem convert_any_order_apart :
    (∀ p ∈ apartInputs, ∀ q ∈ apartInputs, p ≠ q → Spares none false smallTree p q) ∧
    (apartInputs.zip ((convertAll none false apartInputs).run smallTree).1).Perm
      (apartInputs.reverse.zip ((convertAll none false apartInputs.reverse).run smallTree).1) ∧
    ∀ place,
      (((Command.convert apartInputs none none false).run : StateM FileTree Outcome).run
        smallTree).2.entryAt place =
      (((Command.convert apartInputs.reverse none none false).run : StateM FileTree Outcome).run
        smallTree).2.entryAt place := by
  have hpaths : ∀ p ∈ apartInputs, ∀ q ∈ apartInputs, p ≠ q → ∀ place ∈ footprint none q,
      FileTree.destination? p.defaultOutput ≠ some place := by decide +kernel
  have hspare : ∀ p ∈ apartInputs, ∀ q ∈ apartInputs, p ≠ q → Spares none false smallTree p q :=
    fun p hp q hq hne place hplace h => absurd h (hpaths p hp q hq hne place hplace)
  exact ⟨hspare, convert_any_order (by decide +kernel) (List.reverse_perm _).symm hspare⟩

/-! ## Conversions that notice one another -/

section
variable {config : Option Path} {trackFree : Bool} {t : FileTree} {input : Path}

/-- With options found, the input is converted under them. -/
theorem run_convertInput_of_ok {options : Options}
    (h : ((resolveOptions input config trackFree : StateM FileTree _).run t).1 = .ok options) :
    (convertInput none config trackFree input : StateM FileTree _).run t =
      (convertFile input input.defaultOutput options : StateM FileTree _).run t :=
  run_bind_of_run ((readsOnly_resolveOptions trackFree).run_eq h)

/-- Without options nothing is converted. -/
theorem run_convertInput_of_error {e : ConversionError}
    (h : ((resolveOptions input config trackFree : StateM FileTree _).run t).1 = .error e) :
    (convertInput none config trackFree input : StateM FileTree _).run t = (.error e, t) :=
  run_bind_of_run ((readsOnly_resolveOptions trackFree).run_eq h)

/-- Options are not found only for a bad project file. -/
theorem badProject_of_resolveOptions {e : ConversionError}
    (h : ((resolveOptions input config trackFree : StateM FileTree _).run t).1 = .error e) :
    ∃ file fault, e = .badProject file fault := by
  unfold resolveOptions at h
  rw [run_bind_of_run (run_projectFile t)] at h
  cases hfile : config.or ((projectCandidates none input).find? t.isPresent) with
  | none =>
    rw [hfile] at h
    cases h
  | some file =>
    rw [hfile] at h
    simp only at h
    have hread := readsOnly_load (List.Subset.refl (FileTree.visited file))
    cases hload : ((Project.load file : StateM FileTree _).run t).1 with
    | error fault =>
      rw [run_bind_of_run (hread.run_eq hload)] at h
      cases h
      exact ⟨file, fault, rfl⟩
    | ok project =>
      rw [run_bind_of_run (hread.run_eq hload)] at h
      cases h

/-- An input that can be read gives its source and leaves the tree as it is. -/
theorem run_readInput_of_ok {source : String} (h : t.read input = .ok source) :
    (readInput input : StateM FileTree (Except ConversionError String)).run t =
      (.ok source, t) := by
  change ((t.read input).mapError (ConversionError.unreadable input), t) = _
  rw [h]
  rfl

/-- A file that cannot be read is reported and nothing is written. -/
theorem run_convertFile_of_unread {reason : FileError} {options : Options}
    (h : t.read input = .error reason) :
    (convertFile input input.defaultOutput options : StateM FileTree _).run t =
      (.error (.unreadable input reason), t) := by
  have hinput : (readInput input : StateM FileTree (Except ConversionError String)).run t =
      (.error (.unreadable input reason), t) := by
    change ((t.read input).mapError (ConversionError.unreadable input), t) = _
    rw [h]
    rfl
  exact run_bind_of_run hinput

/-- A source that cannot be converted is reported and nothing is written. -/
theorem run_convertFile_of_unconverted {source : String} {options : Options}
    {diagnostics : List Diagnostic} (hread : t.read input = .ok source)
    (hconvert : convert source.toList options = .error diagnostics) :
    (convertFile input input.defaultOutput options : StateM FileTree _).run t =
      (.error (.unconverted input diagnostics), t) := by
  unfold convertFile
  rw [run_bind_of_run (run_readInput_of_ok hread)]
  simp only [hconvert]
  rfl

/-- An output that cannot be written is reported and the tree stays as it is. -/
theorem run_convertFile_of_unwritten {source : String} {options : Options} {converted : Converted}
    {reason : FileError} (hread : t.read input = .ok source)
    (hconvert : convert source.toList options = .ok converted)
    (hwrite : t.write input.defaultOutput converted.text = .error reason) :
    (convertFile input input.defaultOutput options : StateM FileTree _).run t =
      (.error (.unwritable input.defaultOutput reason), t) := by
  unfold convertFile
  rw [run_bind_of_run (run_readInput_of_ok hread)]
  simp only [hconvert]
  exact run_bind_of_run (run_write_of_error hwrite)

/-- A source that is converted is written to its output. -/
theorem run_convertFile_of_converted {source : String} {options : Options} {converted : Converted}
    {tree : FileTree} (hread : t.read input = .ok source)
    (hconvert : convert source.toList options = .ok converted)
    (hwrite : t.write input.defaultOutput converted.text = .ok tree) :
    (convertFile input input.defaultOutput options : StateM FileTree _).run t =
      (.ok ⟨input, input.defaultOutput, converted.masks, converted.warnings, source⟩, tree) := by
  unfold convertFile
  rw [run_bind_of_run (run_readInput_of_ok hread)]
  simp only [hconvert]
  exact run_bind_of_run (run_write_of_ok hwrite)

/-- A conversion fails and changes nothing, or it writes to the default output of what it could
read. Only an input that cannot be read is reported as unreadable. -/
theorem convertInput_cases (config : Option Path) (trackFree : Bool) (input : Path)
    (t : FileTree) :
    (∃ e, (convertInput none config trackFree input : StateM FileTree _).run t = (.error e, t) ∧
      ∀ reason, e = .unreadable input reason → t.read input = .error reason) ∨
    ∃ source text tree report, t.read input = .ok source ∧
      t.write input.defaultOutput text = .ok tree ∧
      (convertInput none config trackFree input : StateM FileTree _).run t =
        (.ok report, tree) := by
  cases hoptions : ((resolveOptions input config trackFree : StateM FileTree _).run t).1 with
  | error e =>
    obtain ⟨file, fault, rfl⟩ := badProject_of_resolveOptions hoptions
    exact .inl ⟨_, run_convertInput_of_error hoptions, nofun⟩
  | ok options =>
    rw [run_convertInput_of_ok hoptions]
    cases hread : t.read input with
    | error reason =>
      refine .inl ⟨_, run_convertFile_of_unread hread, fun other h => ?_⟩
      cases h
      rfl
    | ok source =>
      cases hconvert : convert source.toList options with
      | error diagnostics =>
        exact .inl ⟨_, run_convertFile_of_unconverted hread hconvert, nofun⟩
      | ok converted =>
        cases hwrite : t.write input.defaultOutput converted.text with
        | error e => exact .inl ⟨_, run_convertFile_of_unwritten hread hconvert hwrite, nofun⟩
        | ok tree =>
          exact .inr ⟨source, converted.text, tree, _, rfl, hwrite,
            run_convertFile_of_converted hread hconvert hwrite⟩

/-- An input that can be read only after another one was converted is reported as unreadable in
one order and not in the other. -/
theorem not_perm_of_revealed {p q : Path} (hne : p ≠ q) {reason : FileError} {text : String}
    (hbefore : ((convertInput none config trackFree q : StateM FileTree _).run t).1 =
      .error (.unreadable q reason))
    (hafter : ((convertInput none config trackFree p : StateM FileTree _).run t).2.read q =
      .ok text) :
    ¬ ([p, q].zip ((convertAll config trackFree [p, q]).run t).1).Perm
      ([q, p].zip ((convertAll config trackFree [q, p]).run t).1) := by
  intro hperm
  have hfirst : (q, .error (.unreadable q reason)) ∈
      [q, p].zip ((convertAll config trackFree [q, p]).run t).1 := by
    rw [convertAll, run_mapM_cons, hbefore]
    exact List.mem_cons_self
  have hmem := hperm.mem_iff.mpr hfirst
  rw [convertAll, run_mapM_cons, run_mapM_cons] at hmem
  simp only [List.zip_cons_cons, List.mem_cons] at hmem
  rcases hmem with h | h | h
  · exact hne (congrArg Prod.fst h).symm
  · have hresult := (congrArg Prod.snd h).symm
    rcases convertInput_cases config trackFree q
        ((convertInput none config trackFree p : StateM FileTree _).run t).2 with
      ⟨e, hrun, hunread⟩ | ⟨_, _, _, _, _, _, hrun⟩
    · rw [hrun] at hresult
      rw [hunread reason (Except.error.inj hresult)] at hafter
      cases hafter
    · rw [hrun] at hresult
      cases hresult
  · cases h

end

/-- Without a project file the options are the default ones. -/
theorem resolveOptions_of_absent {input : Path} {t : FileTree}
    (h : (projectCandidates none input).find? t.isPresent = none) :
    ((resolveOptions input none false : StateM FileTree _).run t).1 = .ok Options.default := by
  unfold resolveOptions
  rw [run_bind_of_run (run_projectFile t), h]
  rfl

/-- A path that leads to a file reads its text. -/
theorem FileTree.read_of_entryAt {t : FileTree} {p : Path} {place : FileTree.Place} {text : String}
    (hplace : t.resolve p = .ok place) (hentry : t.entryAt place = some (.file text.toUTF8)) :
    t.read p = .ok text := by
  have htext : String.fromUTF8? text.toUTF8 = some text := by
    rw [String.fromUTF8?]
    exact dif_pos text.isValidUTF8
  unfold read
  rw [hplace]
  simp only [bind, Except.bind, hentry, htext]
  rfl

/-- The default output of `a.cpp` is `a.mi.cpp`. As an input, that is there only after `a.cpp` was
converted. -/
theorem convert_order_matters :
    [Path.ofString "a.cpp", .ofString "a.mi.cpp"].Nodup ∧
    ¬ ([Path.ofString "a.cpp", .ofString "a.mi.cpp"].zip
        ((convertAll none false [.ofString "a.cpp", .ofString "a.mi.cpp"]).run smallTree).1).Perm
      ([Path.ofString "a.mi.cpp", .ofString "a.cpp"].zip
        ((convertAll none false [.ofString "a.mi.cpp", .ofString "a.cpp"]).run smallTree).1) := by
  have hmissing : smallTree.read (.ofString "a.mi.cpp") = .error .notFound := rfl
  have hsource : smallTree.read (.ofString "a.cpp") = .ok smallProgram :=
    FileTree.read_of_entryAt rfl rfl
  have habsent : ∀ p ∈ [Path.ofString "a.cpp", .ofString "a.mi.cpp"],
      (projectCandidates none p).find? smallTree.isPresent = none := by decide +kernel
  have hconverts : (convert smallProgram.toList Options.default).toOption.isSome = true := by
    decide +kernel
  obtain ⟨converted, hconverted⟩ : ∃ c, convert smallProgram.toList Options.default = .ok c := by
    cases hresult : convert smallProgram.toList Options.default with
    | error e =>
      rw [hresult] at hconverts
      cases hconverts
    | ok c => exact ⟨c, rfl⟩
  have hwrite : smallTree.write (Path.ofString "a.cpp").defaultOutput converted.text =
      .ok (smallTree.put ["a.mi.cpp".toList] (.file converted.text.toUTF8)) := rfl
  have hplace : ∀ t : FileTree,
      t.resolve (.ofString "a.mi.cpp") = .ok (.inside ["a.mi.cpp".toList]) := fun _ => rfl
  have hentry : (smallTree.put ["a.mi.cpp".toList] (.file converted.text.toUTF8)).entryAt
      (.inside ["a.mi.cpp".toList]) = some (.file converted.text.toUTF8) := by
    rw [FileTree.entryAt_put _ (List.cons_ne_nil _ _), if_pos rfl]
  have hbefore : ((convertInput none none false (.ofString "a.mi.cpp") :
      StateM FileTree _).run smallTree).1 =
        .error (.unreadable (.ofString "a.mi.cpp") .notFound) := by
    have hoptions :=
      resolveOptions_of_absent (habsent _ (List.mem_cons_of_mem _ List.mem_cons_self))
    rw [run_convertInput_of_ok hoptions, run_convertFile_of_unread hmissing]
  have hafter : ((convertInput none none false (.ofString "a.cpp") :
      StateM FileTree _).run smallTree).2.read (.ofString "a.mi.cpp") = .ok converted.text := by
    have hoptions := resolveOptions_of_absent (habsent _ List.mem_cons_self)
    rw [run_convertInput_of_ok hoptions, run_convertFile_of_converted hsource hconverted hwrite]
    exact FileTree.read_of_entryAt (hplace _) hentry
  exact ⟨by decide +kernel, not_perm_of_revealed (by decide +kernel) hbefore hafter⟩

end VertexLanes
