import ScopeAnalysis.FileTree

namespace ScopeAnalysis

namespace FileTree

variable {α : Type}

theorem isDirectory_setEntry (t : FileTree α) (name : FileName) (entry : FileTree α) :
    (t.setEntry name entry).isDirectory = t.isDirectory := by
  cases t with
  | file content => rfl
  | directory entries =>
    unfold setEntry
    dsimp only
    split <;> rfl

theorem find?_replaced (entries : List (FileName × FileTree α)) (name other : FileName)
    (entry : FileTree α) :
    (entries.map fun e => if e.1 == name then (name, entry) else e).find? (·.1 == other) =
      if other = name then (entries.find? (·.1 == name)).map fun _ => (name, entry)
      else entries.find? (·.1 == other) := by
  induction entries with
  | nil => simp
  | cons e entries ih =>
    rw [List.map_cons]
    by_cases he : e.1 = name
    · by_cases ho : other = name
      · simp [he, ho]
      · have hno : name ≠ other := fun h => ho h.symm
        simp only [he, beq_self_eq_true, if_true, List.find?_cons, beq_eq_false_iff_ne.mpr hno,
          ih, if_neg ho]
    · have hne : (e.1 == name) = false := beq_eq_false_iff_ne.mpr he
      by_cases ho : other = name
      · simp only [hne, ho, Bool.false_eq_true, if_false, List.find?_cons] at ih ⊢
        exact ih
      · simp only [hne, Bool.false_eq_true, if_false, List.find?_cons, ih, if_neg ho]

/-- Putting an entry in a directory changes no other entry. -/
theorem child?_setEntry {t : FileTree α} {other : FileName} {u : FileTree α}
    (h : t.child? other = some u) (name : FileName) (entry : FileTree α) :
    child? (t.setEntry name entry) other = if other = name then some entry else some u := by
  cases t with
  | file content => cases h
  | directory entries =>
    obtain ⟨e, he, rfl⟩ := Option.map_eq_some_iff.mp h
    have hname : e.1 = other := by simpa using List.find?_some he
    unfold setEntry
    dsimp only
    split
    next hany =>
      simp only [child?, find?_replaced]
      split
      next ho =>
        subst ho
        rw [he]
        rfl
      next =>
        rw [he]
        rfl
    next hany =>
      have hne : other ≠ name := by
        rintro rfl
        refine hany (List.any_eq_true.mpr ⟨e, List.mem_of_find?_eq_some he, ?_⟩)
        simp [hname]
      simp [child?, List.find?_append, he, hne]

/-- A tree that is put where nothing is displaces nothing. -/
theorem find?_put {names : List FileName} {new : FileTree α} {t : FileTree α}
    (hnew : t.find? names = none) {places : List FileName} {u : FileTree α}
    (h : t.find? places = some u) :
    ∃ u', (t.put names new).find? places = some u' ∧ u'.isDirectory = u.isDirectory := by
  induction names generalizing t places with
  | nil => cases hnew
  | cons name names ih =>
    cases places with
    | nil =>
      cases Option.some.inj h
      exact ⟨_, rfl, isDirectory_setEntry _ _ _⟩
    | cons place places =>
      obtain ⟨v, hv, hu⟩ := Option.bind_eq_some_iff.mp h
      rw [put, find?, child?_setEntry hv]
      by_cases hp : place = name
      · subst hp
        have hinner : v.find? names = none := by simpa [find?, hv] using hnew
        rw [if_pos rfl, hv]
        exact ih hinner hu
      · rw [if_neg hp]
        exact ⟨u, hu, rfl⟩

end FileTree

namespace FileSystem

variable {α : Type} {fs fs' fs'' : FileSystem α}

/-- Nothing is lost, and directories stay directories. -/
structure Grows (fs fs' : FileSystem α) : Prop where
  workingDirectory : fs'.workingDirectory = fs.workingDirectory
  entry : ∀ names t, fs.top.find? names = some t →
    ∃ t', fs'.top.find? names = some t' ∧ t'.isDirectory = t.isDirectory

theorem Grows.refl (fs : FileSystem α) : Grows fs fs :=
  ⟨rfl, fun _ t ht => ⟨t, ht, rfl⟩⟩

theorem Grows.trans (h : Grows fs fs') (h' : Grows fs' fs'') : Grows fs fs'' := by
  refine ⟨h'.workingDirectory.trans h.workingDirectory, ?_⟩
  intro names t ht
  obtain ⟨t', ht', hkind⟩ := h.entry names t ht
  obtain ⟨t'', ht'', hkind'⟩ := h'.entry names t' ht'
  exact ⟨t'', ht'', hkind'.trans hkind⟩

theorem grows_put {names : List FileName} (h : fs.top.find? names = none) (new : FileTree α) :
    Grows fs { fs with top := fs.top.put names new } :=
  ⟨rfl, fun _ _ ht => FileTree.find?_put h ht⟩

theorem makeDirectories_grows {names segments reached : List FileName}
    (h : fs.makeDirectories names segments = some (fs', reached)) : Grows fs fs' := by
  induction segments generalizing fs names with
  | nil =>
    simp only [makeDirectories, Option.ite_none_right_eq_some, Option.some.injEq,
      Prod.mk.injEq] at h
    obtain ⟨_, rfl, _⟩ := h
    exact .refl fs
  | cons segment segments ih =>
    unfold makeDirectories at h
    split at h
    next => cases h
    next =>
      split at h
      next => exact ih h
      next =>
        split at h
        next => exact ih h
        next =>
          dsimp only at h
          split at h
          next => exact ih h
          next hmissing =>
            have hnone : fs.top.find? (names ++ [segment]) = none := by simpa using hmissing
            exact (grows_put hnone _).trans (ih h)

theorem createFile_grows {directory : Path} {name : FileName} {content : α}
    (h : fs.createFile directory name content = some fs') : Grows fs fs' := by
  unfold createFile at h
  obtain ⟨⟨fs₁, names⟩, hmade, hrest⟩ := Option.bind_eq_some_iff.mp h
  have hgrows := makeDirectories_grows hmade
  dsimp only at hrest
  split at hrest
  next hnone =>
    cases Option.some.inj hrest
    exact hgrows.trans (grows_put hnone _)
  next =>
    cases Option.some.inj hrest
    exact hgrows
  next => cases hrest

theorem Grows.isDirectory (h : Grows fs fs') {names : List FileName}
    (hd : fs.isDirectory names = true) : fs'.isDirectory names = true := by
  obtain ⟨t, ht, hkind⟩ := (Option.any_eq_true _ _).mp hd
  obtain ⟨t', ht', hkind'⟩ := h.entry names t ht
  simp [FileSystem.isDirectory, ht', hkind', hkind]

theorem Grows.follow (h : Grows fs fs') {names segments reached : List FileName}
    (hf : fs.follow names segments = some reached) : fs'.follow names segments = some reached := by
  induction segments generalizing names with
  | nil => exact hf
  | cons segment segments ih =>
    unfold FileSystem.follow at hf ⊢
    split at hf
    next => cases hf
    next hd =>
      have hd' : fs'.isDirectory names = true := h.isDirectory (by simpa using hd)
      rw [if_neg (by simp [hd'])]
      split at hf
      next hvoid =>
        rw [if_pos hvoid]
        exact ih hf
      next hvoid =>
        rw [if_neg hvoid]
        split at hf
        next hup =>
          rw [if_pos hup]
          exact ih hf
        next hup =>
          rw [if_neg hup]
          split at hf
          next hsome =>
            obtain ⟨t, ht⟩ := Option.isSome_iff_exists.mp hsome
            obtain ⟨t', ht', _⟩ := h.entry _ t ht
            rw [if_pos (by simp [ht'])]
            exact ih hf
          next => cases hf

/-- A path that denotes something goes on doing so. -/
theorem Grows.exists? (h : Grows fs fs') {p : Path} (hp : fs.exists? p = true) :
    fs'.exists? p = true := by
  obtain ⟨t, ht⟩ := Option.isSome_iff_exists.mp hp
  obtain ⟨names, hnames, hentry⟩ := Option.bind_eq_some_iff.mp ht
  obtain ⟨t', ht', _⟩ := h.entry names t hentry
  have hdenoted : fs'.denoted? p = some names := by
    unfold denoted? at hnames ⊢
    rw [h.workingDirectory]
    split at hnames
    next => cases hnames
    next hne =>
      rw [if_neg hne]
      exact h.follow hnames
  simp [FileSystem.exists?, lookup?, hdenoted, ht']

end FileSystem

end ScopeAnalysis
