import ScopeAnalysis.FileTree
import Mathlib.Data.List.TakeWhile

namespace ScopeAnalysis

namespace Path

theorem isAbsolute_cons (first : FileName) (rest : List FileName) :
    isAbsolute ⟨first :: rest⟩ = decide (first = .blank ∧ rest ≠ []) := by
  cases rest with
  | nil => simp [isAbsolute]
  | cons second rest => simp [isAbsolute, Bool.beq_eq_decide_eq]

/-- The segments that lead somewhere. -/
def solid (segments : List FileName) : List FileName :=
  segments.filter fun segment => !isVoid segment

theorem solid_append (before after : List FileName) :
    solid (before ++ after) = solid before ++ solid after :=
  List.filter_append ..

theorem solid_voids {voids : List FileName} (h : ∀ v ∈ voids, isVoid v = true) : solid voids = [] :=
  List.filter_eq_nil_iff.mpr fun v hv => by simp [h v hv]

theorem trimmed_split (segments : List FileName) :
    ∃ voids, segments = trimmed segments ++ voids ∧ ∀ v ∈ voids, isVoid v = true := by
  cases segments with
  | nil => exact ⟨[], rfl, by simp⟩
  | cons first rest =>
    refine ⟨(rest.reverse.takeWhile isVoid).reverse, ?_, ?_⟩
    · have hsplit := congrArg List.reverse
        (List.takeWhile_append_dropWhile (p := isVoid) (l := rest.reverse))
      rw [List.reverse_append, List.reverse_reverse] at hsplit
      rw [trimmed, List.cons_append, hsplit]
    · intro v hv
      exact List.mem_takeWhile_imp (List.mem_reverse.mp hv)

theorem solid_trimmed (segments : List FileName) : solid (trimmed segments) = solid segments := by
  obtain ⟨voids, hsplit, hvoids⟩ := trimmed_split segments
  have hsolid := congrArg solid hsplit
  rw [solid_append, solid_voids hvoids, List.append_nil] at hsolid
  exact hsolid.symm

theorem length_trimmed_le (segments : List FileName) :
    (trimmed segments).length ≤ segments.length := by
  obtain ⟨voids, hsplit, -⟩ := trimmed_split segments
  have hlength := congrArg List.length hsplit
  rw [List.length_append] at hlength
  omega

/-- A path that has none above it leads nowhere from where it starts. -/
theorem solid_of_parent?_none {p : Path} (h : p.parent? = none) : solid p.segments = [] := by
  rw [← solid_trimmed]
  unfold parent? at h
  split at h
  next heq => rw [heq]; rfl
  next name heq =>
    split at h
    next hblank => rw [heq, hblank]; rfl
    next => cases h
  next => cases h

/-- The path above another, by its text: one segment is left out, and voids. -/
theorem parent?_split {p q : Path} (h : p.parent? = some q) :
    q.isAbsolute = p.isAbsolute ∧ ∃ before segment voids, p.segments = before ++ segment :: voids ∧
      (∀ v ∈ voids, isVoid v = true) ∧ solid q.segments = solid before := by
  obtain ⟨voids, hsplit, hvoids⟩ := trimmed_split p.segments
  unfold parent? at h
  split at h
  next => cases h
  next first heq =>
    split at h
    next => cases h
    next hne =>
      cases Option.some.inj h
      rw [heq] at hsplit
      refine ⟨?_, [], first, voids, hsplit, hvoids, rfl⟩
      have hp : p = ⟨first :: voids⟩ := congrArg Path.mk hsplit
      rw [hp, isAbsolute_cons]
      simp [hne, empty, isAbsolute]
  next hnil hone =>
    -- at least two segments are left
    obtain ⟨first, second, rest, hnames⟩ :
        ∃ first second rest, trimmed p.segments = first :: second :: rest := by
      rcases hnames : trimmed p.segments with _ | ⟨first, _ | ⟨second, rest⟩⟩
      · exact absurd hnames hnil
      · exact absurd hnames (hone first)
      · exact ⟨first, second, rest, rfl⟩
    have hlast := List.dropLast_concat_getLast (List.cons_ne_nil first (second :: rest))
    have hbefore : (first :: second :: rest).dropLast = first :: (second :: rest).dropLast := rfl
    have hp : p = ⟨first :: (second :: rest ++ voids)⟩ := by
      rw [hnames] at hsplit
      exact congrArg Path.mk hsplit
    have habsolute : p.isAbsolute = decide (first = .blank) := by
      rw [hp, isAbsolute_cons]
      simp
    have hpieces : p.segments = (first :: second :: rest).dropLast ++
        (first :: second :: rest).getLast (List.cons_ne_nil first _) :: voids := by
      rw [hsplit, hnames, List.append_cons, hlast]
    rw [hnames] at h
    have hsolid := solid_trimmed (first :: second :: rest).dropLast
    dsimp only at h
    split at h
    next hroot =>
      cases Option.some.inj h
      rw [hroot] at hsolid
      rw [hbefore, trimmed] at hroot
      refine ⟨?_, _, _, voids, hpieces, hvoids, hsolid⟩
      rw [habsolute, (List.cons.inj hroot).1]
      rfl
    next hroot =>
      cases Option.some.inj h
      refine ⟨?_, _, _, voids, hpieces, hvoids, hsolid⟩
      rw [hbefore, trimmed] at hroot ⊢
      rw [habsolute, isAbsolute_cons]
      by_cases hfirst : first = .blank
      · subst hfirst
        simpa using hroot
      · simp [hfirst]

theorem mem_of_mem_parent? {p q : Path} (h : p.parent? = some q) {segment : FileName}
    (hvoid : isVoid segment = false) (hq : segment ∈ q.segments) : segment ∈ p.segments := by
  obtain ⟨-, before, last, voids, hsplit, -, hsolid⟩ := parent?_split h
  have hmem : segment ∈ solid before := by
    rw [← hsolid]
    exact List.mem_filter.mpr ⟨hq, by simp [hvoid]⟩
  rw [hsplit]
  exact List.mem_append_left _ (List.mem_filter.mp hmem).1

/-- A bound for the steps up from a path. -/
def height (p : Path) : Nat :=
  if p.parent?.isSome then (trimmed p.segments).length else 0

theorem height_le (p : Path) : p.height ≤ p.segments.length := by
  unfold height
  split
  · exact length_trimmed_le p.segments
  · exact Nat.zero_le _

theorem height_parent? {p q : Path} (h : p.parent? = some q) : q.height < p.height := by
  have hp : p.height = (trimmed p.segments).length := by
    rw [height, h]
    rfl
  rw [hp]
  unfold parent? at h
  split at h
  next => cases h
  next first heq =>
    split at h
    next => cases h
    next =>
      cases Option.some.inj h
      rw [heq]
      exact Nat.one_pos
  next hnil _ =>
    have hpos : 0 < (trimmed p.segments).length := List.length_pos_iff.mpr hnil
    dsimp only at h
    split at h
    next =>
      cases Option.some.inj h
      exact hpos
    next =>
      cases Option.some.inj h
      have hle := height_le ⟨trimmed (trimmed p.segments).dropLast⟩
      have hshort := length_trimmed_le (trimmed p.segments).dropLast
      rw [List.length_dropLast] at hshort
      dsimp only at hle
      omega

/-- The segments after which the name of an entry follows: a blank at the end gives way to it. -/
def stem (p : Path) : List FileName :=
  if p.segments.getLast? = some .blank then p.segments.dropLast else p.segments

theorem join_segments (p : Path) (name : FileName) : (p.join name).segments = p.stem ++ [name] := by
  unfold join stem
  split <;> rfl

theorem stem_split (p : Path) :
    ∃ blanks, p.segments = p.stem ++ blanks ∧ ∀ v ∈ blanks, v = .blank := by
  unfold stem
  split
  next hblank =>
    obtain ⟨before, hbefore⟩ := List.getLast?_eq_some_iff.mp hblank
    exact ⟨[.blank], by rw [hbefore, List.dropLast_concat], by simp⟩
  next => exact ⟨[], (List.append_nil _).symm, by simp⟩

theorem isAbsolute_join (p : Path) (name : FileName) : (p.join name).isAbsolute = p.isAbsolute := by
  have hjoin : p.join name = ⟨p.stem ++ [name]⟩ := congrArg Path.mk (p.join_segments name)
  have hp : p = ⟨p.segments⟩ := rfl
  rw [hjoin, stem, hp]
  rcases p.segments with _ | ⟨first, _ | ⟨second, rest⟩⟩
  · simp [isAbsolute]
  · by_cases hfirst : first = .blank <;> simp [isAbsolute_cons, hfirst]
  · split
    · rw [List.dropLast_cons_cons, List.cons_append, isAbsolute_cons, isAbsolute_cons]
      simp
    · rw [List.cons_append, isAbsolute_cons, isAbsolute_cons]
      simp

end Path

namespace FileTree

variable {α : Type}

theorem find?_append (t : FileTree α) (names more : List FileName) :
    t.find? (names ++ more) = (t.find? names).bind (·.find? more) := by
  induction names generalizing t with
  | nil => rfl
  | cons name names ih =>
    rw [List.cons_append, find?, find?]
    cases t.child? name with
    | none => rfl
    | some u => exact ih u

end FileTree

namespace FileSystem

variable {α : Type} {fs : FileSystem α} {p q : Path} {names upper reached segments : List FileName}
  {segment name : FileName}

theorem isDirectory_of_find? (h : (fs.top.find? (names ++ [name])).isSome = true) :
    fs.isDirectory names = true := by
  obtain ⟨t, ht⟩ := Option.isSome_iff_exists.mp h
  rw [FileTree.find?_append] at ht
  obtain ⟨u, hu, hentry⟩ := Option.bind_eq_some_iff.mp ht
  cases u with
  | file content => cases hentry
  | directory entries =>
    rw [isDirectory, hu]
    rfl

theorem follow_append (names before after : List FileName) :
    fs.follow names (before ++ after) = (fs.follow names before).bind (fs.follow · after) := by
  induction before generalizing names with
  | nil => rfl
  | cons segment before ih =>
    rw [List.cons_append, follow, follow]
    split
    · rfl
    · split
      · exact ih _
      · split
        · exact ih _
        · split
          · exact ih _
          · rfl

/-- A segment stays, leads up, or names an entry. -/
theorem follow_segment (h : fs.follow upper [segment] = some names) :
    fs.isDirectory upper = true ∧
      (names = upper ∨ (segment = .up ∧ names = upper.dropLast) ∨ names = upper ++ [segment]) := by
  unfold follow at h
  split at h
  next => cases h
  next hdirectory =>
    refine ⟨by simpa using hdirectory, ?_⟩
    split at h
    next => exact .inl (Option.some.inj h).symm
    next =>
      split at h
      next hup => exact .inr (.inl ⟨by simpa using hup, (Option.some.inj h).symm⟩)
      next =>
        split at h
        next => exact .inr (.inr (Option.some.inj h).symm)
        next => cases h

theorem isDirectory_of_follow (h : fs.follow names segments = some reached)
    (hreached : fs.isDirectory reached = true) : fs.isDirectory names = true := by
  cases segments with
  | nil => rwa [Option.some.inj h]
  | cons segment segments =>
    unfold follow at h
    split at h
    next => cases h
    next hdirectory => simpa using hdirectory

/-- On the way to a directory, voids change nothing. -/
theorem follow_solid (hreached : fs.isDirectory reached = true) :
    fs.follow names segments = some reached ↔
      fs.follow names (Path.solid segments) = some reached := by
  induction segments generalizing names with
  | nil => rfl
  | cons segment segments ih =>
    by_cases hvoid : Path.isVoid segment = true
    · have hsolid : Path.solid (segment :: segments) = Path.solid segments := by
        simp [Path.solid, hvoid]
      rw [hsolid, ← ih, follow, if_pos hvoid]
      constructor
      · intro h
        split at h
        · cases h
        · exact h
      · intro h
        rw [if_neg (by simp [isDirectory_of_follow h hreached]), h]
    · have hsolid : Path.solid (segment :: segments) = segment :: Path.solid segments := by
        simp [Path.solid, hvoid]
      rw [hsolid, follow, follow, if_neg hvoid, if_neg hvoid]
      split
      · rfl
      · split
        · exact ih
        · split
          · exact ih
          · rfl

/-- Voids alone lead nowhere. -/
theorem follow_voids (hvoids : ∀ v ∈ segments, Path.isVoid v = true)
    (h : fs.follow names segments = some reached) : reached = names := by
  induction segments with
  | nil => exact (Option.some.inj h).symm
  | cons segment segments ih =>
    rw [List.forall_mem_cons] at hvoids
    unfold follow at h
    rw [if_pos hvoids.1] at h
    split at h
    · cases h
    · exact ih hvoids.2 h

/-- Where a path starts. -/
def base (fs : FileSystem α) (p : Path) : List FileName :=
  if p.isAbsolute then [] else fs.workingDirectory

/-- The names from the top of what a path leads to. The empty path stays in the working directory. -/
def place? (fs : FileSystem α) (p : Path) : Option (List FileName) :=
  fs.follow (fs.base p) p.segments

theorem place?_of_denoted? (h : fs.denoted? p = some names) : fs.place? p = some names := by
  unfold denoted? at h
  split at h
  · cases h
  · exact h

/-- Two places are the same, or one is in the other. -/
def Adjacent (names place : List FileName) : Prop :=
  names = place ∨ (∃ name, names = place ++ [name]) ∨ ∃ name, place = names ++ [name]

theorem Adjacent.symm {place : List FileName} (h : Adjacent names place) : Adjacent place names := by
  rcases h with rfl | hin | hout
  · exact .inl rfl
  · exact .inr (.inr hin)
  · exact .inr (.inl hout)

theorem Adjacent.above {place : List FileName} (h : Adjacent names place) (hupper : upper <+: names)
    (hne : upper ≠ names) : upper <+: place := by
  rcases h with rfl | ⟨name, rfl⟩ | ⟨name, rfl⟩
  · exact hupper
  · exact (List.prefix_concat_iff.mp hupper).resolve_left hne
  · exact hupper.trans (List.prefix_append names [name])

theorem adjacent_dropLast (place : List FileName) : Adjacent place.dropLast place := by
  rcases List.eq_nil_or_concat place with rfl | ⟨upper, name, rfl⟩
  · exact .inl rfl
  · exact .inr (.inr ⟨name, by rw [List.concat_eq_append, List.dropLast_concat]⟩)

/-- The path above another leads to a directory on its way, one segment before its end. -/
theorem place?_parent (h : fs.place? p = some names) (hq : p.parent? = some q) :
    ∃ place, fs.place? q = some place ∧ Adjacent names place ∧
      (FileName.up ∉ p.segments → place <+: names) := by
  obtain ⟨habsolute, before, segment, voids, hsplit, hvoids, hsolid⟩ := Path.parent?_split hq
  unfold place? at h
  rw [hsplit, List.append_cons, follow_append] at h
  obtain ⟨reached, hreached, hstay⟩ := Option.bind_eq_some_iff.mp h
  rw [follow_append] at hreached
  obtain ⟨place, hplace, hlast⟩ := Option.bind_eq_some_iff.mp hreached
  cases follow_voids hvoids hstay
  obtain ⟨hdirectory, hcases⟩ := follow_segment hlast
  refine ⟨place, ?_, ?_⟩
  · rw [place?, base, habsolute, follow_solid hdirectory, hsolid, ← follow_solid hdirectory]
    exact hplace
  · rcases hcases with rfl | ⟨rfl, rfl⟩ | rfl
    · exact ⟨.inl rfl, fun _ => List.prefix_rfl⟩
    · exact ⟨adjacent_dropLast place, fun hdots => absurd (by simp [hsplit]) hdots⟩
    · exact ⟨.inr (.inl ⟨segment, rfl⟩), fun _ => List.prefix_append place [segment]⟩

/-- A path with none above it leads to where it starts. -/
theorem place?_top (h : fs.place? p = some names) (hp : p.parent? = none) :
    names = fs.base p := by
  refine follow_voids ?_ h
  intro v hv
  have hnone := List.filter_eq_nil_iff.mp (Path.solid_of_parent?_none hp) v hv
  simpa using hnone

/-- The path of an entry denotes it if it is there. -/
theorem denoted?_join (h : fs.place? p = some names) (hvoid : Path.isVoid name = false)
    (hup : name ≠ .up) :
    fs.denoted? (p.join name) =
      if (fs.top.find? (names ++ [name])).isSome then some (names ++ [name]) else none := by
  obtain ⟨blanks, hsplit, hblanks⟩ := p.stem_split
  have hjoin := p.join_segments name
  have hne : p.join name ≠ Path.empty := by
    intro he
    rw [he] at hjoin
    have hlast := congrArg List.getLast? hjoin
    rw [List.getLast?_concat] at hlast
    have hblank : name = .blank := (Option.some.inj hlast).symm
    rw [hblank] at hvoid
    exact absurd hvoid (by decide)
  unfold place? at h
  rw [hsplit, follow_append] at h
  obtain ⟨place, hplace, hstay⟩ := Option.bind_eq_some_iff.mp h
  cases follow_voids (fun v hv => by simp [hblanks v hv, Path.isVoid]) hstay
  have hbase : (if p.isAbsolute then [] else fs.workingDirectory) = fs.base p := rfl
  rw [denoted?, if_neg hne, p.isAbsolute_join, hbase, hjoin, follow_append, hplace,
    Option.bind_some, follow]
  split
  next hfile =>
    rw [if_neg]
    intro hsome
    simp [isDirectory_of_find? hsome] at hfile
  next =>
    rw [if_neg (by simp [hvoid]), if_neg (by simpa using hup)]
    rfl

end FileSystem

end ScopeAnalysis
