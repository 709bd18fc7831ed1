import ScopeAnalysis.Config
import ScopeAnalysis.Proofs.Places

namespace ScopeAnalysis

namespace Config

variable {α : Type} {fs : FileSystem α} {p q start : Path} {names directory : List FileName}
  {found : Option Path}

/-- The search from a path, one path after the other: what it finds, or nothing when no path is left
above. -/
inductive Search (fs : FileSystem α) : Path → Option Path → Prop
  | here {p : Path} (hp : fs.exists? (p.join fileName) = true) : Search fs p (some (p.join fileName))
  | up {p q : Path} {found : Option Path} (hp : fs.exists? (p.join fileName) = false)
    (hq : p.parent? = some q) (h : Search fs q found) : Search fs p found
  | last {p : Path} (hp : fs.exists? (p.join fileName) = false) (htop : p.parent? = none) :
    Search fs p none

theorem search_step {rest : List Path} (htop : p.parent? = none → rest = [])
    (hup : ∀ q, p.parent? = some q → Search fs q (rest.find? fs.exists?)) :
    Search fs p ((p.join fileName :: rest).find? fs.exists?) := by
  cases hp : fs.exists? (p.join fileName) with
  | true =>
    rw [List.find?_cons_of_pos hp]
    exact .here hp
  | false =>
    rw [List.find?_cons_of_neg (by simp [hp])]
    cases hq : p.parent? with
    | none =>
      rw [htop hq]
      exact .last hp hq
    | some q => exact .up hp hq (hup q hq)

theorem search_ancestors {fuel : Nat} (h : p.height ≤ fuel) :
    Search fs p (((Path.ancestorsFuel fuel p).map (·.join fileName)).find? fs.exists?) := by
  induction fuel generalizing p with
  | zero =>
    refine search_step (fun _ => rfl) ?_
    intro q hq
    have hlt := Path.height_parent? hq
    omega
  | succ fuel ih =>
    rw [Path.ancestorsFuel]
    cases hq : p.parent? with
    | none => exact search_step (fun _ => rfl) (by simp [hq])
    | some q =>
      have hlt := Path.height_parent? hq
      have hupper := ih (p := q) (by omega)
      exact search_step (by simp [hq]) (by simpa [hq] using hupper)

/-- The search ends, with what is found. -/
theorem search_find? (fs : FileSystem α) (p : Path) : Search fs p (find? fs p) :=
  search_ancestors (Nat.le_succ_of_le p.height_le)

/-- A directory, by its names from the top, holds a configuration file. -/
def HeldIn (fs : FileSystem α) (directory : List FileName) : Prop :=
  (fs.top.find? (directory ++ [fileName])).isSome = true

/-- What is found is the file in the directory or in the nearest one above that has such a file, and
it is nothing when none has. -/
def Nearest (fs : FileSystem α) (directory : List FileName) : Option Path → Prop
  | some found => ∃ upper, upper <+: directory ∧ fs.denoted? found = some (upper ++ [fileName]) ∧
      ∀ other, other <+: directory → upper <+: other → other ≠ upper → ¬HeldIn fs other
  | none => ∀ upper, upper <+: directory → ¬HeldIn fs upper

theorem denoted?_file (h : fs.place? p = some names) (hheld : HeldIn fs names) :
    fs.denoted? (p.join fileName) = some (names ++ [fileName]) := by
  rw [FileSystem.denoted?_join h (by decide) (by decide)]
  exact if_pos hheld

theorem exists?_file (h : fs.place? p = some names) :
    fs.exists? (p.join fileName) = true ↔ HeldIn fs names := by
  rw [FileSystem.exists?, FileSystem.lookup?, FileSystem.denoted?_join h (by decide) (by decide),
    HeldIn]
  split
  next hsome => simp [hsome]
  next hnone => simpa using hnone

theorem not_heldIn_of_not_exists? (h : fs.place? p = some names)
    (hnot : fs.exists? (p.join fileName) = false) : ¬HeldIn fs names := by
  rw [← exists?_file h, hnot]
  exact Bool.false_ne_true

namespace Search

variable {upper : List FileName} {file : Path}

theorem not_heldIn (h : Search fs p none) (hp : fs.place? p = some names) : ¬HeldIn fs names := by
  cases h with
  | up hnot hq h => exact not_heldIn_of_not_exists? hp hnot
  | last hnot htop => exact not_heldIn_of_not_exists? hp hnot

/-- A search that finds nothing has passed every directory above, down to where the path starts. -/
theorem none_above (h : Search fs p found) (hfound : found = none) (hp : fs.place? p = some names)
    (hupper : upper <+: names) (hheld : HeldIn fs upper) :
    p.isAbsolute = false ∧ upper <+: fs.workingDirectory ∧ upper ≠ fs.workingDirectory := by
  induction h generalizing names with
  | here => cases hfound
  | up hnot hq h ih =>
    have hne : upper ≠ names := by
      rintro rfl
      exact not_heldIn_of_not_exists? hp hnot hheld
    obtain ⟨place, hplace, hstep, -⟩ := FileSystem.place?_parent hp hq
    rw [← (Path.parent?_split hq).1]
    exact ih hfound hplace (hstep.above hupper hne)
  | last hnot htop =>
    have hne : upper ≠ names := by
      rintro rfl
      exact not_heldIn_of_not_exists? hp hnot hheld
    rw [FileSystem.place?_top hp htop, FileSystem.base] at hupper hne
    split at hupper
    next habsolute =>
      rw [if_pos habsolute] at hne
      exact absurd (List.prefix_nil.mp hupper) hne
    next habsolute =>
      rw [if_neg habsolute] at hne
      exact ⟨by simpa using habsolute, hupper, hne⟩

/-- What is above the working directory is above the place of a relative path, unless the search
finds something on the way. -/
theorem above_of_none (h : Search fs p found) (hfound : found = none)
    (hp : fs.place? p = some names) (hrelative : p.isAbsolute = false)
    (hupper : upper <+: fs.workingDirectory) (hheld : HeldIn fs upper) : upper <+: names := by
  induction h generalizing names with
  | here => cases hfound
  | up hnot hq h ih =>
    subst hfound
    obtain ⟨place, hplace, hstep, -⟩ := FileSystem.place?_parent hp hq
    have hne : upper ≠ place := by
      rintro rfl
      exact h.not_heldIn hplace hheld
    exact hstep.symm.above (ih rfl hplace ((Path.parent?_split hq).1.trans hrelative)) hne
  | last hnot htop =>
    rw [FileSystem.place?_top hp htop, FileSystem.base, if_neg (by simp [hrelative])]
    exact hupper

/-- What is found lies in a directory on the way, and in none that is nearer among those above. -/
theorem some_nearest (h : Search fs p found) (hfound : found = some file)
    (hp : fs.place? p = some names) :
    ∃ directory, HeldIn fs directory ∧ fs.denoted? file = some (directory ++ [fileName]) ∧
      (∀ other, other <+: names → directory <+: other → other ≠ directory → ¬HeldIn fs other) ∧
      (FileName.up ∉ p.segments → directory <+: names) := by
  induction h generalizing names with
  | here hhere =>
    cases hfound
    have hheld := (exists?_file hp).mp hhere
    refine ⟨names, hheld, denoted?_file hp hheld, ?_, fun _ => List.prefix_rfl⟩
    intro other hother hback hne
    exact absurd (hother.eq_of_length_le hback.length_le) hne
  | up hnot hq h ih =>
    obtain ⟨place, hplace, hstep, hplain⟩ := FileSystem.place?_parent hp hq
    obtain ⟨directory, hheld, hdenoted, hnearest, hway⟩ := ih hfound hplace
    refine ⟨directory, hheld, hdenoted, ?_, ?_⟩
    · intro other hother hbelow hne hheld'
      have hother_ne : other ≠ names := by
        rintro rfl
        exact not_heldIn_of_not_exists? hp hnot hheld'
      exact hnearest other (hstep.above hother hother_ne) hbelow hne hheld'
    · intro hdots
      have hinner := hway fun hmem => hdots (Path.mem_of_mem_parent? hq (by decide) hmem)
      exact hinner.trans (hplain hdots)
  | last => cases hfound

end Search

/-- The directory of what names lead to: itself, or the one that holds the file. -/
def home (fs : FileSystem α) (names : List FileName) : List FileName :=
  if fs.isDirectory names then names else names.dropLast

/-- A file is no directory that could hold another. -/
theorem above_home_iff (hheld : HeldIn fs directory) :
    directory <+: home fs names ↔ directory <+: names := by
  unfold home
  split
  next => rfl
  next hfile =>
    have hne : directory ≠ names := by
      rintro rfl
      exact hfile (FileSystem.isDirectory_of_find? hheld)
    refine ⟨fun h => h.trans (List.dropLast_prefix names), fun h => ?_⟩
    exact (FileSystem.adjacent_dropLast names).symm.above h hne

/-- What is found lies aside, in a directory that is not above. -/
def Strays (fs : FileSystem α) (start : Path) (directory : List FileName) : Prop :=
  ∃ file aside, find? fs start = some file ∧ fs.denoted? file = some (aside ++ [fileName]) ∧
    ¬aside <+: directory

/-- Nothing is found from a relative path, though there is a file above the working directory. -/
def FallsShort (fs : FileSystem α) (start : Path) : Prop :=
  find? fs start = none ∧ start.isAbsolute = false ∧
    ∃ upper, upper <+: fs.workingDirectory ∧ upper ≠ fs.workingDirectory ∧ HeldIn fs upper

theorem nearest_none_iff (hp : fs.place? start = some names) (hfound : find? fs start = none) :
    Nearest fs (home fs names) none ↔ ¬FallsShort fs start := by
  have hsearch := search_find? fs start
  constructor
  · rintro hnone ⟨-, hrelative, upper, hupper, -, hheld⟩
    have habove := hsearch.above_of_none hfound hp hrelative hupper hheld
    exact hnone upper ((above_home_iff hheld).mpr habove) hheld
  · intro hshort upper hupper hheld
    obtain ⟨hrelative, hworking, hne⟩ :=
      hsearch.none_above hfound hp ((above_home_iff hheld).mp hupper) hheld
    exact hshort ⟨hfound, hrelative, upper, hworking, hne, hheld⟩

theorem nearest_some_iff {file : Path} (hp : fs.place? start = some names)
    (hfound : find? fs start = some file) :
    Nearest fs (home fs names) (some file) ↔ ¬Strays fs start (home fs names) := by
  obtain ⟨directory, hheld, hdenoted, hnearest, -⟩ := (search_find? fs start).some_nearest hfound hp
  constructor
  · rintro ⟨upper, hupper, hupperDenoted, -⟩ ⟨other, aside, hother, haside, hnot⟩
    cases hfound.symm.trans hother
    have hsame : upper ++ [fileName] = aside ++ [fileName] :=
      Option.some.inj (hupperDenoted.symm.trans haside)
    rw [List.append_cancel_right hsame] at hupper
    exact hnot hupper
  · intro hstrays
    have hupper : directory <+: home fs names := by
      by_contra hnot
      exact hstrays ⟨file, directory, hfound, hdenoted, hnot⟩
    refine ⟨directory, hupper, hdenoted, ?_⟩
    intro other hother hbelow hne hheld'
    exact hnearest other ((above_home_iff hheld').mp hother) hbelow hne hheld'

theorem dots_of_strays (hp : fs.place? start = some names)
    (h : Strays fs start (home fs names)) : FileName.up ∈ start.segments := by
  obtain ⟨file, aside, hfound, haside, hnot⟩ := h
  obtain ⟨directory, hheld, hdenoted, -, hway⟩ := (search_find? fs start).some_nearest hfound hp
  have hsame : directory ++ [fileName] = aside ++ [fileName] :=
    Option.some.inj (hdenoted.symm.trans haside)
  rw [← List.append_cancel_right hsame] at hnot
  by_contra hdots
  exact hnot ((above_home_iff hheld).mpr (hway hdots))

/-- From a path that denotes something the search ends. It finds the nearest configuration file
exactly when it neither strays, which takes a `..` in the path, nor falls short, which takes a
relative path. -/
theorem find?_nearest_iff (h : fs.denoted? start = some names) :
    Search fs start (find? fs start) ∧
      (Nearest fs (home fs names) (find? fs start) ↔
        ¬Strays fs start (home fs names) ∧ ¬FallsShort fs start) ∧
      (Strays fs start (home fs names) → FileName.up ∈ start.segments) := by
  have hp := FileSystem.place?_of_denoted? h
  refine ⟨search_find? fs start, ?_, dots_of_strays hp⟩
  cases hfound : find? fs start with
  | none =>
    have hstrays : ¬Strays fs start (home fs names) := by
      rintro ⟨file, -, hfile, -⟩
      cases hfound.symm.trans hfile
    rw [nearest_none_iff hp hfound]
    exact ⟨fun hshort => ⟨hstrays, hshort⟩, And.right⟩
  | some file =>
    have hshort : ¬FallsShort fs start := by
      rintro ⟨hnone, -⟩
      cases hfound.symm.trans hnone
    rw [nearest_some_iff hp hfound]
    exact ⟨fun hstrays => ⟨hstrays, hshort⟩, And.left⟩

/-- A configuration file at the top and one in `/w/a`, seen from `/w`. -/
def twoConfigs : FileSystem Unit where
  top := .directory
    [(fileName, .file ()),
      ("w", .directory [("a", .directory [(fileName, .file ())]), ("b", .directory [])])]
  workingDirectory := ["w"]

/-- From `/w/b` the file at the top is found. From `a/..`, which is `/w`, the one in `/w/a` is found
instead, and from `.`, which is `/w` too, none is. -/
theorem twoConfigs_search :
    let a : FileName := "a"
    let b : FileName := "b"
    let w : FileName := "w"
    twoConfigs.denoted? ⟨[.blank, w, b]⟩ = some [w, b] ∧
      Nearest twoConfigs [w, b] (find? twoConfigs ⟨[.blank, w, b]⟩) ∧
      twoConfigs.denoted? ⟨[a, .up]⟩ = some [w] ∧
      ¬Nearest twoConfigs [w] (find? twoConfigs ⟨[a, .up]⟩) ∧
      twoConfigs.denoted? ⟨[.here]⟩ = some [w] ∧
      ¬Nearest twoConfigs [w] (find? twoConfigs ⟨[.here]⟩) := by
  intro a b w
  have hplain : twoConfigs.denoted? ⟨[.blank, w, b]⟩ = some [w, b] := by decide
  have hdots : twoConfigs.denoted? ⟨[a, .up]⟩ = some [w] := by decide
  have hdot : twoConfigs.denoted? ⟨[.here]⟩ = some [w] := by decide
  refine ⟨hplain, ?_, hdots, ?_, hdot, ?_⟩
  · obtain ⟨-, hiff, hstrays⟩ := find?_nearest_iff hplain
    refine hiff.mpr ⟨fun h => absurd (hstrays h) (by decide), ?_⟩
    rintro ⟨-, hrelative, -⟩
    exact absurd hrelative (by decide)
  · obtain ⟨-, hiff, -⟩ := find?_nearest_iff hdots
    intro hnearest
    exact (hiff.mp hnearest).1 ⟨⟨[a, fileName]⟩, [w, a], by decide, by decide, by decide⟩
  · obtain ⟨-, hiff, -⟩ := find?_nearest_iff hdot
    intro hnearest
    exact (hiff.mp hnearest).2 ⟨by decide, by decide, [], by decide, by decide, rfl⟩

end Config

end ScopeAnalysis
