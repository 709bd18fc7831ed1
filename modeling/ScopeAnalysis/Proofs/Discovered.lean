import ScopeAnalysis.Discovery
import ScopeAnalysis.Proofs.Places
import Mathlib.Data.List.Infix
import Mathlib.Data.List.Nodup

namespace ScopeAnalysis

theorem FileName.toByteArray_ofText (text : String) :
    (FileName.ofText text).bytes.toByteArray = text.toByteArray :=
  String.utf8Encode_toList

theorem FileName.bytes_append (a b : String) :
    (FileName.ofText (a ++ b)).bytes = (FileName.ofText a).bytes ++ (FileName.ofText b).bytes := by
  simp [FileName.ofText]

/-- The names that are texts are the encodings of texts. -/
theorem FileName.text?_eq_some_iff {name : FileName} {text : String} :
    name.text? = some text ↔ name = FileName.ofText text := by
  unfold FileName.text? String.fromUTF8?
  constructor
  · intro h
    obtain ⟨hvalid, hsome⟩ := Option.dite_none_right_eq_some.mp h
    have hbytes : text.toByteArray = name.bytes.toByteArray := by
      rw [← Option.some.inj hsome]
      rfl
    have hdata := congrArg ByteArray.data ((FileName.toByteArray_ofText text).trans hbytes)
    rw [List.data_toByteArray, List.data_toByteArray] at hdata
    exact congrArg FileName.mk (Array.mk.inj hdata).symm
  · rintro rfl
    simp only [FileName.toByteArray_ofText, text.isValidUTF8, dite_true]
    rfl

/-- The first byte of an encoded character is that of a point for the point only. -/
theorem head?_utf8EncodeChar (c : Char) :
    (String.utf8EncodeChar c).head? = some '.'.toUInt8 ↔ c = '.' := by
  have hvalue : c = '.' ↔ c.val.toNat = 46 := by
    rw [Char.ext_iff, ← UInt32.toNat_inj]
    rfl
  have hbyte : ∀ n, UInt8.ofNat n = '.'.toUInt8 ↔ n % 256 = 46 := by
    intro n
    rw [← UInt8.toNat_inj, UInt8.toNat_ofNat']
    rfl
  rw [hvalue, String.utf8EncodeChar]
  split_ifs <;> rw [List.head?_cons, Option.some_inj, hbyte] <;> omega

theorem FileName.head?_ofText (text : String) :
    (FileName.ofText text).bytes.head? = some '.'.toUInt8 ↔ text.toList.head? = some '.' := by
  rw [FileName.ofText]
  cases text.toList with
  | nil => simp
  | cons c rest =>
    rw [List.flatMap_cons, List.head?_append_of_ne_nil _ String.utf8EncodeChar_ne_nil,
      head?_utf8EncodeChar]
    simp

/-- A name that does not start with a point and is not `node_modules`. A name that is no text may start
with a point. -/
def FileName.IsVisible (name : FileName) : Prop :=
  (name.text?.isSome → name.bytes.head? ≠ some '.'.toUInt8) ∧ name ≠ FileName.ofText "node_modules"

instance (name : FileName) : Decidable name.IsVisible :=
  inferInstanceAs (Decidable (_ ∧ _))

theorem FileName.isVisible_ofText (text : String) : (FileName.ofText text).IsVisible ↔
    text.toList.head? ≠ some '.' ∧ text ≠ "node_modules" := by
  have htext : (FileName.ofText text).text? = some text := FileName.text?_eq_some_iff.mpr rfl
  rw [FileName.IsVisible, Ne, Ne, ← FileName.text?_eq_some_iff, FileName.head?_ofText, htext]
  simp

theorem FileName.isVisible_of_text?_eq_none {name : FileName} (h : name.text? = none) :
    name.IsVisible := by
  rw [FileName.IsVisible, Ne, Ne, ← FileName.text?_eq_some_iff, h]
  simp

/-- A name that ends in a point and the extension, after something else. -/
def FileName.HasExtension (name : FileName) (ext : String) : Prop :=
  (FileName.ofText ("." ++ ext)).bytes <:+ name.bytes ∧ name ≠ FileName.ofText ("." ++ ext)

instance (name : FileName) (ext : String) : Decidable (name.HasExtension ext) :=
  inferInstanceAs (Decidable (_ ∧ _))

theorem FileName.hasExtension_iff {name : FileName} {ext : String} :
    name.HasExtension ext ↔ '.'.toUInt8 :: (FileName.ofText ext).bytes <:+ name.bytes ∧
      (FileName.ofText ext).bytes.length + 1 < name.bytes.length := by
  have hdotted : (FileName.ofText ("." ++ ext)).bytes = '.'.toUInt8 :: (FileName.ofText ext).bytes :=
    FileName.bytes_append "." ext
  rw [FileName.HasExtension, hdotted, ← List.length_cons, ← hdotted]
  refine and_congr_right fun hsuffix => ?_
  constructor
  · intro hother
    refine Nat.lt_of_le_of_ne hsuffix.length_le fun hsame => hother ?_
    exact congrArg FileName.mk (hsuffix.eq_of_length hsame).symm
  · rintro hlt rfl
    exact Nat.lt_irrefl _ hlt

/-- A name that an entry of a directory can have: it neither stays nor leads up. -/
structure Path.IsName (name : FileName) : Prop where
  solid : Path.isVoid name = false
  down : name ≠ .up

instance (name : FileName) : Decidable (Path.IsName name) :=
  decidable_of_iff (Path.isVoid name = false ∧ name ≠ .up)
    ⟨fun h => ⟨h.1, h.2⟩, fun h => ⟨h.solid, h.down⟩⟩

theorem Path.IsName.ne_blank {name : FileName} (h : Path.IsName name) : name ≠ .blank := by
  rintro rfl
  exact absurd h.solid (by decide)

namespace FileTree

variable {α : Type} {t : FileTree α} {entries : List (FileName × FileTree α)} {names : List FileName}

/-- The entries of each directory have names, and no two have the same. -/
inductive WellNamed : FileTree α → Prop
  | file (content : α) : WellNamed (file content)
  | directory {entries : List (FileName × FileTree α)} (distinct : (entries.map (·.1)).Nodup)
    (named : ∀ e ∈ entries, Path.IsName e.1) (inner : ∀ e ∈ entries, WellNamed e.2) :
    WellNamed (directory entries)

@[simp] theorem wellNamed_file (content : α) : (file content).WellNamed :=
  .file content

@[simp] theorem wellNamed_directory : (directory entries).WellNamed ↔
    (entries.map (·.1)).Nodup ∧ ∀ e ∈ entries, Path.IsName e.1 ∧ e.2.WellNamed := by
  constructor
  · intro h
    cases h with
    | directory distinct named inner => exact ⟨distinct, fun e he => ⟨named e he, inner e he⟩⟩
  · rintro ⟨distinct, hentries⟩
    exact .directory distinct (fun e he => (hentries e he).1) fun e he => (hentries e he).2

mutual

/-- All files of a tree by their names, in the order in which a walk comes to them. -/
def files : FileTree α → List (List FileName)
  | file _ => [[]]
  | directory entries => filesOf entries

def filesOf : List (FileName × FileTree α) → List (List FileName)
  | [] => []
  | (name, t) :: rest => t.files.map (name :: ·) ++ filesOf rest

end

theorem filesOf_eq (entries : List (FileName × FileTree α)) :
    filesOf entries = entries.flatMap fun e => e.2.files.map (e.1 :: ·) := by
  induction entries with
  | nil => rfl
  | cons e rest ih => rw [filesOf, ih, List.flatMap_cons]

theorem mem_filesOf : names ∈ filesOf entries ↔
    ∃ e ∈ entries, ∃ inner ∈ e.2.files, names = e.1 :: inner := by
  simp only [filesOf_eq, List.mem_flatMap, List.mem_map, eq_comm]

theorem child?_of_mem (h : (entries.map (·.1)).Nodup) {e : FileName × FileTree α}
    (he : e ∈ entries) : child? (directory entries) e.1 = some e.2 := by
  induction entries with
  | nil => cases he
  | cons first rest ih =>
    obtain ⟨hfirst, hrest⟩ := List.nodup_cons.mp h
    rcases List.mem_cons.mp he with rfl | he'
    · rw [child?, List.find?_cons_of_pos (by simp)]
      rfl
    · have hne : first.1 ≠ e.1 := fun heq =>
        hfirst (List.mem_map.mpr ⟨e, he', heq.symm⟩)
      rw [child?, List.find?_cons_of_neg (by simpa using hne)]
      exact ih hrest he'

theorem mem_of_child? {name : FileName} (h : child? (directory entries) name = some t) :
    (name, t) ∈ entries := by
  obtain ⟨e, he, rfl⟩ := Option.map_eq_some_iff.mp h
  have hname : e.1 = name := by simpa using List.find?_some he
  rw [← hname]
  exact List.mem_of_find?_eq_some he

namespace WellNamed

/-- Every file is listed. -/
theorem mem_files_iff (h : t.WellNamed) :
    names ∈ t.files ↔ ∃ content, t.find? names = some (.file content) := by
  induction h generalizing names with
  | file content =>
    rw [files, List.mem_singleton]
    constructor
    · rintro rfl
      exact ⟨content, rfl⟩
    · rintro ⟨other, hfind⟩
      cases names with
      | nil => rfl
      | cons name names => cases hfind
  | @directory entries distinct named inner ih =>
    rw [files, mem_filesOf]
    constructor
    · rintro ⟨e, he, below, hbelow, rfl⟩
      obtain ⟨content, hcontent⟩ := (ih e he).mp hbelow
      exact ⟨content, by rw [find?, child?_of_mem distinct he, Option.bind_some, hcontent]⟩
    · rintro ⟨content, hfind⟩
      cases names with
      | nil => cases hfind
      | cons name below =>
        obtain ⟨u, hu, hcontent⟩ := Option.bind_eq_some_iff.mp hfind
        have hmem := mem_of_child? hu
        exact ⟨(name, u), hmem, below, (ih _ hmem).mpr ⟨content, hcontent⟩, rfl⟩

/-- No file is listed twice. -/
theorem nodup_files (h : t.WellNamed) : t.files.Nodup := by
  induction h with
  | file content => exact List.nodup_singleton _
  | @directory entries distinct named inner ih =>
    rw [files, filesOf_eq, List.nodup_flatMap]
    refine ⟨fun e he => (ih e he).map fun _ _ hsame => (List.cons.inj hsame).2, ?_⟩
    refine (List.pairwise_map.mp distinct).imp ?_
    intro e d hne names hnames hother
    obtain ⟨below, -, rfl⟩ := List.mem_map.mp hnames
    obtain ⟨below', -, hsame⟩ := List.mem_map.mp hother
    exact hne (List.cons.inj hsame).1.symm

theorem isName (h : t.WellNamed) (hnames : names ∈ t.files) :
    ∀ name ∈ names, Path.IsName name := by
  induction h generalizing names with
  | file content =>
    rw [files, List.mem_singleton] at hnames
    simp [hnames]
  | @directory entries distinct named inner ih =>
    rw [files, mem_filesOf] at hnames
    obtain ⟨e, he, below, hbelow, rfl⟩ := hnames
    exact List.forall_mem_cons.mpr ⟨named e he, ih e he hbelow⟩

end WellNamed

end FileTree

namespace Path

variable {p : Path} {names : List FileName} {name : FileName}

/-- The path of what is below, by its names. -/
def descend (p : Path) (names : List FileName) : Path :=
  names.foldl join p

/-- Below a directory a path goes on with the names. -/
theorem descend_segments (p : Path) (hne : names ≠ []) (hnames : ∀ name ∈ names, name ≠ .blank) :
    (p.descend names).segments = p.stem ++ names := by
  induction names generalizing p with
  | nil => exact absurd rfl hne
  | cons name names ih =>
    obtain ⟨hname, hrest⟩ := List.forall_mem_cons.mp hnames
    have hjoin := p.join_segments name
    by_cases hlast : names = []
    · rw [hlast]
      exact hjoin
    · have hstem : (p.join name).stem = p.stem ++ [name] := by
        rw [stem, hjoin, List.getLast?_concat, if_neg (by simpa using hname)]
      have hinner := ih (p.join name) hlast hrest
      rw [hstem, List.append_assoc, List.singleton_append] at hinner
      exact hinner

theorem trimmed_concat (segments : List FileName) (h : isVoid name = false) :
    trimmed (segments ++ [name]) = segments ++ [name] := by
  cases segments with
  | nil => rfl
  | cons first rest =>
    rw [List.cons_append, trimmed, List.reverse_append, List.reverse_singleton,
      List.singleton_append, List.dropWhile_cons_of_neg (by simp [h]), List.reverse_cons,
      List.reverse_reverse]

theorem fileName?_concat {segments : List FileName} (hp : p.segments = segments ++ [name])
    (hname : IsName name) : p.fileName? = some name := by
  rw [fileName?, hp, trimmed_concat segments hname.solid, List.getLast?_concat,
    Option.filter_some, hname.solid]
  simp [hname.down]

/-- The part after the last point of some bytes, when there is a point. -/
theorem afterPoint_iff {point : UInt8} {bytes ext : List UInt8} (hext : point ∉ ext) :
    (bytes.reverse.takeWhile (· != point)).reverse = ext ∧ ext.length < bytes.length ↔
      point :: ext <:+ bytes := by
  constructor
  · rintro ⟨rfl, hlt⟩
    have hall := List.takeWhile_append_dropWhile (p := (· != point)) (l := bytes.reverse)
    rcases hdrop : bytes.reverse.dropWhile (· != point) with _ | ⟨first, front⟩
    · have hlength := congrArg List.length hall
      rw [hdrop, List.append_nil, List.length_reverse] at hlength
      rw [List.length_reverse] at hlt
      omega
    · have hpoint : first = point := by
        have hhead := List.head?_dropWhile_not (· != point) bytes.reverse
        rw [hdrop] at hhead
        simpa using hhead
      rw [hdrop, hpoint] at hall
      exact ⟨front.reverse, by rw [← List.reverse_inj]; simpa using hall⟩
  · rintro ⟨front, rfl⟩
    have hall : ∀ b ∈ ext.reverse, (b != point) = true := by
      intro b hb
      have hmem := List.mem_reverse.mp hb
      simpa using fun heq : b = point => hext (heq ▸ hmem)
    refine ⟨?_, by simp; omega⟩
    rw [List.reverse_append, List.reverse_cons, List.append_assoc,
      List.takeWhile_append_of_pos hall]
    simp

/-- The extension of a file is what its name ends in after a point that does not start it. -/
theorem extension?_concat {segments : List FileName} (hp : p.segments = segments ++ [name])
    (hname : IsName name) {ext : FileName} (hext : '.'.toUInt8 ∉ ext.bytes) :
    p.extension? = some ext ↔
      '.'.toUInt8 :: ext.bytes <:+ name.bytes ∧ ext.bytes.length + 1 < name.bytes.length := by
  rw [extension?, fileName?_concat hp hname, Option.bind_eq_bind, Option.bind_some,
    ← afterPoint_iff hext]
  dsimp only
  constructor
  · intro h
    obtain ⟨hlt, hsome⟩ := Option.ite_none_right_eq_some.mp h
    have hsame := congrArg FileName.bytes (Option.some.inj hsome)
    dsimp only at hsame
    have hlength := congrArg List.length hsame
    rw [List.length_reverse] at hlength
    exact ⟨⟨hsame, by omega⟩, by omega⟩
  · rintro ⟨⟨hsame, -⟩, hlt⟩
    have hlength := congrArg List.length hsame
    rw [List.length_reverse] at hlength
    rw [hlength, if_pos hlt, hsame]

theorem descend_injOn {names' : List FileName} (hne : names ≠ []) (hne' : names' ≠ [])
    (hnames : ∀ name ∈ names, IsName name) (hnames' : ∀ name ∈ names', IsName name)
    (h : p.descend names = p.descend names') : names = names' := by
  have hsegments := congrArg segments h
  rw [p.descend_segments hne fun name hname => (hnames name hname).ne_blank,
    p.descend_segments hne' fun name hname => (hnames' name hname).ne_blank] at hsegments
  exact List.append_cancel_left hsegments

end Path

/-- The path of what is below a directory denotes it. -/
theorem FileSystem.denoted?_descend {α : Type} {fs : FileSystem α} {p : Path}
    {place names : List FileName} (hp : fs.place? p = some place) (hne : names ≠ [])
    (hnames : ∀ name ∈ names, Path.IsName name)
    (hsome : (fs.top.find? (place ++ names)).isSome = true) :
    fs.denoted? (p.descend names) = some (place ++ names) := by
  induction names generalizing p place with
  | nil => exact absurd rfl hne
  | cons name names ih =>
    obtain ⟨hname, hrest⟩ := List.forall_mem_cons.mp hnames
    rw [List.append_cons] at hsome ⊢
    have hfirst : (fs.top.find? (place ++ [name])).isSome = true := by
      rw [FileTree.find?_append] at hsome
      exact Option.isSome_of_isSome_bind hsome
    have hjoin := FileSystem.denoted?_join hp hname.solid hname.down
    rw [if_pos hfirst] at hjoin
    by_cases hlast : names = []
    · rw [hlast, List.append_nil]
      exact hjoin
    · exact ih (FileSystem.place?_of_denoted? hjoin) hlast hrest hsome

namespace Discovery

variable {α : Type} {c : Config} {root : Path} {t : FileTree α} {names : List FileName}
  {entries : List (FileName × FileTree α)}

/-- A file below a directory is wanted by its names: all of them are visible, the last one has the
extension of a source, and the whole path contains none of the excluded fragments, and one of the
included if there are any. -/
structure Wanted (c : Config) (root : Path) (names : List FileName) : Prop where
  visible : ∀ name ∈ names, name.IsVisible
  supported : ∃ ext ∈ extensions, ∃ name ∈ names.getLast?, name.HasExtension ext
  excluded : ∀ fragment ∈ c.excluded, ¬fragment.toList <:+: (root.descend names).text.toList
  included : c.included = [] ∨
    ∃ fragment ∈ c.included, fragment.toList <:+: (root.descend names).text.toList

instance : Decidable (Wanted c root names) :=
  decidable_of_iff
    ((∀ name ∈ names, name.IsVisible) ∧
      (∃ ext ∈ extensions, ∃ name ∈ names.getLast?, name.HasExtension ext) ∧
      (∀ fragment ∈ c.excluded, ¬fragment.toList <:+: (root.descend names).text.toList) ∧
      (c.included = [] ∨
        ∃ fragment ∈ c.included, fragment.toList <:+: (root.descend names).text.toList))
    ⟨fun h => ⟨h.1, h.2.1, h.2.2.1, h.2.2.2⟩,
      fun h => ⟨h.visible, h.supported, h.excluded, h.included⟩⟩

theorem isHidden_iff (name : FileName) : isHidden name = false ↔ name.IsVisible := by
  cases htext : name.text? with
  | none => simp [isHidden, htext, FileName.isVisible_of_text?_eq_none htext]
  | some text =>
    rw [isHidden, htext, FileName.text?_eq_some_iff.mp htext, FileName.isVisible_ofText]
    simp

theorem occursIn_iff (fragment cs : List Char) : occursIn fragment cs = true ↔ fragment <:+: cs := by
  induction cs with
  | nil => rw [occursIn, List.isEmpty_iff, List.infix_nil]
  | cons c cs ih =>
    rw [occursIn, Bool.or_eq_true, ih, List.isPrefixOf_iff_prefix, List.infix_cons_iff]

theorem isSelected_iff (c : Config) (p : Path) :
    isSelected c p = true ↔
      (∀ fragment ∈ c.excluded, ¬fragment.toList <:+: p.text.toList) ∧
        (c.included = [] ∨ ∃ fragment ∈ c.included, fragment.toList <:+: p.text.toList) := by
  simp [isSelected, ← occursIn_iff]

theorem isSupported_iff_extension? (p : Path) :
    isSupported p = true ↔ ∃ ext ∈ extensions, p.extension? = some (FileName.ofText ext) := by
  simp only [isSupported, Option.any_eq_true, Option.bind_eq_some_iff, FileName.text?_eq_some_iff,
    List.contains_iff_mem]
  constructor
  · rintro ⟨ext, ⟨_, hext, rfl⟩, hmem⟩
    exact ⟨ext, hmem, hext⟩
  · rintro ⟨ext, hmem, hext⟩
    exact ⟨ext, ⟨_, hext, rfl⟩, hmem⟩

theorem isSupported_iff (hne : names ≠ []) (hnames : ∀ name ∈ names, Path.IsName name) :
    isSupported (root.descend names) = true ↔
      ∃ ext ∈ extensions, ∃ name ∈ names.getLast?, name.HasExtension ext := by
  have hsegments : (root.descend names).segments =
      (root.stem ++ names.dropLast) ++ [names.getLast hne] := by
    rw [List.append_assoc, List.dropLast_concat_getLast hne]
    exact root.descend_segments hne fun name hname => (hnames name hname).ne_blank
  have hpoint : ∀ ext ∈ extensions, '.'.toUInt8 ∉ (FileName.ofText ext).bytes := by decide
  have hname := hnames _ (List.getLast_mem hne)
  rw [isSupported_iff_extension?]
  refine exists_congr fun ext => and_congr_right fun hmem => ?_
  rw [Path.extension?_concat hsegments hname (hpoint ext hmem), List.getLast?_eq_some_getLast hne,
    ← FileName.hasExtension_iff]
  simp

theorem walkEntries_eq (p : Path) (entries : List (FileName × FileTree α)) :
    walkEntries p entries =
      entries.flatMap fun e => if isHidden e.1 then [] else walk (p.join e.1) e.2 := by
  induction entries with
  | nil => rfl
  | cons e rest ih => rw [walkEntries, ih, List.flatMap_cons]

/-- A walk comes to the files whose names are all visible. -/
theorem walk_eq (h : t.WellNamed) (p : Path) :
    walk p t = (t.files.filter (·.all (!isHidden ·))).map p.descend := by
  induction h generalizing p with
  | file content => rfl
  | @directory entries distinct named inner ih =>
    rw [walk, walkEntries_eq, FileTree.files, FileTree.filesOf_eq, List.filter_flatMap,
      List.map_flatMap]
    refine List.flatMap_congr fun e he => ?_
    rw [List.filter_map, List.map_map]
    split
    next hhidden => simp [Function.comp_def, hhidden]
    next hhidden =>
      rw [ih e he (p.join e.1)]
      simp [Function.comp_def, hhidden, Path.descend]

/-- The wanted files of a tree that stands at a path, each by itself. -/
def selection (c : Config) (root : Path) (t : FileTree α) : List Path :=
  (t.files.filter fun names => decide (Wanted c root names)).map root.descend

theorem wanted_iff (hne : names ≠ []) (hnames : ∀ name ∈ names, Path.IsName name) :
    Wanted c root names ↔ names.all (!isHidden ·) = true ∧
      isSupported (root.descend names) = true ∧ isSelected c (root.descend names) = true := by
  rw [isSupported_iff hne hnames, isSelected_iff]
  simp only [List.all_eq_true, Bool.not_eq_true', isHidden_iff]
  exact ⟨fun h => ⟨h.visible, h.supported, h.excluded, h.included⟩,
    fun h => ⟨h.1, h.2.1, h.2.2.1, h.2.2.2⟩⟩

theorem ne_nil_of_mem_files (h : names ∈ (FileTree.directory entries).files) : names ≠ [] := by
  rw [FileTree.files, FileTree.mem_filesOf] at h
  obtain ⟨e, -, below, -, rfl⟩ := h
  exact List.cons_ne_nil _ _

/-- The walk that passes over hidden entries finds what the flat list has. -/
theorem walk_filter_eq (h : (FileTree.directory entries).WellNamed) (c : Config) (root : Path) :
    (walkEntries root entries).filter (fun p => isSupported p && isSelected c p) =
      selection c root (.directory entries) := by
  have hwalk : walkEntries root entries = walk root (.directory entries) := rfl
  rw [hwalk, walk_eq h, List.filter_map, List.filter_filter, selection]
  refine congrArg _ (List.filter_congr fun names hnames => ?_)
  rw [Bool.eq_iff_iff, decide_eq_true_iff,
    wanted_iff (ne_nil_of_mem_files hnames) (h.isName hnames)]
  simp [and_comm]

theorem nodup_selection (h : (FileTree.directory entries).WellNamed) (c : Config) (root : Path) :
    (selection c root (.directory entries)).Nodup := by
  refine List.Nodup.map_on ?_ (h.nodup_files.filter _)
  intro names hnames names' hnames' hsame
  have hmem := (List.mem_filter.mp hnames).1
  have hmem' := (List.mem_filter.mp hnames').1
  exact Path.descend_injOn (ne_nil_of_mem_files hmem) (ne_nil_of_mem_files hmem') (h.isName hmem)
    (h.isName hmem') hsame

theorem mem_selection_iff (h : t.WellNamed) {p : Path} :
    p ∈ selection c root t ↔ ∃ names content, t.find? names = some (.file content) ∧
      Wanted c root names ∧ root.descend names = p := by
  simp only [selection, List.mem_map, List.mem_filter, decide_eq_true_iff, h.mem_files_iff]
  constructor
  · rintro ⟨names, ⟨⟨content, hfind⟩, hwanted⟩, hp⟩
    exact ⟨names, content, hfind, hwanted, hp⟩
  · rintro ⟨names, content, hfind, hwanted, hp⟩
    exact ⟨names, ⟨⟨content, hfind⟩, hwanted⟩, hp⟩

theorem content?_descend {fs : FileSystem α} (h : fs.lookup? root = some (.directory entries))
    (hnamed : (FileTree.directory entries).WellNamed) {content : α}
    (hfind : (FileTree.directory entries).find? names = some (.file content)) :
    fs.content? (root.descend names) = some content := by
  obtain ⟨place, hplace, hentries⟩ := Option.bind_eq_some_iff.mp h
  have hmem := hnamed.mem_files_iff.mpr ⟨content, hfind⟩
  have htop : fs.top.find? (place ++ names) = some (.file content) := by
    rw [FileTree.find?_append, hentries, Option.bind_some, hfind]
  have hdenoted := FileSystem.denoted?_descend (FileSystem.place?_of_denoted? hplace)
    (ne_nil_of_mem_files hmem) (hnamed.isName hmem) (by rw [htop]; rfl)
  rw [FileSystem.content?, FileSystem.lookup?, hdenoted, Option.bind_some, htop]
  rfl

/-- Entries of a directory `src`: hidden ones, one to exclude, and sources among other files. The
directory that starts with a point and is no text is not hidden. -/
def clutteredEntries : List (FileName × FileTree Unit) :=
  [(".cache", .directory [("c.js", .file ())]), ("node_modules", .directory [("d.js", .file ())]),
    ("a.js", .file ()), ("dist", .directory [("b.js", .file ())]),
    ("lib", .directory [("e.mts", .file ()), ("e.md", .file ())]),
    (⟨[0x2E, 0xFF]⟩, .directory [("f.js", .file ())])]

def cluttered : FileSystem Unit := ⟨.directory [("src", .directory clutteredEntries)], []⟩

end Discovery

end ScopeAnalysis
