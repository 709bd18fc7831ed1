import Mathlib.Algebra.GroupWithZero.Nat
import Mathlib.Data.List.Forall2
import ScopeAnalysis.CommandLine
import ScopeAnalysis.Proofs.FileGrowth
import ScopeAnalysis.Proofs.JsonText
import ScopeAnalysis.Proofs.Positions

namespace ScopeAnalysis

namespace Json

theorem numericItems_iff {js : List Json} : NumericItems js ↔ ∀ j ∈ js, j.Numeric := by
  induction js with
  | nil => simp [NumericItems]
  | cons j js ih => simp [NumericItems, ih]

theorem numericFields_iff {fs : List (String × Json)} :
    NumericFields fs ↔ ∀ f ∈ fs, f.2.Numeric := by
  induction fs with
  | nil => simp [NumericFields]
  | cons f fs ih => simp [NumericFields, ih]

theorem map_numeric {α : Type} {f : α → Json} (h : ∀ a, (f a).Numeric) (xs : List α) :
    (Json.array (xs.map f)).Numeric := by
  rw [Numeric, numericItems_iff]
  intro j hj
  obtain ⟨a, _, rfl⟩ := List.mem_map.mp hj
  exact h a

theorem string_numeric (text : String) : (Json.string text).Numeric :=
  trivial

theorem strings_numeric (texts : List String) : (Json.strings texts).Numeric :=
  map_numeric string_numeric texts

theorem option_numeric {α : Type} {f : α → Json} (h : ∀ a, (f a).Numeric) (a : Option α) :
    (Json.option f a).Numeric := by
  cases a with
  | none => trivial
  | some a => exact h a

end Json

open Json

theorem Location.toJson_numeric (l : Location) : l.toJson.Numeric :=
  ⟨nat_numeric _, nat_numeric _, trivial⟩

theorem VariableReport.toJson_numeric (v : VariableReport) : v.toJson.Numeric :=
  ⟨trivial, strings_numeric _, nat_numeric _, trivial, trivial,
    option_numeric Location.toJson_numeric _, trivial⟩

theorem ReferenceReport.toJson_numeric (r : ReferenceReport) : r.toJson.Numeric := by
  have hflag : ∀ name value, NumericFields (flagField name value) := by
    intro name value
    cases value with
    | false => trivial
    | true => exact ⟨trivial, trivial⟩
  have hfields : NumericFields [("name", .string r.name), ("mode", .string r.mode.name),
      ("location", r.location.toJson), ("resolved_in", .option .nat r.resolvedIn)] :=
    ⟨trivial, trivial, r.location.toJson_numeric, option_numeric nat_numeric _, trivial⟩
  rw [numericFields_iff] at hfields
  simp only [numericFields_iff] at hflag
  rw [toJson, Numeric, numericFields_iff]
  intro f hf
  simp only [List.mem_append] at hf
  rcases hf with (hf | hf) | hf
  · exact hfields f hf
  · exact hflag _ _ f hf
  · exact hflag _ _ f hf

theorem ExportEntry.toJson_numeric (e : ExportEntry) : e.toJson.Numeric :=
  ⟨trivial, option_numeric string_numeric _, option_numeric string_numeric _, trivial⟩

theorem ScopeReport.toJson_numeric (s : ScopeReport) : s.toJson.Numeric := by
  have hfields : NumericFields [("index", .nat s.index), ("kind", .string s.kind.name),
      ("upper", .option .nat s.upper), ("strict", .bool s.strict), ("dynamic", .bool s.dynamic),
      ("location", s.location.toJson), ("variables", .array (s.vars.map VariableReport.toJson)),
      ("references", .array (s.references.map ReferenceReport.toJson)),
      ("through", .strings s.through)] :=
    ⟨nat_numeric _, trivial, option_numeric nat_numeric _, trivial, trivial,
      s.location.toJson_numeric, map_numeric VariableReport.toJson_numeric _,
      map_numeric ReferenceReport.toJson_numeric _, strings_numeric _, trivial⟩
  have hexports : NumericFields
      (if s.exports.isEmpty then [] else [("exports", .array (s.exports.map ExportEntry.toJson))])
      := by
    split
    · trivial
    · exact ⟨map_numeric ExportEntry.toJson_numeric _, trivial⟩
  rw [numericFields_iff] at hfields hexports
  rw [toJson, Numeric, numericFields_iff]
  intro f hf
  rcases List.mem_append.mp hf with hf | hf
  · exact hfields f hf
  · exact hexports f hf

theorem FileOutcome.toJson_numeric (o : FileOutcome) : o.toJson.Numeric := by
  unfold toJson
  split
  next r _ =>
    exact ⟨trivial, map_numeric ScopeReport.toJson_numeric _, strings_numeric _,
      strings_numeric _, trivial⟩
  next => exact ⟨trivial, trivial, trivial⟩

theorem documentJson_numeric (workingDirectory analyzedPath : String)
    (outcomes : List FileOutcome) :
    (documentJson workingDirectory analyzedPath outcomes).Numeric :=
  ⟨trivial, ⟨trivial, trivial, trivial, trivial⟩,
    ⟨nat_numeric _, nat_numeric _, nat_numeric _, nat_numeric _, nat_numeric _, trivial⟩,
    map_numeric FileOutcome.toJson_numeric _, trivial⟩

/-- An entry of a document tells of a file by its path and either the report on it or an error. -/
def Describes (p : Path) (entry : Json) : Except FileError Report → Prop
  | .ok report =>
    entry.textAt? "path" = some p.text ∧ entry.field? "error" = none ∧
      ∀ field ∈ report.fields, entry.field? field.1 = some field.2
  | .error e =>
    entry.textAt? "path" = some p.text ∧ entry.textAt? "error" = some e.message ∧
      ∀ name ∈ ["scopes", "implicit_globals", "unresolved"], entry.field? name = none

/-- The entries that tell of an error. -/
def failedEntries (entries : List Json) : Nat :=
  entries.countP fun entry => (entry.field? "error").isSome

/-- The number of items that the entries list under a name. -/
def itemsUnder (name : String) (entries : List Json) : Nat :=
  (entries.map fun entry => (entry.itemsAt name).length).sum

/-- The counts of a summary are those of the entries. -/
structure Summarizes (summary : Json) (entries : List Json) : Prop where
  total : summary.field? "total_files" = some (.nat entries.length)
  failed : summary.field? "failed_files" = some (.nat (failedEntries entries))
  scopes : summary.field? "total_scopes" = some (.nat (itemsUnder "scopes" entries))
  unresolved :
    summary.field? "unresolved_references" = some (.nat (itemsUnder "unresolved" entries))
  implicitGlobals :
    summary.field? "implicit_globals" = some (.nat (itemsUnder "implicit_globals" entries))

theorem describes_toJson (p : Path) (result : Except FileError Report) :
    Describes p (FileOutcome.toJson ⟨p.text, result.mapError FileError.message⟩) result := by
  cases result with
  | error e =>
    refine ⟨rfl, rfl, ?_⟩
    intro name hname
    simp only [List.mem_cons, List.not_mem_nil, or_false] at hname
    rcases hname with rfl | rfl | rfl <;> rfl
  | ok report =>
    refine ⟨rfl, rfl, ?_⟩
    intro field hfield
    simp only [Report.fields, List.mem_cons, List.not_mem_nil, or_false] at hfield
    rcases hfield with rfl | rfl | rfl <;> rfl

theorem failures_eq (outcomes : List FileOutcome) :
    failures outcomes = failedEntries (outcomes.map FileOutcome.toJson) := by
  rw [failures, failedEntries, List.countP_map]
  refine List.countP_congr ?_
  intro o _
  obtain ⟨path, error | report⟩ := o <;> exact Iff.rfl

/-- A measure that counts what entries list under a name sums up to their number. -/
theorem totalOf_eq (measure : Report → Nat) (name : String)
    (hok : ∀ path report,
      ((FileOutcome.toJson ⟨path, .ok report⟩).itemsAt name).length = measure report)
    (herror : ∀ path e, (FileOutcome.toJson ⟨path, .error e⟩).itemsAt name = [])
    (outcomes : List FileOutcome) :
    totalOf measure outcomes = itemsUnder name (outcomes.map FileOutcome.toJson) := by
  induction outcomes with
  | nil => rfl
  | cons o outcomes ih =>
    rw [totalOf, ih, itemsUnder, itemsUnder, List.map_cons, List.map_cons, List.sum_cons]
    obtain ⟨path, error | report⟩ := o
    · rw [herror]
      rfl
    · rw [hok]
      rfl

theorem summarizes_summaryJson (outcomes : List FileOutcome) :
    Summarizes (summaryJson outcomes) (outcomes.map FileOutcome.toJson) := by
  have hscopes := totalOf_eq (·.scopes.length) "scopes"
    (fun _ _ => List.length_map _) (fun _ _ => rfl) outcomes
  have hunresolved := totalOf_eq (·.unresolved.length) "unresolved"
    (fun _ _ => List.length_map _) (fun _ _ => rfl) outcomes
  have hglobals := totalOf_eq (·.implicitGlobals.length) "implicit_globals"
    (fun _ _ => List.length_map _) (fun _ _ => rfl) outcomes
  refine ⟨?_, ?_, ?_, ?_, ?_⟩
  · rw [List.length_map]
    rfl
  · rw [← failures_eq]
    rfl
  · rw [← hscopes]
    rfl
  · rw [← hunresolved]
    rfl
  · rw [← hglobals]
    rfl

theorem mapM_forall₂ {α β : Type} {f : α → Option β} {xs : List α} {ys : List β}
    (h : xs.mapM f = some ys) : List.Forall₂ (fun x y => f x = some y) xs ys := by
  induction xs generalizing ys with
  | nil =>
    cases Option.some.inj h
    exact .nil
  | cons x xs ih =>
    rw [List.mapM_cons] at h
    obtain ⟨y, hy, hrest⟩ := Option.bind_eq_some_iff.mp h
    obtain ⟨rest, hys, hcons⟩ := Option.bind_eq_some_iff.mp hrest
    cases Option.some.inj hcons
    exact .cons hy (ih hys)

theorem mapM_isSome {α β : Type} {f : α → Option β} {xs : List α} :
    (xs.mapM f).isSome ↔ ∀ x ∈ xs, (f x).isSome := by
  induction xs with
  | nil => simp
  | cons x xs ih =>
    rw [List.forall_mem_cons, ← ih, List.mapM_cons]
    cases f x with
    | none => simp
    | some y => cases xs.mapM f <;> simp

namespace AnalyzeRequest

variable {r : AnalyzeRequest} {fs : FileSystem SourceFile} {o : Options} {paths : List Path}

/-- What a request finds out about a file. There is no answer where a position has no place. -/
def result? (r : AnalyzeRequest) (fs : FileSystem SourceFile) (o : Options) (p : Path) :
    Option (Except FileError Report) :=
  ((fs.content? p).getD { text := none }).report? p.text (o.forFile p.text r.sourceType.isSome)

theorem outcome?_eq (p : Path) :
    r.outcome? fs o p =
      (r.result? fs o p).map fun result => ⟨p.text, result.mapError FileError.message⟩ := by
  rw [result?, outcome?]
  cases SourceFile.report? _ _ _ <;> rfl

/-- One document was printed on the files at the paths, and the exit code is that of its
entries. -/
def Documented (r : AnalyzeRequest) (fs : FileSystem SourceFile) (o : Options)
    (paths : List Path) (c : Completion) : Prop :=
  ∃ document summary entries,
    Json.IsText c.stdout document ∧
    document.field? "summary" = some summary ∧
    document.field? "files" = some (.array entries) ∧
    List.Forall₂ (fun p entry => ∃ result, r.result? fs o p = some result ∧
      Describes p entry result) paths entries ∧
    Summarizes summary entries ∧
    c.exit = if 0 < failedEntries entries then 1 else 0

/-- A request with a valid source type has its options. -/
theorem options_ok (h : ∀ name ∈ r.sourceType, (SourceType.ofName? name).isSome)
    (base : Options) : ∃ o, r.options base = .ok o := by
  unfold options
  cases htype : r.sourceType with
  | none => exact ⟨_, rfl⟩
  | some name =>
    obtain ⟨sourceType, hname⟩ := Option.isSome_iff_exists.mp (h name htype)
    dsimp only
    rw [hname]
    exact ⟨_, rfl⟩

theorem run_of_complete (terminal : Bool) {c : Completion} (hformat : r.format = "json")
    (ho : r.options (Config.loadFor fs r.path).config.analysis = .ok o)
    (hc : r.complete (terminal && !r.noColor) fs (Config.loadFor fs r.path).config .json o =
      .ok c) :
    (r.run terminal fs).stdout = c.stdout ∧ (r.run terminal fs).exit = c.exit := by
  have hbind : (r.options (Config.loadFor fs r.path).config.analysis).bind
      (r.complete (terminal && !r.noColor) fs (Config.loadFor fs r.path).config .json) = .ok c := by
    rw [ho]
    exact hc
  have hjson : OutputFormat.ofName? r.format = some .json := by
    rw [hformat]
    rfl
  unfold run
  rw [hjson]
  dsimp only
  rw [hbind]
  exact ⟨rfl, rfl⟩

theorem any_isFailure (outcomes : List FileOutcome) :
    (if outcomes.any FileOutcome.isFailure then 1 else 0) =
      if 0 < failedEntries (outcomes.map FileOutcome.toJson) then 1 else 0 := by
  rw [← failures_eq, failures]
  simp only [List.countP_pos_iff, List.any_eq_true]

theorem documented_of_outcomes (color : Bool) {outcomes : List FileOutcome} {c : Completion}
    (h : paths.mapM (r.outcome? fs o) = some outcomes)
    (hstdout : c.stdout = r.render color fs.workingPath .json outcomes)
    (hexit : c.exit = if outcomes.any FileOutcome.isFailure then 1 else 0) :
    r.Documented fs o paths c := by
  refine ⟨documentJson fs.workingPath.text r.path.text outcomes, _,
    outcomes.map FileOutcome.toJson, ?_, rfl, rfl, ?_, summarizes_summaryJson outcomes, ?_⟩
  · rw [hstdout]
    exact Json.pretty_isText (documentJson_numeric _ _ _)
  · rw [List.forall₂_map_right_iff]
    refine (mapM_forall₂ h).imp ?_
    intro p outcome houtcome
    rw [outcome?_eq] at houtcome
    obtain ⟨result, hresult, rfl⟩ := Option.map_eq_some_iff.mp houtcome
    exact ⟨result, hresult, describes_toJson p result⟩
  · rw [hexit, any_isFailure]

theorem not_documented {c : Completion} (h : Json.parse? c.stdout = none) :
    ¬r.Documented fs o paths c := by
  rintro ⟨document, _, _, htext, _⟩
  rw [htext.parse] at h
  cases h

/-- A run prints its document if it finds files and has an answer for each of them, and no other run
prints one. -/
theorem run_documented_iff (terminal : Bool) (hformat : r.format = "json")
    (ho : r.options (Config.loadFor fs r.path).config.analysis = .ok o)
    (hpaths : Discovery.files? fs (Config.loadFor fs r.path).config r.path = some paths) :
    r.Documented fs o paths (r.run terminal fs) ↔
      paths ≠ [] ∧ ∀ p ∈ paths, (r.result? fs o p).isSome := by
  have hanswers : (∀ p ∈ paths, (r.result? fs o p).isSome) ↔
      (paths.mapM (r.outcome? fs o)).isSome := by
    simp only [mapM_isSome, outcome?_eq, Option.isSome_map]
  have hrun := fun c => run_of_complete terminal (c := c) hformat ho
  rw [hanswers]
  cases paths with
  | nil =>
    obtain ⟨hstdout, _⟩ := hrun { exit := 0, stdout := "No JavaScript/TypeScript files found.\n" }
      (by rw [complete, hpaths])
    refine ⟨fun h => absurd h (not_documented ?_), fun h => absurd rfl h.1⟩
    rw [hstdout]
    decide +kernel
  | cons p paths =>
    cases houtcomes : (p :: paths).mapM (r.outcome? fs o) with
    | none =>
      obtain ⟨hstdout, _⟩ := hrun { exit := 101 } (by simp only [complete, hpaths, houtcomes])
      refine ⟨fun h => absurd h (not_documented ?_), fun h => absurd h.2 (by simp)⟩
      rw [hstdout]
      decide +kernel
    | some outcomes =>
      obtain ⟨hstdout, hexit⟩ := hrun
        { exit := if outcomes.any FileOutcome.isFailure then 1 else 0
          stdout := r.render (terminal && !r.noColor) fs.workingPath .json outcomes }
        (by simp only [complete, hpaths, houtcomes])
      exact ⟨fun _ => ⟨List.cons_ne_nil _ _, rfl⟩,
        fun _ => documented_of_outcomes (terminal && !r.noColor) houtcomes hstdout hexit⟩

end AnalyzeRequest

/-- The parser's positions denote places in the text, and no mark stands in front of it. -/
def SourceFile.Placed (f : SourceFile) : Prop :=
  ∀ text ∈ f.text, SourceText.Unmarked ⟨text⟩ ∧ ∀ sourceType,
    ∀ program ∈ (f.parseAs sourceType).program, program.Spanned (SourceText.counted ⟨text⟩).Denotes

theorem Parse.faultless_ok {α : Type} {p : Parse α} {program : α}
    (h : p.faultless = .ok program) : program ∈ p.program := by
  unfold faultless at h
  split at h
  next => cases h
  next => cases h
  next hprogram _ =>
    cases h
    exact hprogram

theorem SourceFile.Placed.report? {f : SourceFile} (h : f.Placed) (path : String) (o : Options) :
    (f.report? path o).isSome := by
  unfold SourceFile.report?
  split
  next => rfl
  next text htext =>
    obtain ⟨hunmarked, hspanned⟩ := h text htext
    split
    next => rfl
    next program hprogram =>
      have hreport := hunmarked.report o (hspanned _ program (Parse.faultless_ok hprogram))
      split
      next e he =>
        rw [he] at hreport
        simpa using hreport
      next t ht =>
        rw [ht] at hreport
        simpa using hreport

/-- A file whose positions have their places has its answer, and so has one that is no text. -/
theorem AnalyzeRequest.result?_of_placed {r : AnalyzeRequest} {fs : FileSystem SourceFile}
    {o : Options} {p : Path} (h : ∀ f ∈ fs.content? p, f.Placed) : (r.result? fs o p).isSome := by
  refine SourceFile.Placed.report? ?_ _ _
  cases hcontent : fs.content? p with
  | none => exact fun _ htext => nomatch htext
  | some f => exact h f hcontent

namespace CommandLine

variable {fs fs' : FileSystem SourceFile} {log : Option LogTarget}

/-- The file system in which a command begins, with the log file that is asked for. -/
def LogTarget.prepare? (fs : FileSystem SourceFile) :
    Option LogTarget → Option (FileSystem SourceFile)
  | none => some fs
  | some log => fs.createFile log.directory log.name SourceFile.empty

theorem prepare?_grows (h : LogTarget.prepare? fs log = some fs') : fs.Grows fs' := by
  cases log with
  | none =>
    cases Option.some.inj h
    exact .refl fs
  | some log => exact FileSystem.createFile_grows h

theorem run_analyze {args : List String} {r : AnalyzeRequest}
    (h : parse args = .analyze r log) (terminal : Bool) :
    run terminal fs args =
      match LogTarget.prepare? fs log with
      | none => (fs, { exit := 101 })
      | some fs' => (fs', r.run terminal fs') := by
  unfold run
  rw [h]
  cases log <;> rfl

/-- The files of a request are found where its path denotes something. -/
theorem files?_of_exists {p : Path} (h : fs.exists? p = true) (c : Config) :
    ∃ paths, Discovery.files? fs c p = some paths := by
  obtain ⟨t, ht⟩ := Option.isSome_iff_exists.mp h
  exact ⟨_, by rw [Discovery.files?, ht]; rfl⟩

/-- What a command line asks for as JSON, on a path that exists and with a valid source type, is
printed as one document on the files that are discovered, in their order, with the sums over its
entries and the exit code that they call for, if and only if the log file could be made, there are
such files and each of them has its answer. Files without a mark have one, if the parser's positions
denote places in them. -/
theorem json_documented_iff {terminal : Bool} {fs fs' : FileSystem SourceFile}
    {args : List String} {r : AnalyzeRequest} {log : Option LogTarget} {c : Completion}
    (hargs : parse args = .analyze r log) (hformat : r.format = "json")
    (htype : ∀ name ∈ r.sourceType, (SourceType.ofName? name).isSome)
    (hpath : fs.exists? r.path = true) (hrun : run terminal fs args = (fs', c)) :
    ∃ o paths,
      r.options (Config.loadFor fs' r.path).config.analysis = .ok o ∧
      Discovery.files? fs' (Config.loadFor fs' r.path).config r.path = some paths ∧
      (r.Documented fs' o paths c ↔
        (LogTarget.prepare? fs log).isSome ∧ paths ≠ [] ∧
          ∀ p ∈ paths, (r.result? fs' o p).isSome) ∧
      ∀ p ∈ paths, (∀ f ∈ fs'.content? p, f.Placed) → (r.result? fs' o p).isSome := by
  rw [run_analyze hargs] at hrun
  have hexists : fs'.exists? r.path = true := by
    cases hprepare : LogTarget.prepare? fs log with
    | none =>
      simp only [hprepare, Prod.mk.injEq] at hrun
      rw [← hrun.1]
      exact hpath
    | some prepared =>
      simp only [hprepare, Prod.mk.injEq] at hrun
      rw [← hrun.1]
      exact (prepare?_grows hprepare).exists? hpath
  obtain ⟨o, ho⟩ := AnalyzeRequest.options_ok htype (Config.loadFor fs' r.path).config.analysis
  obtain ⟨paths, hpaths⟩ := files?_of_exists hexists (Config.loadFor fs' r.path).config
  refine ⟨o, paths, ho, hpaths, ?_, fun p _ => AnalyzeRequest.result?_of_placed⟩
  cases hprepare : LogTarget.prepare? fs log with
  | none =>
    simp only [hprepare, Prod.mk.injEq] at hrun
    refine ⟨fun h => absurd h (AnalyzeRequest.not_documented ?_), fun h => absurd h.1 (by simp)⟩
    rw [← hrun.2]
    decide +kernel
  | some prepared =>
    simp only [hprepare, Prod.mk.injEq] at hrun
    obtain ⟨rfl, rfl⟩ := hrun
    rw [AnalyzeRequest.run_documented_iff terminal hformat ho hpaths]
    simp

/-- Two sources, of which one can be read, and a directory without any. -/
def mixedFiles : FileSystem SourceFile where
  top := .directory
    [("a.js", .file
      { text := some "f(x)"
        script := ⟨some (.script ⟨1, 5⟩ [.expr (.call ⟨1, 5⟩ (some (.ident ⟨"f", ⟨1, 2⟩⟩))
          [.ident ⟨"x", ⟨3, 4⟩⟩])]), []⟩ }),
    ("b.js", .file { text := none }), ("notes", .directory [("c.txt", .file .empty)])]
  workingDirectory := []

/-- Both sources have their entries, and the run fails for the second; in the directory there is
nothing to tell of. -/
theorem mixedFiles_documented :
    (∃ r c, parse ["analyze", ".", "--format", "json"] = .analyze r none ∧
      run false mixedFiles ["analyze", ".", "--format", "json"] = (mixedFiles, c) ∧
      r.Documented mixedFiles {} [.ofText "./a.js", .ofText "./b.js"] c ∧ c.exit = 1) ∧
    ∃ r c, parse ["analyze", "notes", "--format", "json"] = .analyze r none ∧
      run false mixedFiles ["analyze", "notes", "--format", "json"] = (mixedFiles, c) ∧
      ¬r.Documented mixedFiles {} [] c ∧ c.exit = 0 := by
  constructor
  · have hargs : parse ["analyze", ".", "--format", "json"] =
        .analyze { path := .ofText ".", format := "json" } none := by decide +kernel
    have hrun : run false mixedFiles _ = _ := run_analyze hargs false
    obtain ⟨o, paths, ho, hpaths, hiff, _⟩ :=
      json_documented_iff hargs rfl (fun _ h => nomatch h) (by decide +kernel) hrun
    have hfound : paths = [.ofText "./a.js", .ofText "./b.js"] :=
      Option.some.inj (hpaths.symm.trans (by decide +kernel))
    cases ho
    subst hfound
    refine ⟨_, _, hargs, hrun, hiff.mpr ?_, by decide +kernel⟩
    decide +kernel
  · have hargs : parse ["analyze", "notes", "--format", "json"] =
        .analyze { path := .ofText "notes", format := "json" } none := by decide +kernel
    have hrun : run false mixedFiles _ = _ := run_analyze hargs false
    obtain ⟨o, paths, ho, hpaths, hiff, _⟩ :=
      json_documented_iff hargs rfl (fun _ h => nomatch h) (by decide +kernel) hrun
    have hfound : paths = [] := Option.some.inj (hpaths.symm.trans (by decide +kernel))
    cases ho
    subst hfound
    exact ⟨_, _, hargs, hrun, fun h => (hiff.mp h).2.1 rfl, by decide +kernel⟩

end CommandLine

end ScopeAnalysis
