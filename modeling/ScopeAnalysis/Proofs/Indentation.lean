import ScopeAnalysis.Proofs.Accounts
import ScopeAnalysis.Proofs.Preorder
import ScopeAnalysis.Report.Outcome

namespace ScopeAnalysis

open ScopeTree

/-- How many spaces a line starts with. -/
def indentation (line : String) : Nat :=
  (line.toList.takeWhile (· = ' ')).length

/-- The lines of a text. What follows the last line break counts as a line, even if it is empty. -/
def textLines (text : String) : List String :=
  (text.toList.splitOn '\n').map String.ofList

/-- A line looks like the header of a scope: it is indented, starts with the name of a kind and ends
like a place. -/
def readsAsHeader (line : String) : Bool :=
  let word := (line.toList.dropWhile (· = ' ')).takeWhile (· ≠ ' ')
  2 ≤ indentation line && (ScopeKind.ofName? (String.ofList word)).isSome &&
    line.toList.getLast? == some ')'

def headersOf (text : String) : List String :=
  (textLines text).filter readsAsHeader

/-- The last number below a bound that has a property. -/
def lastBelow (p : Nat → Bool) : Nat → Option Nat
  | 0 => none
  | n + 1 => if p n then some n else lastBelow p n

/-- The tree that indented lines draw: a line belongs under the last line before it that is indented
by two spaces less. -/
def uppersOf (indents : List Nat) : List (Option Nat) :=
  indents.mapIdx fun i n => lastBelow (fun j => indents[j]?.any (· + 2 == n)) i

theorem textLines_line {line : String} (h : '\n' ∉ line.toList) (rest : String) :
    textLines (line ++ "\n" ++ rest) = line :: textLines rest := by
  have hline : ∀ c ∈ line.toList, (c == '\n') = false := by
    intro c hc
    rw [beq_eq_false_iff_ne]
    exact fun he => h (he ▸ hc)
  have hsplit := List.splitOnP_append_cons_of_forall_mem hline '\n' rfl rest.toList
  rw [textLines, String.toList_append, String.toList_append, List.append_assoc]
  exact (congrArg (List.map String.ofList) hsplit).trans (by simp [textLines, List.splitOn])

theorem headersOf_line {l : String} (h : '\n' ∉ l.toList) (hread : readsAsHeader l = false)
    (rest : String) : headersOf (l ++ "\n" ++ rest) = headersOf rest := by
  rw [headersOf, textLines_line h, List.filter_cons_of_neg (by simp [hread]), headersOf]

theorem headersOf_blank (rest : String) : headersOf ("\n" ++ rest) = headersOf rest :=
  headersOf_line (l := "") (by simp) rfl rest

theorem headersOf_join {lines : List String} (h : ∀ line ∈ lines, '\n' ∉ line.toList)
    (rest : String) : headersOf (String.join (lines.map (· ++ "\n")) ++ rest) =
      lines.filter readsAsHeader ++ headersOf rest := by
  induction lines with
  | nil => simp
  | cons line lines ih =>
    obtain ⟨hline, hlines⟩ := List.forall_mem_cons.mp h
    rw [List.map_cons, String.join_cons, String.append_assoc, headersOf, textLines_line hline,
      ← List.singleton_append, List.filter_append, ← headersOf, ih hlines, ← List.append_assoc,
      ← List.filter_append, List.singleton_append]

theorem lastBelow_eq_some {p : Nat → Bool} {n u : Nat} (hu : u < n) (hp : p u)
    (hlast : ∀ k, u < k → k < n → p k = false) : lastBelow p n = some u := by
  induction n with
  | zero => omega
  | succ n ih =>
    rw [lastBelow]
    by_cases hun : u = n
    · rw [if_pos (hun ▸ hp), hun]
    · rw [if_neg (by simp [hlast n (by omega) (by omega)])]
      exact ih (by omega) fun k hk hkn => hlast k hk (by omega)

theorem lastBelow_eq_none {p : Nat → Bool} {n : Nat} (h : ∀ k < n, p k = false) :
    lastBelow p n = none := by
  induction n with
  | zero => rfl
  | succ n ih =>
    rw [lastBelow, if_neg (by simp [h n])]
    exact ih fun k hk => h k (by omega)

namespace ScopeTree

variable {t : ScopeTree} {i u k : Nat}

/-- How many scopes are around a scope. -/
def depthOf (t : ScopeTree) (i : ScopeId) : Nat :=
  (t.chain i).tail.length

theorem depthOf_root {s : Scope} (hs : t.scopes[i]? = some s) (hu : s.upper = none) :
    t.depthOf i = 0 := by
  rw [depthOf, chain_root hs hu]
  rfl

theorem chain_length {s : Scope} (hs : t.scopes[i]? = some s) :
    (t.chain i).length = t.depthOf i + 1 := by
  obtain ⟨above, he⟩ := chain_head hs
  simp [depthOf, he]

theorem depthOf_inner (h : t.Ranked) {s : Scope} (hs : t.scopes[i]? = some s)
    (hu : s.upper = some u) : t.depthOf i = t.depthOf u + 1 := by
  have hlt := h i s u hs hu
  obtain ⟨c, hc⟩ := exists_scope (t := t) (i := u) (by have := getElem?_lt hs; omega)
  rw [depthOf, chain_inner h hs hu, List.tail_cons, chain_length hc]

/-- A scope is deeper than the scopes around it. -/
theorem depthOf_lt (h : t.Ranked) (hu : u ∈ t.chain k) (hne : u ≠ k) :
    t.depthOf u < t.depthOf k := by
  obtain ⟨s, hs⟩ := exists_scope (mem_chain_lt h hu).2
  obtain ⟨c, hc⟩ : ∃ c, t.scopes[k]? = some c := by
    cases hc : t.scopes[k]? with
    | none => simp [chain_missing hc] at hu
    | some c => exact ⟨c, rfl⟩
  have hsuffix := chain_suffix h hu
  have hlength : (t.chain u).length ≠ (t.chain k).length := by
    intro he
    obtain ⟨above, ha⟩ := chain_head hs
    obtain ⟨above', ha'⟩ := chain_head hc
    have hsame := hsuffix.eq_of_length he
    rw [ha, ha'] at hsame
    exact hne (List.cons.inj hsame).1
  have hle := hsuffix.length_le
  rw [chain_length hs, chain_length hc] at hle hlength
  omega

/-- In preorder, the scope around a scope is the last one before it that is one step less deep. -/
theorem Preordered.upper_last (h : Preordered t) (hu : t.upperOf i = some u) :
    u < i ∧ t.depthOf u + 1 = t.depthOf i ∧ ∀ k, u < k → k < i → t.depthOf k + 1 ≠ t.depthOf i := by
  have hr := h.stacked.ranked
  obtain ⟨s, hs, hup⟩ := Option.bind_eq_some_iff.mp hu
  have hlt := h.upper_lt hu
  have hdepth := depthOf_inner hr hs hup
  have husize : u < t.scopes.size := by have := getElem?_lt hs; omega
  refine ⟨hlt, hdepth.symm, ?_⟩
  intro k huk hki
  -- what lies between the two is inside of the outer one, and hence deeper
  obtain ⟨last, hspan⟩ := h.spans u husize
  have hi : u ∈ t.chain i := by simp [chain_inner hr hs hup, mem_chain_self husize]
  have hk : u ∈ t.chain k := by
    have := ((hspan.mem_iff i).mp hi).2
    exact (hspan.mem_iff k).mpr ⟨by omega, by omega⟩
  have := depthOf_lt hr hk (by omega)
  omega

end ScopeTree

namespace ListingLine

def isHeader : ListingLine → Bool
  | header .. => true
  | _ => false

/-- The text of a header starts with the name of a kind. -/
theorem headerText_head (s : ScopeReport) :
    ∃ c rest, (headerText false s).toList = c :: rest ∧ c ≠ ' ' := by
  have hkind : ∃ c rest, s.kind.name.toList = c :: rest ∧ c ≠ ' ' := by
    cases s.kind <;> exact ⟨_, _, rfl, by decide⟩
  obtain ⟨c, rest, hname, hc⟩ := hkind
  simp only [headerText, Style.paint, Bool.false_eq_true, if_false, String.toList_append, hname,
    List.cons_append]
  exact ⟨c, _, rfl, hc⟩

theorem indentation_header (depth : Nat) (s : ScopeReport) :
    indentation ((header depth s).render false) = 2 * (depth + 1) := by
  obtain ⟨c, rest, htext, hc⟩ := headerText_head s
  rw [indentation, render, indent, String.toList_append, String.toList_ofList, htext,
    List.takeWhile_append_of_pos (by simp [List.mem_replicate])]
  simp [hc]

theorem newline_notMem_digits (n : Nat) : '\n' ∉ Nat.toDigits 10 n := by
  intro hmem
  have hdigit := Nat.isDigit_of_mem_toDigits (by omega) (by omega) hmem
  exact absurd hdigit (by decide)

/-- A header is one line. -/
theorem newline_notMem_header (depth : Nat) (s : ScopeReport) :
    '\n' ∉ ((header depth s).render false).toList := by
  have hkind : '\n' ∉ s.kind.name.toList := by cases s.kind <;> decide
  cases hstrict : s.strict <;> cases hdynamic : s.dynamic <;>
    simp [render, indent, headerText, Style.paint, hstrict, hdynamic, hkind, newline_notMem_digits]

/-- The texts of a line that come from the program. -/
def texts : ListingLine → List String
  | header .. => []
  | binding _ v => [v.name]
  | through _ names | implicitGlobals names => names

theorem newline_notMem_intercalate {l : List String} (h : ∀ text ∈ l, '\n' ∉ text.toList) :
    '\n' ∉ (", ".intercalate l).toList := by
  induction l with
  | nil => simp
  | cons text rest ih =>
    obtain ⟨htext, hrest⟩ := List.forall_mem_cons.mp h
    by_cases hnil : rest = []
    · simpa [hnil] using htext
    · rw [String.intercalate_cons_of_ne_nil hnil]
      simpa [htext] using ih hrest

theorem newline_notMem_render {line : ListingLine} (h : ∀ text ∈ line.texts, '\n' ∉ text.toList) :
    '\n' ∉ (line.render false).toList := by
  cases line with
  | header depth s => exact newline_notMem_header depth s
  | binding depth v =>
    have hname : '\n' ∉ v.name.toList := h v.name (by simp [texts])
    have hlabels : '\n' ∉ (", ".intercalate (v.definitions.map DefinitionKind.label)).toList := by
      refine newline_notMem_intercalate fun text htext => ?_
      obtain ⟨kind, _, rfl⟩ := List.mem_map.mp htext
      cases kind <;> decide
    cases htainted : v.tainted <;>
      simpa [render, indent, variableText, Style.paint, htainted, hname, newline_notMem_digits]
        using hlabels
  | through depth names =>
    have hnames : ∀ text ∈ names, '\n' ∉ text.toList := h
    simpa [render, indent, Style.paint] using newline_notMem_intercalate hnames
  | implicitGlobals names =>
    have hnames : ∀ text ∈ names, '\n' ∉ text.toList := h
    simpa [render, Style.paint] using newline_notMem_intercalate hnames

/-- A line reads as a header by its first word and its last character. -/
theorem readsAsHeader_word {n : Nat} {line w rest : String} (hn : 2 ≤ n)
    (hline : line = String.ofList (List.replicate n ' ') ++ w ++ " " ++ rest)
    (hspace : ' ' ∉ w.toList) (hne : w.toList ≠ []) :
    readsAsHeader line = ((ScopeKind.ofName? w).isSome && line.toList.getLast? == some ')') := by
  have hword : ∀ c ∈ w.toList, c ≠ ' ' := fun c hc heq => hspace (heq ▸ hc)
  have hspaces : ∀ x ∈ List.replicate n ' ', decide (x = ' ') = true := by
    simp [List.mem_replicate]
  have htext : line.toList = List.replicate n ' ' ++ (w.toList ++ ' ' :: rest.toList) := by
    simp [hline]
  have hstart : (w.toList ++ ' ' :: rest.toList).dropWhile (· = ' ') =
      w.toList ++ ' ' :: rest.toList := by
    obtain ⟨c, cs, hw⟩ := List.exists_cons_of_ne_nil hne
    simp [hw, hword c (by simp [hw])]
  have hbound : 2 ≤ indentation line := by
    rw [indentation, htext, List.takeWhile_append_of_pos hspaces]
    simp only [List.length_append, List.length_replicate]
    omega
  have hfirst : (line.toList.dropWhile (· = ' ')).takeWhile (· ≠ ' ') = w.toList := by
    rw [htext, List.dropWhile_append_of_pos hspaces, hstart,
      List.takeWhile_append_of_pos (by simpa using hword)]
    simp
  rw [readsAsHeader, hfirst]
  simp only [hbound, decide_true, Bool.true_and, String.ofList_toList]

theorem last_append {c : Char} {t : String} (h : t.toList.getLast? = some c) (s : String) :
    (s ++ t).toList.getLast? = some c := by
  simp [List.getLast?_append, h]

theorem readsAsHeader_of_last {line : String} {c : Char} (h : line.toList.getLast? = some c)
    (hc : c ≠ ')') : readsAsHeader line = false := by
  simp [readsAsHeader, h, hc]

theorem digits_last (n : Nat) : ∃ c, (toString n).toList.getLast? = some c ∧ c ≠ ')' := by
  have hne : (toString n).toList ≠ [] := by simp
  refine ⟨_, List.getLast?_eq_some_getLast hne, fun he => ?_⟩
  have hmem : ')' ∈ (toString n).toList := he ▸ List.getLast_mem hne
  have hdigits : ')' ∈ Nat.toDigits 10 n := by simpa using hmem
  have hdigit := Nat.isDigit_of_mem_toDigits (by omega) (by omega) hdigits
  exact absurd hdigit (by decide)

theorem headerText_word (s : ScopeReport) : ∃ rest, headerText false s = s.kind.name ++ " " ++ rest := by
  cases hstrict : s.strict <;> cases hdynamic : s.dynamic <;>
    simp only [headerText, hstrict, hdynamic, if_true, Bool.false_eq_true, if_false,
      String.append_empty, String.append_assoc] <;>
    exact ⟨_, rfl⟩

/-- The headers are the lines that read as headers. -/
theorem readsAsHeader_render (line : ListingLine) :
    readsAsHeader (line.render false) = line.isHeader := by
  cases line with
  | header depth s =>
    have hkind : ' ' ∉ s.kind.name.toList ∧ s.kind.name.toList ≠ [] ∧
        (ScopeKind.ofName? s.kind.name).isSome := by
      cases s.kind <;> decide
    obtain ⟨rest, hrest⟩ := headerText_word s
    have hline : (header depth s).render false =
        String.ofList (List.replicate (2 * (depth + 1)) ' ') ++ s.kind.name ++ " " ++ rest := by
      rw [render, hrest, indent, String.append_assoc, String.append_assoc, String.append_assoc]
    have hlast : ((header depth s).render false).toList.getLast? = some ')' :=
      last_append (last_append (last_append rfl _) _) _
    rw [readsAsHeader_word (by omega) hline hkind.1 hkind.2.1, hkind.2.2, hlast]
    rfl
  | binding depth v =>
    cases htainted : v.tainted with
    | true =>
      refine readsAsHeader_of_last (c := 'd') ?_ (by decide)
      rw [render, variableText, htainted]
      exact last_append (last_append rfl _) _
    | false =>
      obtain ⟨c, hlast, hc⟩ := digits_last v.references
      refine readsAsHeader_of_last (c := c) ?_ hc
      rw [render, variableText, htainted, if_neg (by simp), String.append_empty]
      exact last_append (last_append hlast _) _
  | through depth names =>
    have hline : (through depth names).render false = String.ofList
      (List.replicate (2 * (depth + 1 + 1)) ' ') ++ "through:" ++ " " ++ ", ".intercalate names := rfl
    rw [readsAsHeader_word (by omega) hline (by decide) (by decide)]
    rfl
  | implicitGlobals names =>
    have hline : (implicitGlobals names).render false = String.ofList (List.replicate 2 ' ') ++
        "implicit" ++ " " ++ ("globals:" ++ " " ++ ", ".intercalate names) := by
      simp only [render, Style.paint, Bool.false_eq_true, if_false, ← String.append_assoc]
      rfl
    rw [readsAsHeader_word (by omega) hline (by decide) (by decide)]
    rfl

end ListingLine

namespace Report

variable (r : Report)

/-- The header lines of a listing without colours. -/
def headerLines : List String :=
  (r.lines.filter ListingLine.isHeader).map (ListingLine.render false)

theorem depthsFrom_length (before : List Nat) (scopes : List ScopeReport) :
    (depthsFrom before scopes).length = scopes.length := by
  induction scopes generalizing before with
  | nil => rfl
  | cons s rest ih => rw [depthsFrom, List.length_cons, ih, List.length_cons]

theorem filter_scopeLines (depth : Nat) (s : ScopeReport) :
    (scopeLines depth s).filter ListingLine.isHeader = [.header depth s] := by
  have hvars : (s.vars.map (ListingLine.binding depth)).filter ListingLine.isHeader = [] := by
    simp [List.filter_eq_nil_iff, ListingLine.isHeader]
  rw [scopeLines, List.filter_append, List.filter_cons_of_pos rfl, hvars]
  split <;> rfl

theorem filter_lines :
    r.lines.filter ListingLine.isHeader =
      (r.depths.zip r.scopes).map fun (depth, s) => .header depth s := by
  have hrest : (if r.implicitGlobals.isEmpty then []
      else [ListingLine.implicitGlobals r.implicitGlobals]).filter ListingLine.isHeader = [] := by
    split <;> rfl
  rw [lines, List.filter_append, hrest, List.append_nil, List.filter_flatMap]
  simp only [filter_scopeLines, List.map_eq_flatMap]

/-- A header is printed for each scope. -/
theorem headerLines_length : r.headerLines.length = r.scopes.length := by
  rw [headerLines, filter_lines, List.length_map, List.length_map, List.length_zip, depths,
    depthsFrom_length, Nat.min_self]

variable {t : ScopeTree} (locate : Span → Location)

/-- The depths that a listing computes along the way are those of the tree. -/
theorem depthsFrom_ofTree (h : t.Ranked) {n : Nat} (hn : n ≤ t.scopes.size) :
    depthsFrom ((List.range n).map t.depthOf) ((ofTree t locate).scopes.drop n) =
      ((List.range t.scopes.size).map t.depthOf).drop n := by
  induction hk : t.scopes.size - n generalizing n with
  | zero =>
    have hnsize : n = t.scopes.size := by omega
    rw [List.drop_eq_nil_of_le (by simp [ofTree, hnsize]),
      List.drop_eq_nil_of_le (by simp [hnsize])]
    rfl
  | succ k ih =>
    have hlt : n < t.scopes.size := by omega
    obtain ⟨s, hs⟩ := exists_scope hlt
    have hreport : (ofTree t locate).scopes.drop n =
        ofScope t locate n s :: (ofTree t locate).scopes.drop (n + 1) := by
      rw [List.drop_eq_getElem_cons (by simpa [ofTree] using hlt), List.cons.injEq]
      refine ⟨Option.some.inj ?_, rfl⟩
      rw [← List.getElem?_eq_getElem, ofTree_scope, hs]
      rfl
    have hdepth : (((ofScope t locate n s).upper.bind
        (((List.range n).map t.depthOf)[·]?)).map (· + 1)).getD 0 = t.depthOf n := by
      cases hu : s.upper with
      | none => simp [ofScope, hu, depthOf_root hs hu]
      | some u =>
        have hun := h n s u hs hu
        simp [ofScope, hu, hun, depthOf_inner h hs hu]
    have hnext := ih (n := n + 1) (by omega) (by omega)
    rw [List.range_succ, List.map_append, List.map_singleton] at hnext
    have hright : ((List.range t.scopes.size).map t.depthOf).drop n =
        t.depthOf n :: ((List.range t.scopes.size).map t.depthOf).drop (n + 1) := by
      rw [List.drop_eq_getElem_cons (by simpa using hlt), List.getElem_map, List.getElem_range]
    rw [hreport, depthsFrom, hdepth, hnext, hright]

theorem depths_ofTree (h : t.Ranked) :
    (ofTree t locate).depths = (List.range t.scopes.size).map t.depthOf :=
  depthsFrom_ofTree locate h (Nat.zero_le _)

/-- The headers come in the order of the scopes, each with its depth. -/
theorem filter_lines_ofTree (h : t.Ranked) :
    (ofTree t locate).lines.filter ListingLine.isHeader =
      (ofTree t locate).scopes.mapIdx fun i s => .header (t.depthOf i) s := by
  have hsize : (ofTree t locate).scopes.length = t.scopes.size := by simp [ofTree]
  rw [filter_lines, depths_ofTree locate h]
  refine List.ext_getElem (by simp [hsize]) fun i hi hi' => ?_
  simp

theorem headerLines_ofTree (h : t.Ranked) :
    (ofTree t locate).headerLines = (ofTree t locate).scopes.mapIdx fun i s =>
      String.ofList (List.replicate (2 * (t.depthOf i + 1)) ' ') ++ ListingLine.headerText false s := by
  rw [headerLines, filter_lines_ofTree locate h]
  refine List.ext_getElem (by simp) fun i hi hi' => ?_
  simp [ListingLine.render, ListingLine.indent]

theorem headerLines_indentation (h : t.Ranked) :
    (ofTree t locate).headerLines.map indentation =
      (List.range t.scopes.size).map fun i => 2 * (t.depthOf i + 1) := by
  rw [headerLines, filter_lines_ofTree locate h]
  refine List.ext_getElem (by simp [ofTree]) fun i hi hi' => ?_
  simp [ListingLine.indentation_header]

/-- The indentations of the headers give the tree back. -/
theorem uppersOf_headerLines (h : Preordered t) :
    uppersOf ((ofTree t locate).headerLines.map indentation) =
      (ofTree t locate).scopes.map ScopeReport.upper := by
  rw [headerLines_indentation locate h.stacked.ranked]
  refine List.ext_getElem? fun i => ?_
  have hreport : ((ofTree t locate).scopes.map ScopeReport.upper)[i]? =
      t.scopes[i]?.map Scope.upper := by
    simp [ofTree_scope, ofScope, Function.comp_def]
  rw [hreport, uppersOf, List.getElem?_mapIdx, List.getElem?_map]
  cases hs : t.scopes[i]? with
  | none =>
    rw [Array.getElem?_eq_none_iff] at hs
    simp [hs]
  | some s =>
    have hi := getElem?_lt hs
    rw [List.getElem?_range hi, Option.map_some, Option.map_some, Option.map_some]
    have hread : ∀ j < i, (((List.range t.scopes.size).map fun i => 2 * (t.depthOf i + 1))[j]?).any
        (· + 2 == 2 * (t.depthOf i + 1)) = decide (t.depthOf j + 1 = t.depthOf i) := by
      intro j hj
      simp only [List.getElem?_map, List.getElem?_range (Nat.lt_trans hj hi), Option.map_some,
        Option.any_some, Bool.beq_eq_decide_eq, decide_eq_decide]
      omega
    congr 1
    cases hu : s.upper with
    | none =>
      refine lastBelow_eq_none fun j hj => ?_
      rw [hread j hj, depthOf_root hs hu]
      simp
    | some u =>
      obtain ⟨hlt, hdepth, hlast⟩ := h.upper_last (i := i) (u := u) (by simp [upperOf, hs, hu])
      refine lastBelow_eq_some hlt ?_ fun k huk hki => ?_
      · rw [hread u hlt, hdepth]
        simp
      · rw [hread k hki]
        simpa using hlast k huk hki

theorem intercalate_newline {lines : List String} (h : lines ≠ []) :
    "\n".intercalate lines ++ "\n" = String.join (lines.map (· ++ "\n")) := by
  induction lines with
  | nil => exact absurd rfl h
  | cons line rest ih =>
    by_cases hrest : rest = []
    · simp [hrest]
    · rw [String.intercalate_cons_of_ne_nil hrest, List.map_cons, String.join_cons, ← ih hrest,
        String.append_assoc, String.append_assoc]

/-- The listing of a report with scopes is its lines, each with its end. -/
theorem listing_eq (h : r.scopes ≠ []) :
    r.listing false = String.join (r.lines.map fun line => line.render false ++ "\n") := by
  have hlines : r.lines ≠ [] := by
    intro hnil
    have hlength := r.headerLines_length
    rw [headerLines, hnil] at hlength
    exact h (List.length_eq_zero_iff.mp hlength.symm)
  rw [listing, intercalate_newline (by simpa using hlines), List.map_map]
  rfl

/-- The names that the listing of a report prints. -/
def names : List String :=
  r.scopes.flatMap (fun s => s.vars.map VariableReport.name ++ s.through) ++ r.implicitGlobals

theorem texts_subset_of_scope {depth : Nat} {s : ScopeReport} {line : ListingLine}
    (h : line ∈ scopeLines depth s) : line.texts ⊆ s.vars.map VariableReport.name ++ s.through := by
  simp only [scopeLines, List.cons_append, List.mem_cons, List.mem_append, List.mem_map,
    List.mem_ite_nil_left, List.not_mem_nil, or_false] at h
  rcases h with rfl | ⟨v, hv, rfl⟩ | ⟨_, rfl⟩
  · simp [ListingLine.texts]
  · simpa [ListingLine.texts] using Or.inl ⟨v, hv, rfl⟩
  · simp [ListingLine.texts]

theorem texts_subset {r : Report} {line : ListingLine} (h : line ∈ r.lines) :
    line.texts ⊆ r.names := by
  rcases List.mem_append.mp h with h | h
  · obtain ⟨⟨depth, s⟩, hs, hline⟩ := List.mem_flatMap.mp h
    intro text htext
    have hscope := texts_subset_of_scope hline htext
    exact List.mem_append_left _ (List.mem_flatMap.mpr ⟨s, (List.of_mem_zip hs).2, hscope⟩)
  · obtain ⟨_, rfl⟩ : r.implicitGlobals ≠ [] ∧ line = .implicitGlobals r.implicitGlobals := by
      simpa using h
    exact List.subset_append_right _ _

/-- The lines of a report, as they are printed, hold its headers. -/
theorem headersOf_listing {r : Report} (h : ∀ name ∈ r.names, '\n' ∉ name.toList) (rest : String) :
    headersOf (r.listing false ++ rest) = r.headerLines ++ headersOf rest := by
  have hheaders : (r.lines.map (ListingLine.render false)).filter readsAsHeader = r.headerLines := by
    rw [headerLines, List.filter_map]
    congr 2
    exact funext ListingLine.readsAsHeader_render
  rw [← hheaders, listing]
  by_cases hnil : r.lines = []
  · rw [hnil]
    exact headersOf_blank rest
  · rw [intercalate_newline (by simpa using hnil)]
    refine headersOf_join (fun text htext => ?_) rest
    obtain ⟨line, hline, rfl⟩ := List.mem_map.mp htext
    exact ListingLine.newline_notMem_render fun text htext => h text (texts_subset hline htext)

end Report

namespace FileOutcome

/-- The header lines printed for a file, none if there is no report on it. -/
def headerLines (x : FileOutcome) : List String :=
  match x.result with
  | .ok r => r.headerLines
  | .error _ => []

/-- The texts printed for a file that come from outside. -/
def texts (x : FileOutcome) : List String :=
  x.path ::
    match x.result with
    | .ok r => r.names
    | .error e => [e]

/-- No text printed for a file is broken into lines, and its path does not look like a header. -/
def Plain (x : FileOutcome) : Prop :=
  readsAsHeader x.path = false ∧ ∀ text ∈ x.texts, '\n' ∉ text.toList

instance (x : FileOutcome) : Decidable x.Plain :=
  inferInstanceAs (Decidable (_ ∧ _))

theorem listing_ok {x : FileOutcome} {r : Report} (h : x.result = .ok r) :
    x.listing false = x.path ++ "\n" ++ (r.listing false ++ "\n") := by
  simp only [listing, h, Style.paint, Bool.false_eq_true, if_false, String.append_assoc]

theorem listing_error {x : FileOutcome} {e : String} (h : x.result = .error e) :
    x.listing false = x.path ++ "\n" ++ ("  error: " ++ e ++ "\n" ++ "\n") := by
  have herror : "  error: " = "  " ++ "error:" ++ " " := rfl
  simp only [listing, h, herror, Style.paint, Bool.false_eq_true, if_false, String.append_assoc]

theorem readsAsHeader_error (e : String) : readsAsHeader ("  error: " ++ e) = false := by
  have hline : "  error: " ++ e = String.ofList (List.replicate 2 ' ') ++ "error:" ++ " " ++ e := rfl
  rw [ListingLine.readsAsHeader_word (by omega) hline (by decide) (by decide)]
  rfl

theorem headersOf_listing {x : FileOutcome} (h : x.Plain) (rest : String) :
    headersOf (x.listing false ++ rest) = x.headerLines ++ headersOf rest := by
  obtain ⟨hpath, htexts⟩ := h
  rw [texts, List.forall_mem_cons] at htexts
  unfold headerLines
  cases hresult : x.result with
  | ok r =>
    rw [hresult] at htexts
    rw [listing_ok hresult, String.append_assoc, headersOf_line htexts.1 hpath,
      String.append_assoc, Report.headersOf_listing htexts.2, headersOf_blank]
  | error e =>
    rw [hresult] at htexts
    have hbreak : '\n' ∉ ("  error: " ++ e).toList := by simpa using htexts.2
    rw [listing_error hresult, String.append_assoc, headersOf_line htexts.1 hpath,
      String.append_assoc, headersOf_line hbreak (readsAsHeader_error e), headersOf_blank,
      List.nil_append]

end FileOutcome

theorem totalOf_scopes (outcomes : List FileOutcome) :
    totalOf (·.scopes.length) outcomes = (outcomes.flatMap FileOutcome.headerLines).length := by
  induction outcomes with
  | nil => rfl
  | cons outcome rest ih =>
    rw [totalOf, ih, List.flatMap_cons, List.length_append]
    congr 1
    cases hresult : outcome.result with
    | ok r => simp [FileOutcome.report?, FileOutcome.headerLines, hresult, r.headerLines_length]
    | error e => simp [FileOutcome.report?, FileOutcome.headerLines, hresult]

/-- The last line of a listing without colours. -/
def summaryText (files scopes failed : Nat) : String :=
  "Analyzed " ++ (toString files ++ " file(s): " ++ toString scopes ++ " scope(s)" ++
    if failed = 0 then "" else ", " ++ toString failed ++ " failed")

theorem summaryLine_eq (outcomes : List FileOutcome) :
    summaryLine false outcomes = summaryText outcomes.length
      (outcomes.flatMap FileOutcome.headerLines).length (failures outcomes) ++ "\n" := by
  rw [summaryLine, totalOf_scopes, summaryText]
  by_cases h : failures outcomes = 0
  · simp only [h, if_true, Style.paint, Bool.false_eq_true, if_false, String.append_empty,
      String.append_assoc]
  · simp only [h, if_false, Style.paint, Bool.false_eq_true, String.append_assoc]

theorem headersOf_summaryText (files scopes failed : Nat) :
    headersOf (summaryText files scopes failed ++ "\n") = [] := by
  have hbreak : '\n' ∉ (summaryText files scopes failed).toList := by
    by_cases h : failed = 0 <;> simp [summaryText, h, ListingLine.newline_notMem_digits]
  have hread : readsAsHeader (summaryText files scopes failed) = false := by
    simp [readsAsHeader, indentation, summaryText]
  rw [← String.append_empty (s := _ ++ "\n"), headersOf_line hbreak hread]
  rfl

theorem headersOf_listings {outcomes : List FileOutcome} (h : ∀ x ∈ outcomes, x.Plain)
    (rest : String) :
    headersOf (String.join (outcomes.map (FileOutcome.listing false)) ++ rest) =
      outcomes.flatMap FileOutcome.headerLines ++ headersOf rest := by
  induction outcomes with
  | nil => simp
  | cons x outcomes ih =>
    obtain ⟨hx, hrest⟩ := List.forall_mem_cons.mp h
    rw [List.map_cons, String.join_cons, String.append_assoc, x.headersOf_listing hx, ih hrest,
      List.flatMap_cons, List.append_assoc]

/-- The listing of a report draws the tree that the report is about. -/
structure Report.Draws (r : Report) (t : ScopeTree) : Prop where
  text : r.listing false = String.join (r.lines.map fun line => line.render false ++ "\n")
  /-- One header for each scope, in order and indented by its depth. -/
  headers : r.headerLines = r.scopes.mapIdx fun i s =>
    String.ofList (List.replicate (2 * (t.depthOf i + 1)) ' ') ++ ListingLine.headerText false s
  unbroken : ∀ line ∈ r.headerLines, '\n' ∉ line.toList
  indents : r.headerLines.map indentation =
    (List.range r.scopes.length).map fun i => 2 * (t.depthOf i + 1)
  /-- The scope around a scope is the last one before it that is one step less deep. -/
  upper : ∀ (i u : Nat) (s : ScopeReport), r.scopes[i]? = some s → s.upper = some u →
    u < i ∧ t.depthOf u + 1 = t.depthOf i ∧ ∀ k, u < k → k < i → t.depthOf k + 1 ≠ t.depthOf i
  recovered : uppersOf (r.headerLines.map indentation) = r.scopes.map ScopeReport.upper

theorem analyze_draws {o : Options} {p : Program} {m : ScopeTree} (h : analyze o p = .ok m)
    (locate : Span → Location) : (Report.ofTree m locate).Draws m := by
  have hpre : Preordered m := (analyze_operations h).2 ▸ operations_preordered o _
  have hr := hpre.stacked.ranked
  have hscopes : (Report.ofTree m locate).scopes ≠ [] := by
    obtain ⟨root, hroot, _⟩ := (analyze_finished h).rooted.root
    intro hnil
    have hfirst := Report.ofTree_scope m locate 0
    rw [hnil, hroot] at hfirst
    simp at hfirst
  refine ⟨Report.listing_eq _ hscopes, Report.headerLines_ofTree locate hr, ?_, ?_, ?_,
    Report.uppersOf_headerLines locate hpre⟩
  · intro line hline
    rw [Report.headerLines, Report.filter_lines, List.map_map] at hline
    obtain ⟨⟨depth, s⟩, _, rfl⟩ := List.mem_map.mp hline
    exact ListingLine.newline_notMem_header depth s
  · rw [Report.headerLines_indentation locate hr]
    simp [Report.ofTree]
  · intro i u s hs hu
    rw [Report.ofTree_scope] at hs
    obtain ⟨c, hc, rfl⟩ := Option.map_eq_some_iff.mp hs
    exact hpre.upper_last (by rw [upperOf, hc]; exact hu)

/-- What is printed for a file, and for a report that it draws the tree of the program. -/
structure FileOutcome.Draws (x : FileOutcome) : Prop where
  report : ∀ r, x.result = .ok r → x.listing false = x.path ++ "\n" ++ (r.listing false ++ "\n")
  error : ∀ e, x.result = .error e →
    x.listing false = x.path ++ "\n" ++ ("  error: " ++ e ++ "\n" ++ "\n")
  tree : ∀ (o : Options) (p : Program) (m : ScopeTree) (locate : Span → Location),
    analyze o p = .ok m → x.result = .ok (Report.ofTree m locate) → (Report.ofTree m locate).Draws m
  headers : x.Plain → headersOf (x.listing false) = x.headerLines

/-- A listing without colours draws the scope trees of the programs, and its last line counts the
headers that are printed over all files. They are the lines that read as headers, unless a path looks
like one or a text from outside is broken into lines. -/
theorem listing_draws (outcomes : List FileOutcome) :
    (∀ x ∈ outcomes, x.Draws) ∧
    listing false outcomes = String.join (outcomes.map (FileOutcome.listing false)) ++
      (summaryText outcomes.length (outcomes.flatMap FileOutcome.headerLines).length
        (failures outcomes) ++ "\n") ∧
    ((∀ x ∈ outcomes, x.Plain) →
      headersOf (listing false outcomes) = outcomes.flatMap FileOutcome.headerLines) := by
  refine ⟨fun x _ => ⟨fun _ => x.listing_ok, fun _ => x.listing_error, ?_, ?_⟩, ?_, ?_⟩
  · intro o p m locate h _
    exact analyze_draws h locate
  · intro hplain
    have hheaders := x.headersOf_listing hplain ""
    rwa [String.append_empty, show headersOf "" = [] from rfl, List.append_nil] at hheaders
  · rw [listing, summaryLine_eq]
  · intro hplain
    rw [listing, summaryLine_eq, headersOf_listings hplain, headersOf_summaryText, List.append_nil]

/-- `function f(a) { { let b; } } () => c;` -/
def twoBranches : Program :=
  .script ⟨1, 38⟩ [
    .decl (.function ⟨"f", ⟨10, 11⟩⟩
      (.mk ⟨1, 29⟩ [] [.mk [] false (.ident ⟨"a", ⟨12, 13⟩⟩)] (some (.mk ⟨15, 29⟩ [
        .block (.mk ⟨17, 27⟩ [
          .decl (.vars (.mk ⟨19, 25⟩ .letKind [.mk ⟨23, 24⟩ (.ident ⟨"b", ⟨23, 24⟩⟩) none]))])])))),
    .expr (.arrowExpr ⟨30, 37⟩ [] (.ident ⟨"c", ⟨36, 37⟩⟩))]

theorem twoBranches_draws :
    ∃ m, analyze {} twoBranches = .ok m ∧
      (let r := Report.ofTree m fun span => ⟨1, span.lo⟩
      let outcomes : List FileOutcome := [⟨"a.js", .ok r⟩, ⟨"b.js", .error "gone"⟩, ⟨"c.js", .ok r⟩]
      (∀ x ∈ outcomes, x.Plain) ∧ r.Draws m ∧
      headersOf (r.listing false) = ["  global (1:1)", "    function (1:1)", "      block (1:17)",
        "    function (1:30)"] ∧
      uppersOf ((headersOf (r.listing false)).map indentation) = [none, some 0, some 1, some 0] ∧
      (headersOf (listing false outcomes)).length = 8 ∧
      listing false outcomes = String.join (outcomes.map (FileOutcome.listing false)) ++
        "Analyzed 3 file(s): 8 scope(s), 1 failed\n") := by
  refine ⟨_, rfl, ?_⟩
  intro r outcomes
  have hplain : ∀ x ∈ outcomes, x.Plain := by decide +kernel
  have hdrawn : headersOf (r.listing false) = ["  global (1:1)", "    function (1:1)",
      "      block (1:17)", "    function (1:30)"] := by decide +kernel
  obtain ⟨hdraws, hlisting, hheaders⟩ := listing_draws outcomes
  refine ⟨hplain, (hdraws ⟨"a.js", .ok r⟩ (by simp [outcomes])).tree {} twoBranches _ _ rfl rfl,
    hdrawn, by rw [hdrawn]; decide +kernel, ?_, hlisting.trans ?_⟩
  · rw [hheaders hplain]
    decide +kernel
  · exact congrArg (String.join _ ++ ·) (by decide +kernel)

end ScopeAnalysis
