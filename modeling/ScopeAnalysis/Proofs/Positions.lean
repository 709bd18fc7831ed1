import ScopeAnalysis.Proofs.Spans
import Mathlib.Data.List.Induction

namespace ScopeAnalysis

/-- The mark that a text may start with and that a parser does not count. -/
def byteOrderMark : Char := '\uFEFF'

@[simp] theorem byteLength_append (cs ds : List Char) :
    byteLength (cs ++ ds) = byteLength cs + byteLength ds := by
  induction cs with
  | nil => simp [byteLength]
  | cons c cs ih => simp [byteLength, ih, Nat.add_assoc]

theorem byteLength_eq_zero {cs : List Char} (h : byteLength cs = 0) : cs = [] := by
  cases cs with
  | nil => rfl
  | cons c cs =>
    have hpos := c.utf8Size_pos
    simp only [byteLength] at h
    omega

theorem takeBytes?_append (before rest : List Char) :
    takeBytes? (byteLength before) (before ++ rest) = some before := by
  induction before with
  | nil => simp [byteLength, takeBytes?]
  | cons c cs ih =>
    have hpos := c.utf8Size_pos
    obtain ⟨n, hn⟩ : ∃ n, byteLength (c :: cs) = n + 1 :=
      ⟨c.utf8Size + byteLength cs - 1, by simp only [byteLength]; omega⟩
    have hrest : n + 1 - c.utf8Size = byteLength cs := by
      rw [← hn, byteLength]
      omega
    have hfits : c.utf8Size ≤ n + 1 := by
      rw [← hn, byteLength]
      omega
    rw [hn, List.cons_append, takeBytes?, if_pos hfits, hrest, ih]
    rfl

theorem takeBytes?_prefix {n : Nat} {cs read : List Char} (h : takeBytes? n cs = some read) :
    read <+: cs := by
  fun_induction takeBytes? n cs generalizing read with
  | case1 cs =>
    cases Option.some.inj h
    exact List.nil_prefix
  | case2 => cases h
  | case3 n c cs _ ih =>
    obtain ⟨inner, hinner, rfl⟩ := Option.map_eq_some_iff.mp h
    exact (List.prefix_cons_inj c).mpr (ih hinner)
  | case4 => cases h

/-- The place after one more character. -/
def Location.next (l : Location) (c : Char) : Location :=
  if c = '\n' then ⟨l.line + 1, 1⟩ else ⟨l.line, l.column + c.utf8Size⟩

/-- The place that is reached after the characters of a text. -/
def Location.after (before : List Char) : Location :=
  before.foldl Location.next ⟨1, 1⟩

theorem lastLine_snoc (cs : List Char) (c : Char) :
    lastLine (cs ++ [c]) = if c = '\n' then [] else lastLine cs ++ [c] := by
  by_cases hc : c = '\n' <;> simp [lastLine, hc]

theorem byteLength_lastLine_le (cs : List Char) : byteLength (lastLine cs) ≤ byteLength cs := by
  induction cs using List.reverseRecOn with
  | nil => exact Nat.le_refl 0
  | append_singleton cs c ih =>
    rw [lastLine_snoc]
    split
    next => exact Nat.zero_le _
    next =>
      rw [byteLength_append, byteLength_append]
      omega

/-- Counting line by line gives the line and the column. -/
theorem Location.after_eq (before : List Char) :
    Location.after before = ⟨before.count '\n' + 1, byteLength (lastLine before) + 1⟩ := by
  induction before using List.reverseRecOn with
  | nil => rfl
  | append_singleton cs c ih =>
    have hnext : Location.after (cs ++ [c]) = (Location.after cs).next c := by
      simp [Location.after]
    rw [hnext, ih, lastLine_snoc, Location.next, List.count_append]
    by_cases hc : c = '\n'
    · simp [hc, byteLength]
    · simp [hc, byteLength]
      omega

namespace SourceText

variable {s : SourceText} {before piece : List Char} {span : Span}

/-- The text in which a parser counts positions. -/
def counted (s : SourceText) : SourceText :=
  if s.chars.head? = some byteOrderMark then ⟨String.ofList s.chars.tail⟩ else s

/-- The span covers `piece`, which comes after `before`; positions are bytes of the text, counted
from 1. -/
structure Covers (s : SourceText) (before piece : List Char) (span : Span) : Prop where
  chars : ∃ after, s.chars = before ++ piece ++ after
  lo : span.lo = byteLength before + 1
  hi : span.hi = span.lo + byteLength piece

/-- The span covers some part of the text. -/
def Denotes (s : SourceText) (span : Span) : Prop :=
  ∃ before piece, s.Covers before piece span

theorem Covers.slice (h : s.Covers before piece span) :
    s.slice? span = some (String.ofList piece) := by
  obtain ⟨⟨after, hchars⟩, hlo, hhi⟩ := h
  have hsize : s.byteSize = byteLength before + byteLength piece + byteLength after := by
    rw [byteSize, hchars, byteLength_append, byteLength_append]
  have hinside : ¬(span.lo = 0 ∨ span.hi < span.lo ∨ s.byteSize + 1 < span.hi) := by omega
  have hread : takeBytes? (span.lo - 1) s.chars = some before := by
    rw [hlo, Nat.add_sub_cancel, hchars, List.append_assoc]
    exact takeBytes?_append before (piece ++ after)
  have hcovered : takeBytes? (span.hi - span.lo) (s.chars.drop before.length) = some piece := by
    rw [hhi, Nat.add_sub_cancel_left, hchars, List.append_assoc, List.drop_left]
    exact takeBytes?_append piece after
  rw [slice?, if_neg hinside, hread]
  simp [hcovered]

theorem Covers.location (h : s.Covers before piece span) :
    s.locate? span = some (.after before) := by
  obtain ⟨⟨after, hchars⟩, hlo, hhi⟩ := h
  have hoffset : offset 1 span = byteLength before := by
    rw [offset, hlo, Nat.add_sub_cancel]
  have hsize : byteLength before ≤ s.byteSize := by
    rw [byteSize, hchars, byteLength_append, byteLength_append]
    omega
  have hread : s.before? (byteLength before) = some before := by
    rw [before?, Nat.min_eq_left hsize, hchars, List.append_assoc]
    exact takeBytes?_append before (piece ++ after)
  have hline := byteLength_lastLine_le before
  simp only [locate?, locateFrom?, hoffset, hread, Option.map_some]
  split
  next hfirst =>
    -- nothing comes before the span
    have hnone : before = [] := by
      rw [Bool.or_eq_true, String.isEmpty_iff, beq_iff_eq] at hfirst
      rcases hfirst with hempty | hzero
      · have hnil : s.chars = [] := by simp [SourceText.chars, hempty]
        rw [hnil] at hchars
        simp_all
      · exact byteLength_eq_zero hzero
    rw [hnone]
    rfl
  next =>
    rw [Location.after_eq]
    congr 2
    omega

/-- The text starts with no mark, or consists of marks. -/
def Unmarked (s : SourceText) : Prop :=
  s.chars.head? = some byteOrderMark → ∀ c ∈ s.chars, c = byteOrderMark

theorem counted_chars (h : s.chars.head? = some byteOrderMark) :
    s.chars = byteOrderMark :: s.counted.chars := by
  have hcounted : s.counted.chars = s.chars.tail := by
    rw [counted, if_pos h, chars, String.toList_ofList]
  rw [hcounted]
  exact (List.cons_head?_tail h).symm

/-- A span that a parser counts covers the same part of the text itself. -/
theorem Unmarked.covers (hs : s.Unmarked) (h : s.counted.Covers before piece span) :
    s.Covers before piece span := by
  by_cases hmark : s.chars.head? = some byteOrderMark
  · obtain ⟨⟨after, hafter⟩, hlo, hhi⟩ := h
    have hchars := counted_chars hmark
    -- among marks only, the one in front may as well stand at the end
    have hmarks : s.counted.chars = List.replicate s.counted.chars.length byteOrderMark :=
      List.eq_replicate_of_mem fun c hc => hs hmark c (hchars ▸ List.mem_cons_of_mem _ hc)
    refine ⟨⟨after ++ [byteOrderMark], ?_⟩, hlo, hhi⟩
    rw [← List.append_assoc, ← hafter, hchars, hmarks, ← List.replicate_succ,
      List.replicate_succ']
  · have hcounted : s.counted = s := by rw [counted, if_neg hmark]
    rwa [hcounted] at h

/-- Spans that a parser counts lead to the right places of the text, in a report as well. -/
structure Faithful (s : SourceText) : Prop where
  slice : ∀ before piece span, s.counted.Covers before piece span →
    s.slice? span = some (String.ofList piece)
  location : ∀ before piece span, s.counted.Covers before piece span →
    s.locate? span = some (.after before) ∧ s.counted.locate? span = some (.after before)
  report : ∀ (o : Options) (p : Program), p.Spanned s.counted.Denotes →
    match analyze o p with
    | .ok m => (Report.ofSource? m s).isSome
    | .error e => (s.locate? e.span).isSome

theorem Unmarked.report (hs : s.Unmarked) (o : Options) {p : Program}
    (hp : p.Spanned s.counted.Denotes) :
    match analyze o p with
    | .ok m => (Report.ofSource? m s).isSome
    | .error e => (s.locate? e.span).isSome := by
  have hlocated : ∀ span, s.counted.Denotes span → (s.locate? span).isSome := by
    rintro span ⟨before, piece, h⟩
    rw [(hs.covers h).location]
    rfl
  split
  next m hm =>
    have hall := (analyze_spanned hp hm).spansOf
    have hspans : (Report.spansOf m).all (fun span => (s.locate? span).isSome) = true :=
      List.all_eq_true.mpr fun span hspan => hlocated span (hall span hspan)
    rw [Report.ofSource?, if_pos hspans]
    rfl
  next e he => exact hlocated e.span (analyze_error_spanned hp he)

/-- The first character that is no mark comes after marks. -/
theorem marks_before {cs : List Char} (h : ∃ c ∈ cs, c ≠ byteOrderMark) :
    ∃ n c rest, cs = List.replicate n byteOrderMark ++ c :: rest ∧ c ≠ byteOrderMark := by
  induction cs with
  | nil => simp at h
  | cons c cs ih =>
    by_cases hc : c = byteOrderMark
    · subst hc
      have hrest : ∃ c ∈ cs, c ≠ byteOrderMark := by simpa using h
      obtain ⟨n, d, rest, he, hd⟩ := ih hrest
      exact ⟨n + 1, d, rest, by rw [he, List.replicate_succ, List.cons_append], hd⟩
    · exact ⟨0, c, cs, rfl, hc⟩

/-- A mark in front of other characters moves the first of them away from its span. -/
theorem unmarked_of_slice (h : ∀ before piece span, s.counted.Covers before piece span →
    s.slice? span = some (String.ofList piece)) : s.Unmarked := by
  intro hmark
  by_contra hother
  push Not at hother
  have hchars := counted_chars hmark
  have hsome : ∃ c ∈ s.counted.chars, c ≠ byteOrderMark := by
    rw [hchars] at hother
    simpa using hother
  obtain ⟨n, c, rest, hrest, hc⟩ := marks_before hsome
  let marks := List.replicate n byteOrderMark
  have hcovers : s.counted.Covers marks [c]
      ⟨byteLength marks + 1, byteLength marks + 1 + byteLength [c]⟩ :=
    ⟨⟨rest, by rw [hrest, List.append_assoc]; rfl⟩, rfl, rfl⟩
  have hslice := h marks [c] _ hcovers
  -- in the text itself the marks are followed by one more mark
  have htext : s.chars = marks ++ (byteOrderMark :: c :: rest) := by
    rw [hchars, hrest, ← List.cons_append, ← List.replicate_succ, List.replicate_succ',
      List.append_assoc]
    rfl
  unfold slice? at hslice
  split at hslice
  next => cases hslice
  next =>
    have hread : takeBytes? (byteLength marks + 1 - 1) s.chars = some marks := by
      rw [Nat.add_sub_cancel, htext]
      exact takeBytes?_append marks _
    simp only [hread, Option.bind_eq_bind, Option.bind_some] at hslice
    obtain ⟨covered, hcovered, he⟩ := Option.bind_eq_some_iff.mp hslice
    rw [htext, List.drop_left] at hcovered
    have hsame : covered = [c] := String.ofList_injective (Option.some.inj he)
    have hprefix := takeBytes?_prefix hcovered
    rw [hsame] at hprefix
    exact hc (List.cons_prefix_cons.mp hprefix).1

end SourceText

/-- The positions of a parser are those of the text exactly when the text starts with no byte order
mark or consists of such marks. -/
theorem positions_faithful_iff (s : SourceText) :
    s.Faithful ↔
      (s.chars.head? = some byteOrderMark → ∀ c ∈ s.chars, c = byteOrderMark) := by
  constructor
  · intro h
    exact SourceText.unmarked_of_slice h.slice
  · intro hs
    have hunmarked : s.Unmarked := hs
    refine ⟨?_, ?_, ?_⟩
    · intro before piece span h
      exact (hunmarked.covers h).slice
    · intro before piece span h
      exact ⟨(hunmarked.covers h).location, h.location⟩
    · intro o p hp
      exact hunmarked.report o hp

/-- A text with a character of two bytes, and `x` in its second line. -/
def accentedLine : SourceText := ⟨"é;\nx"⟩

/-- The same text behind a mark: the span of `x` leads elsewhere. -/
theorem accentedLine_positions :
    accentedLine.Faithful ∧ accentedLine.slice? ⟨5, 6⟩ = some "x" ∧
      accentedLine.locate? ⟨5, 6⟩ = some ⟨2, 1⟩ ∧
      ¬(SourceText.mk ("\uFEFF" ++ accentedLine.text)).Faithful ∧
      (SourceText.mk ("\uFEFF" ++ accentedLine.text)).locate? ⟨5, 6⟩ = none := by
  have hplain : accentedLine.Faithful :=
    (positions_faithful_iff accentedLine).mpr fun hmark => absurd hmark (by decide)
  refine ⟨hplain, by decide, by decide, ?_, by decide⟩
  intro h
  have hmarks := (positions_faithful_iff _).mp h (by decide)
  exact absurd (hmarks 'x' (by decide)) (by decide)

end ScopeAnalysis
