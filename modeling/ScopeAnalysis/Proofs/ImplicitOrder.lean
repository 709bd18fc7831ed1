import ScopeAnalysis.Proofs.Closure
import Mathlib.Data.List.Induction

namespace ScopeAnalysis

theorem NameTable.mem_of_find? {t : NameTable} {name : String} {v : VariableId}
    (h : t.find? name = some v) : (name, v) ∈ t.entries := by
  obtain ⟨⟨other, w⟩, hfind, rfl⟩ := Option.map_eq_some_iff.mp h
  have hname : other = name := by simpa using List.find?_some hfind
  exact hname ▸ List.mem_of_find?_eq_some hfind

section FirstOccurrences

variable {α : Type} [DecidableEq α]

theorem eraseDups_concat (l : List α) (a : α) :
    (l ++ [a]).eraseDups = l.eraseDups ++ if a ∈ l then [] else [a] := by
  have hremove : [a].removeAll l = if a ∈ l then [] else [a] := by
    by_cases ha : a ∈ l <;> simp [List.removeAll, ha]
  rw [List.eraseDups_append, hremove]
  split <;> rfl

theorem nodup_eraseDups (l : List α) : l.eraseDups.Nodup := by
  induction l using List.reverseRecOn with
  | nil => exact List.nodup_nil
  | append_singleton l a ih =>
    rw [eraseDups_concat, List.nodup_append]
    refine ⟨ih, by split <;> simp, ?_⟩
    intro b hb c hc hbc
    rw [List.mem_eraseDups] at hb
    split at hc
    next => simp at hc
    next ha =>
      rw [hbc, List.mem_singleton.mp hc] at hb
      exact ha hb

theorem eraseDups_filter (keep : α → Bool) (l : List α) :
    (l.filter keep).eraseDups = l.eraseDups.filter keep := by
  induction l using List.reverseRecOn with
  | nil => rfl
  | append_singleton l a ih =>
    rw [eraseDups_concat, List.filter_append, List.filter_append, ← ih]
    cases ha : keep a with
    | false => by_cases hmem : a ∈ l <;> simp [ha, hmem]
    | true =>
      rw [List.filter_singleton, ha, cond_true, eraseDups_concat]
      by_cases hmem : a ∈ l <;> simp [ha, hmem]

end FirstOccurrences

namespace ScopeTree

variable {t : ScopeTree} {id : Nat} {s : Scope}

/-- The names written to, in the order of the first writes. -/
def writtenNames (writes : List (String × Candidate)) : List String :=
  (writes.map Prod.fst).eraseDups

theorem writtenNames_snoc (writes : List (String × Candidate)) (w : String × Candidate) :
    writtenNames (writes ++ [w]) =
      writtenNames writes ++ if w.1 ∈ writes.map Prod.fst then [] else [w.1] := by
  rw [writtenNames, List.map_append, List.map_singleton, eraseDups_concat, writtenNames]

/-- Leaving out names leaves out their writes, and the rest of the writes make the same variables. -/
theorem implicitVariables_filter (id : ScopeId) (writes : List (String × Candidate))
    (keep : String → Bool) :
    ((writtenNames writes).map (implicitVariable id writes)).filter (fun x => keep x.name) =
      (writtenNames (writes.filter fun w => keep w.1)).map
        (implicitVariable id (writes.filter fun w => keep w.1)) := by
  have hnames : writtenNames (writes.filter fun w => keep w.1) =
      (writtenNames writes).filter keep := by
    rw [writtenNames, writtenNames, ← eraseDups_filter, List.filter_map]
    rfl
  have hwrites : ∀ name, keep name = true →
      writesTo (writes.filter fun w => keep w.1) name = writesTo writes name := by
    intro name hname
    unfold writesTo
    rw [List.filter_filter]
    congr 1
    refine List.filter_congr fun w _ => ?_
    by_cases hw : w.1 = name
    · simp [hw, hname]
    · simp [hw]
  rw [hnames, List.filter_map]
  refine List.map_congr_left fun name hname => ?_
  have hkeep : keep name = true := (List.mem_filter.mp hname).2
  simp [implicitVariable, hwrites name hkeep]

/-- The table lists the names written to, with the positions from `first` on. -/
structure Arranged (first : Nat) (writes : List (String × Candidate)) (table : NameTable)
    (size : Nat) : Prop where
  entries : table.entries = (writtenNames writes).zipIdx first
  listed : table.ids = table.entries.map Prod.snd
  size : size = first + (writtenNames writes).length

theorem Arranged.unique {first size size' : Nat} {writes : List (String × Candidate)}
    {table table' : NameTable} (h : Arranged first writes table size)
    (h' : Arranged first writes table' size') : table' = table := by
  have hentries := h'.entries.trans h.entries.symm
  have hids : table'.ids = table.ids := by rw [h'.listed, h.listed, hentries]
  cases table
  cases table'
  exact congr (congrArg NameTable.mk hentries) hids

theorem Arranged.defineImplicit {first : Nat} {writes : List (String × Candidate)}
    (ha : Arranged first writes s.implicit t.vars.size) (hs : t.scopes[id]? = some s)
    (hg : Gathered first id writes s.implicit t.vars) (w : String × Candidate) :
    ∃ s', (t.defineImplicit id w).scopes[id]? = some s' ∧
      Arranged first (writes ++ [w]) s'.implicit (t.defineImplicit id w).vars.size := by
  have hwritten : (s.implicit.find? w.1).isSome ↔ w.1 ∈ writes.map Prod.fst := by
    simp [hg.isSome_iff]
  unfold ScopeTree.defineImplicit
  obtain ⟨s₁, k, hs₁, hf, hv⟩ | ⟨hnone, hv⟩ := implicitFor_cases t id w.1
  · cases Option.some.inj (hs₁.symm.trans hs)
    have hold : writtenNames (writes ++ [w]) = writtenNames writes := by
      rw [writtenNames_snoc, if_pos (hwritten.mp (by simp [hf])), List.append_nil]
    rw [hv]
    exact ⟨s, hs, by rw [hold]; exact ha.entries, ha.listed, by
      rw [hold]
      simpa [addDefinition, modifyVariable] using ha.size⟩
  · have hnew : writtenNames (writes ++ [w]) = writtenNames writes ++ [w.1] := by
      rw [writtenNames_snoc, if_neg (by rw [← hwritten]; simp [hnone s hs])]
    rw [hv]
    refine ⟨{ s with implicit := s.implicit.insert w.1 t.vars.size }, ?_, ?_, ?_, ?_⟩
    · simp [addDefinition, modifyVariable, modifyScope_getElem?, hs]
    · rw [hnew, List.zipIdx_append, ← ha.entries, ← ha.size]
      rfl
    · simp [NameTable.insert, ha.listed]
    · rw [hnew, List.length_append, ← Nat.add_assoc, ← ha.size]
      simp [addDefinition, modifyVariable, modifyScope]

theorem Arranged.defineImplicits {first : Nat} {done : List (String × Candidate)}
    (ha : Arranged first done s.implicit t.vars.size) (hs : t.scopes[id]? = some s)
    (hg : Gathered first id done s.implicit t.vars) (hfirst : first ≤ t.vars.size)
    (writes : List (String × Candidate)) :
    ∃ s', (writes.foldl (·.defineImplicit id ·) t).scopes[id]? = some s' ∧
      Arranged first (done ++ writes) s'.implicit
        (writes.foldl (·.defineImplicit id ·) t).vars.size := by
  induction writes generalizing t s done with
  | nil => exact ⟨s, hs, by simpa using ha⟩
  | cons w writes ih =>
    obtain ⟨s₁, hs₁, hg₁, hfirst₁, _⟩ := hg.defineImplicit hs hfirst w
    obtain ⟨s₂, hs₂, ha₂⟩ := ha.defineImplicit hs hg w
    cases Option.some.inj (hs₁.symm.trans hs₂)
    obtain ⟨s₃, hs₃, ha₃⟩ := ih ha₂ hs₁ hg₁ hfirst₁
    exact ⟨s₃, hs₃, by simpa using ha₃⟩

section Prepare

variable (hs : t.scopes[id]? = some s) (hbare : s.implicit = {})

include hs hbare

theorem prepare_arranged :
    Arranged t.vars.size (t.gatheredWrites s) (t.gatheredTable id s)
      (t.prepare id s).vars.size := by
  have hnone : Arranged t.vars.size [] s.implicit t.vars.size := by
    rw [hbare]
    exact ⟨rfl, rfl, rfl⟩
  by_cases hk : s.kind = .global
  · have hfirst : Gathered t.vars.size id [] s.implicit t.vars := hbare ▸ .start id t.vars
    obtain ⟨s', hs', ha⟩ := hnone.defineImplicits hs hfirst (Nat.le_refl _) (t.implicitWrites s)
    have hprepare : t.prepare id s = t.gatherImplicit id s := by simp [prepare, hk]
    have htable : t.gatheredTable id s = s'.implicit := by
      simp [gatheredTable, hprepare, gatherImplicit, hs']
    rw [htable, hprepare, gatheredWrites, if_pos hk]
    exact ha
  · have hprepare : t.prepare id s = t := by simp [prepare, hk]
    rw [gatheredTable_of_ne hs hk, hprepare, gatheredWrites, if_neg hk]
    exact hnone

/-- The implicit globals stand behind the other variables, in the order of the first writes. -/
theorem prepare_vars :
    (t.prepare id s).vars.toList = t.vars.toList ++
      (writtenNames (t.gatheredWrites s)).map (implicitVariable id (t.gatheredWrites s)) := by
  obtain ⟨hg, hold⟩ := prepare_gathered hs hbare
  obtain ⟨hentries, _, hsize⟩ := prepare_arranged hs hbare
  refine List.ext_getElem? fun v => ?_
  rw [Array.getElem?_toList]
  by_cases hv : v < t.vars.size
  · rw [hold v hv, List.getElem?_append_left (by simpa using hv), Array.getElem?_toList]
  · rw [List.getElem?_append_right (by simpa using hv), Array.length_toList, List.getElem?_map]
    by_cases hlt : v < (t.prepare id s).vars.size
    · obtain ⟨name, hname⟩ := hg.cover v (by omega) hlt
      have hmem := NameTable.mem_of_find? hname
      rw [hentries, List.mk_mem_zipIdx_iff_le_and_getElem?_sub] at hmem
      rw [(hg.found name v hname).2.2, hmem.2, Option.map_some]
    · have hend : (writtenNames (t.gatheredWrites s))[v - t.vars.size]? = none :=
        List.getElem?_eq_none (by omega)
      rw [hend, Array.getElem?_eq_none (by omega), Option.map_none]

end Prepare

end ScopeTree

end ScopeAnalysis
