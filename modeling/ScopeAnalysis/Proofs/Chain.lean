import ScopeAnalysis.ScopeTree.Operation
import Mathlib.Data.List.Basic

namespace ScopeAnalysis

namespace ScopeTree

/-- Upper links lead to older scopes. -/
def Ranked (t : ScopeTree) : Prop :=
  ∀ (i : Nat) (s : Scope) (u : Nat), t.scopes[i]? = some s → s.upper = some u → u < i

/-- The open scopes, innermost first. -/
def stack (t : ScopeTree) : List ScopeId :=
  t.chainFuel t.scopes.size t.current

/-- The node that opened a scope. -/
def blockOf (t : ScopeTree) (i : ScopeId) : Option Node :=
  t.scopes[i]?.map Scope.block

theorem getElem?_lt {α : Type} {xs : Array α} {i : Nat} {x : α} (h : xs[i]? = some x) :
    i < xs.size := by
  obtain ⟨hi, _⟩ := Array.getElem?_eq_some_iff.mp h
  exact hi

theorem exists_scope {t : ScopeTree} {i : Nat} (h : i < t.scopes.size) :
    ∃ s, t.scopes[i]? = some s :=
  ⟨t.scopes[i], Array.getElem?_eq_getElem h⟩

@[simp] theorem chainFuel_none (t : ScopeTree) (fuel : Nat) : t.chainFuel fuel none = [] := by
  cases fuel <;> rfl

theorem chainFuel_stable {t : ScopeTree} (h : t.Ranked) {i n m : Nat} (hn : i < n) (hm : i < m) :
    t.chainFuel n (some i) = t.chainFuel m (some i) := by
  induction n generalizing i m with
  | zero => omega
  | succ n ih =>
    obtain ⟨k, rfl⟩ : ∃ k, m = k + 1 := ⟨m - 1, by omega⟩
    simp only [chainFuel]
    cases hs : t.scopes[i]? with
    | none => rfl
    | some s =>
      cases hu : s.upper with
      | none => simp [hu]
      | some u =>
        have hlt := h i s u hs hu
        simp only [hu, ih (i := u) (m := k) (by omega) (by omega)]

theorem chain_root {t : ScopeTree} {i : Nat} {s : Scope} (hs : t.scopes[i]? = some s)
    (hu : s.upper = none) : t.chain i = [i] := by
  obtain ⟨n, hn⟩ : ∃ n, t.scopes.size = n + 1 := ⟨t.scopes.size - 1, by have := getElem?_lt hs; omega⟩
  simp [chain, hn, chainFuel, hs, hu]

theorem chain_inner {t : ScopeTree} (h : t.Ranked) {i u : Nat} {s : Scope}
    (hs : t.scopes[i]? = some s) (hu : s.upper = some u) : t.chain i = i :: t.chain u := by
  have hi := getElem?_lt hs
  have hlt := h i s u hs hu
  obtain ⟨n, hn⟩ : ∃ n, t.scopes.size = n + 1 := ⟨t.scopes.size - 1, by omega⟩
  have hstable := chainFuel_stable h (i := u) (n := n) (m := n + 1) (by omega) (by omega)
  simp [chain, hn, chainFuel, hs, hu, hstable]

theorem chain_missing {t : ScopeTree} {i : Nat} (hs : t.scopes[i]? = none) : t.chain i = [] := by
  unfold chain
  cases t.scopes.size <;> simp [chainFuel, hs]

/-- Induction from the outermost scope inwards. -/
theorem Ranked.induct {t : ScopeTree} (h : t.Ranked) {P : Nat → Prop}
    (missing : ∀ i : Nat, t.scopes[i]? = none → P i)
    (root : ∀ (i : Nat) (s : Scope), t.scopes[i]? = some s → s.upper = none → P i)
    (inner : ∀ (i : Nat) (s : Scope) (u : Nat), t.scopes[i]? = some s → s.upper = some u → u < i →
      P u → P i) (i : Nat) : P i := by
  induction i using Nat.strongRecOn with
  | ind i ih =>
    cases hs : t.scopes[i]? with
    | none => exact missing i hs
    | some s =>
      cases hu : s.upper with
      | none => exact root i s hs hu
      | some u =>
        have hlt := h i s u hs hu
        exact inner i s u hs hu hlt (ih u hlt)

theorem chain_head {t : ScopeTree} {i : Nat} {s : Scope} (hs : t.scopes[i]? = some s) :
    ∃ above, t.chain i = i :: above := by
  obtain ⟨n, hn⟩ : ∃ n, t.scopes.size = n + 1 := ⟨t.scopes.size - 1, by have := getElem?_lt hs; omega⟩
  exact ⟨t.chainFuel n s.upper, by simp [chain, hn, chainFuel, hs]⟩

theorem mem_chain_self {t : ScopeTree} {i : Nat} (h : i < t.scopes.size) : i ∈ t.chain i := by
  obtain ⟨s, hs⟩ := exists_scope h
  obtain ⟨above, he⟩ := chain_head hs
  simp [he]

theorem mem_chain_lt {t : ScopeTree} (h : t.Ranked) {i j : Nat} (hj : j ∈ t.chain i) :
    j ≤ i ∧ j < t.scopes.size := by
  induction i using h.induct with
  | missing i hs => simp [chain_missing hs] at hj
  | root i s hs hu =>
    have hi := getElem?_lt hs
    have : j = i := by simpa [chain_root hs hu] using hj
    omega
  | inner i s u hs hu hlt ih =>
    have hi := getElem?_lt hs
    rcases List.mem_cons.mp (chain_inner h hs hu ▸ hj) with rfl | hj
    · omega
    · have := ih hj
      omega

theorem chain_decreasing {t : ScopeTree} (h : t.Ranked) (i : Nat) :
    (t.chain i).Pairwise fun (j k : Nat) => k < j := by
  induction i using h.induct with
  | missing i hs => simp [chain_missing hs]
  | root i s hs hu => simp [chain_root hs hu]
  | inner i s u hs hu hlt ih =>
    rw [chain_inner h hs hu]
    refine List.pairwise_cons.mpr ⟨?_, ih⟩
    intro j hj
    have := (mem_chain_lt h hj).1
    omega

theorem chain_nodup {t : ScopeTree} (h : t.Ranked) (i : Nat) : (t.chain i).Nodup :=
  (chain_decreasing h i).imp fun hlt => Nat.ne_of_gt hlt

/-- The chain of a scope ends with the chain of every scope on it. -/
theorem chain_suffix {t : ScopeTree} (h : t.Ranked) {i j : Nat} (hj : j ∈ t.chain i) :
    t.chain j <:+ t.chain i := by
  induction i using h.induct with
  | missing i hs => simp [chain_missing hs] at hj
  | root i s hs hu =>
    have : j = i := by simpa [chain_root hs hu] using hj
    subst j
    exact List.suffix_rfl
  | inner i s u hs hu _ ih =>
    rcases List.mem_cons.mp (chain_inner h hs hu ▸ hj) with rfl | hj
    · exact List.suffix_rfl
    · rw [chain_inner h hs hu]
      exact (ih hj).trans (List.suffix_cons _ _)

theorem mem_chain_trans {t : ScopeTree} (h : t.Ranked) {i j k : Nat} (hj : j ∈ t.chain i)
    (hk : k ∈ t.chain j) : k ∈ t.chain i :=
  (chain_suffix h hj).subset hk

/-- A split of a chain at one of its scopes is the chain of that scope. -/
theorem chain_split {t : ScopeTree} (h : t.Ranked) {i j : Nat} {inner above : List ScopeId}
    (he : t.chain i = inner ++ j :: above) : t.chain j = j :: above := by
  have hj : j ∈ t.chain i := by simp [he]
  obtain ⟨before, hb⟩ := chain_suffix h hj
  obtain ⟨s, hs⟩ := exists_scope (mem_chain_lt h hj).2
  obtain ⟨rest, hr⟩ := chain_head hs
  have hn := chain_nodup h i
  rw [he] at hb
  rw [hr] at hb ⊢
  -- no scope is on the chain twice, so both splits are at the same place
  have hsame : before = inner ∧ rest = above := by
    have hn' : (before ++ j :: rest).Nodup := by rw [hb, ← he]; exact hn
    have hnot : j ∉ before := fun hm => (List.nodup_append.mp hn').2.2 j hm j (by simp) rfl
    have hnot' : j ∉ inner := fun hm =>
      (List.nodup_append.mp (he ▸ hn)).2.2 j hm j (by simp) rfl
    have hidx := congrArg (List.idxOf j) hb
    simp only [List.idxOf_append_of_notMem hnot, List.idxOf_append_of_notMem hnot',
      List.idxOf_cons_self] at hidx
    obtain ⟨h1, h2⟩ := List.append_inj hb (by omega)
    exact ⟨h1, by simpa using h2⟩
  rw [hsame.2]

end ScopeTree

end ScopeAnalysis
