import ScopeAnalysis.Proofs.Orderly

namespace ScopeAnalysis

open ScopeTree

/-- The walk stands at the outset of a piece with the given level and nodes. -/
structure Outset (es6 : Bool) (l : Level) (f : List Nesting) (s : Replay) : Prop where
  apart : Nesting.apartAll f
  stacked : Stacked s.tree
  edition : s.tree.options.isES6 = es6
  grounded : ∃ base, Grounded base s.tree
  clear : Clear f s.tree
  pinOpen : l = .declarators → PinOpen s

theorem Opens.isInner {es6 : Bool} {node : Node} {opens : List Event} (h : Opens es6 node opens) :
    ∀ e ∈ opens, e.isInner := by
  cases h <;> simp_all [Event.isInner]

namespace Outset

variable {es6 : Bool} {l : Level} {f f' : List Nesting} {s : Replay} {es : List Event}

theorem run (h : Outset es6 l f s) (hw : Walked es6 l f es) :
    Steps .orderly s.tree (s.run es).tree ∧ Spares l s.tree (s.run es).tree := by
  obtain ⟨base, hg⟩ := h.grounded
  exact hw.orderly h.apart h.stacked h.edition hg h.clear h.pinOpen

/-- Only declarators care for the pinned scope. -/
theorem relevel (h : Outset es6 l f s) {l' : Level} (hl : l' ≠ .declarators) :
    Outset es6 l' f s :=
  ⟨h.apart, h.stacked, h.edition, h.grounded, h.clear, fun he => absurd he hl⟩

theorem left (h : Outset es6 l (f ++ f') s) : Outset es6 l f s := by
  have hapart := h.apart
  rw [Nesting.apartAll_append, Bool.and_eq_true] at hapart
  exact ⟨hapart.1, h.stacked, h.edition, h.grounded,
    h.clear.mono h.stacked (.refl _) List.suffix_rfl (by simp), h.pinOpen⟩

/-- What comes after a piece finds fewer open scopes than the piece did. -/
theorem right (h : Outset es6 l (f ++ f') s) (hw : Walked es6 l f es) :
    Outset es6 l f' (s.run es) := by
  have hapart := h.apart
  rw [Nesting.apartAll_append, Bool.and_eq_true] at hapart
  obtain ⟨hsuffix, hpinned⟩ := hw.balanced h.stacked h.edition
  have hgrows := Replay.run_grows h.stacked es
  obtain ⟨base, hg⟩ := h.grounded
  refine ⟨hapart.2, Replay.run_stacked h.stacked es, hgrows.options ▸ h.edition,
    ⟨base, (hg.run h.stacked hw.isInner).2⟩, h.clear.mono h.stacked hgrows hsuffix (by simp), ?_⟩
  rintro rfl i hi
  rw [(h.left.run hw).2.steady (by simp)]
  refine h.pinOpen rfl i ?_
  simpa [Replay.scope?, hpinned] using hi

/-- Inside of a node that opens scopes. -/
theorem inside {node : Node} {opens : List Event} (h : Outset es6 l [.mk node f] s)
    (ho : Opens es6 node opens) : Outset es6 .exposed f (s.run opens) := by
  have hapart := h.apart
  simp only [Nesting.apartAll, Nesting.apart, Bool.and_true, Bool.and_eq_true,
    Bool.not_eq_true', List.contains_eq_mem, decide_eq_false_iff_not] at hapart
  obtain ⟨new, _, hopened, hblocks, _⟩ := ho.run h.stacked h.edition
  have hgrows := Replay.run_grows h.stacked opens
  obtain ⟨base, hg⟩ := h.grounded
  exact ⟨hapart.2, Replay.run_stacked h.stacked opens, hgrows.options ▸ h.edition,
    ⟨base, (hg.run h.stacked ho.isInner).2⟩,
    h.clear.enter hapart.1 hopened hblocks fun i hi => hgrows.blockOf (h.stacked.stack_lt hi),
    by simp⟩

theorem pin (h : Outset es6 l f s) {target : Target} (ht : target ≠ .pinned) :
    Outset es6 .declarators f (s.step (.pin target)) :=
  ⟨h.apart, h.stacked, h.edition, h.grounded, h.clear,
    fun _ _ hi => scope?_mem_stack h.stacked ht hi⟩

end Outset

/-- Between two items the walk may go on with any of them. -/
theorem AtItem.outset {o : Options} {p : Program} {s : Replay} (h : AtItem o p s)
    {f : List Nesting} (hapart : Nesting.apartAll f) (hnode : p.node ∉ Nesting.nodesOfAll f) :
    Outset o.isES6 .exposed f s := by
  refine ⟨hapart, h.consistent.stacked, by rw [h.options], ⟨_, h.grounded⟩, ?_, by simp⟩
  intro i hi node hblock
  cases Option.some.inj (hblock.symm.trans (h.blockOf hi))
  exact hnode

end ScopeAnalysis
