import ScopeAnalysis.Proofs.Recorded
import ScopeAnalysis.Proofs.Sites

namespace ScopeAnalysis

/-- The identifiers that references of mode `read` stand at. -/
def ScopeTree.reads (t : ScopeTree) : List Ident :=
  (t.references.toList.filter (·.access.mode = .read)).map fun r => ⟨r.name, r.identifier⟩

/-- The identifiers in value position. -/
def Program.values (p : Program) : List Ident :=
  (p.sites.filter (·.position = .value)).map Site.id

theorem Access.normalized_mode (a : Access) : a.normalized.mode = a.mode := by
  unfold normalized
  split
  next h => exact h.symm
  next => rfl

/-- An event that reads a name notes the name in value position. -/
theorem Event.occurrence?_read (e : Event) :
    (e.occurrence?.toList.filter (·.access.mode = .read)).map (fun c => ⟨c.name, c.identifier⟩) =
      (e.site?.toList.filter (·.position = .value)).map Site.id := by
  cases e with
  | refer name access creator =>
    by_cases hread : access.mode = .read <;>
      simp [Event.occurrence?, Event.site?, Access.normalized_mode, hread]
  | define target name d =>
    cases hkind : d.kind <;> simp [Event.occurrence?, Event.site?, DefinitionKind.position?, hkind]
  | _ => rfl

theorem Event.occurrences_reads (es : List Event) :
    ((Event.occurrences es).filter (·.access.mode = .read)).map (fun c => ⟨c.name, c.identifier⟩) =
      ((es.filterMap Event.site?).filter (·.position = .value)).map Site.id := by
  induction es with
  | nil => rfl
  | cons e es ih =>
    have hsites : (e :: es).filterMap Event.site? =
        e.site?.toList ++ es.filterMap Event.site? := by
      cases h : e.site? <;> simp [h]
    unfold Event.occurrences at ih ⊢
    rw [List.flatMap_cons, hsites, List.filter_append, List.filter_append, List.map_append,
      List.map_append, e.occurrence?_read, ih]

/-- Value positions are noted, so that filtering for them may be done first. -/
theorem Site.value_of_noted (sites : List Site) :
    (sites.filter (·.position.isNoted)).filter (·.position = .value) =
      sites.filter (·.position = .value) := by
  rw [List.filter_filter]
  refine List.filter_congr fun s _ => ?_
  cases s.position <;> rfl

theorem analyze_reads {o : Options} {p : Program} {m : ScopeTree} (h : analyze o p = .ok m) :
    m.reads.Perm p.values := by
  have hnoted : (p.events.filterMap Event.site?).Perm (p.sites.filter (·.position.isNoted)) :=
    Multiset.coe_eq_coe.mp p.notes
  have hoccurrences := (analyze_records h).1
  have hreads : m.reads =
      ((p.events.filterMap Event.site?).filter (·.position = .value)).map Site.id := by
    rw [← Event.occurrences_reads, ← hoccurrences, ScopeTree.occurrences, List.filter_map,
      List.map_map]
    rfl
  rw [hreads, Program.values, ← Site.value_of_noted p.sites]
  exact (hnoted.filter _).map Site.id

/-- The references of mode `read` stand at the identifiers in value position, as often as these
occur. If no two identifiers have the same place, then each of them is read once, if it is in value
position, and not at all otherwise. -/
theorem value_positions_read_once {o : Options} {p : Program} {m : ScopeTree}
    (h : analyze o p = .ok m) :
    let reads := (m.references.toList.filter (·.access.mode = .read)).map Reference.identifier
    reads.Perm ((p.sites.filter (·.position = .value)).map (·.id.span)) ∧
      ((p.sites.map (·.id.span)).Nodup → ∀ s ∈ p.sites,
        reads.count s.id.span = if s.position = .value then 1 else 0) := by
  intro reads
  have hperm : reads.Perm ((p.sites.filter (·.position = .value)).map (·.id.span)) := by
    have hspans := (analyze_reads h).map Ident.span
    rwa [ScopeTree.reads, Program.values, List.map_map, List.map_map] at hspans
  refine ⟨hperm, fun hnodup s hs => ?_⟩
  rw [hperm.count_eq]
  have hvalues := hnodup.sublist ((List.filter_sublist (l := p.sites)
    (p := fun s => decide (s.position = .value))).map (·.id.span))
  split
  next hvalue =>
    refine List.count_eq_one_of_mem hvalues (List.mem_map_of_mem ?_)
    exact List.mem_filter.mpr ⟨hs, decide_eq_true hvalue⟩
  next hother =>
    -- a value at the same place would be the same node
    refine List.count_eq_zero.mpr fun hmem => ?_
    obtain ⟨s', hs', hspan⟩ := List.mem_map.mp hmem
    obtain ⟨hs', hvalue⟩ := List.mem_filter.mp hs'
    have heq := List.inj_on_of_nodup_map hnodup hs' hs hspan
    subst heq
    exact hother (of_decide_eq_true hvalue)

/-- `f(<A.b c={d} />); [g = h, i.j] = { k, l: m++ }; function n(q = r); export { o as s };` -/
def scatteredReads : Program :=
  .module ⟨1, 86⟩ [
    .stmt (.expr (.call ⟨1, 17⟩ (some (.ident ⟨"f", ⟨1, 2⟩⟩)) [
      .element ⟨3, 16⟩ (.member (.ident ⟨"A", ⟨4, 5⟩⟩)) [.ident ⟨"d", ⟨11, 12⟩⟩]])),
    .stmt (.expr (.assign ⟨19, 47⟩ false
      (.array [.assign (.ident ⟨"g", ⟨20, 21⟩⟩) (.ident ⟨"h", ⟨24, 25⟩⟩),
        .expr (.operation ⟨27, 30⟩ [.ident ⟨"i", ⟨27, 28⟩⟩])])
      (.object ⟨34, 47⟩ [.shorthand ⟨"k", ⟨36, 37⟩⟩,
        .value none (.update ⟨42, 45⟩ (.ident ⟨"m", ⟨42, 43⟩⟩))]))),
    .stmt (.decl (.function ⟨"n", ⟨58, 59⟩⟩ (.mk ⟨49, 67⟩ []
      [.mk [] false (.assign (.ident ⟨"q", ⟨60, 61⟩⟩) (.ident ⟨"r", ⟨64, 65⟩⟩))] none))),
    .exportNamed ⟨68, 86⟩ [.named ⟨77, 83⟩ (.ident ⟨"o", ⟨77, 78⟩⟩)
      (some (.ident ⟨"s", ⟨82, 83⟩⟩)) false] none false]

theorem scatteredReads_once :
    ∃ m, analyze .ofModule scatteredReads = .ok m ∧
      (scatteredReads.sites.map (·.id.span)).Nodup ∧
      scatteredReads.values.map Ident.name = ["f", "A", "d", "h", "i", "k", "o"] ∧
      m.references.size = 10 ∧
      let reads := (m.references.toList.filter (·.access.mode = .read)).map Reference.identifier
      reads.Perm ((scatteredReads.sites.filter (·.position = .value)).map (·.id.span)) ∧
        ∀ s ∈ scatteredReads.sites, reads.count s.id.span = if s.position = .value then 1 else 0 := by
  have hnodup : (scatteredReads.sites.map (·.id.span)).Nodup := by decide +kernel
  refine ⟨_, rfl, hnodup, by decide +kernel, by decide +kernel, ?_⟩
  have hall := @value_positions_read_once .ofModule scatteredReads _ rfl
  exact ⟨hall.1, hall.2 hnodup⟩

end ScopeAnalysis
