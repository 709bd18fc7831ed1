import ScopeAnalysis.Proofs.Items

namespace ScopeAnalysis

/-- The error of an item that stands in a program without a module scope. -/
def ModuleItem.misplaced? : ModuleItem → Option AnalysisError
  | .importDecl span _ => some (.importOutsideModule span)
  | .exportNamed span _ none _ => some (.exportSpecifierOutsideModule span)
  | .exportNamed span _ (some _) _ => some (.exportOutsideModule span)
  | .exportDecl span _ => some (.exportOutsideModule span)
  | .exportDefaultFunction span _ _ => some (.exportOutsideModule span)
  | .exportDefaultClass span _ _ => some (.exportOutsideModule span)
  | .exportDefaultType span => some (.exportOutsideModule span)
  | .exportDefaultExpr span _ => some (.exportOutsideModule span)
  | .exportAll span _ => some (.exportOutsideModule span)
  | .stmt _ | .importEquals .. | .exportAssignment _ | .namespaceExport => none

variable {o : Options} {p : Program} {s : Replay}

theorem AtItem.error?_eq (h : AtItem o p s) (item : ModuleItem) :
    item.error? s.tree = if o.hasModuleScope then none else item.misplaced? := by
  have hoptions := h.options
  have hmodule := h.inModule
  cases item with
  | exportNamed span specifiers source typeOnly =>
    cases source <;> simp [ModuleItem.error?, ModuleItem.misplaced?, hmodule]
  | importDecl | exportDecl | exportDefaultFunction | exportDefaultClass | exportDefaultType
  | exportDefaultExpr | exportAll | stmt | importEquals | exportAssignment | namespaceExport =>
    simp [ModuleItem.error?, ModuleItem.misplaced?, hoptions, hmodule]

theorem AtItem.runItems_module (h : AtItem o p s) (hm : o.hasModuleScope = true)
    (items : List ModuleItem) : ∃ s', s.runItems items = .ok s' := by
  induction items generalizing s with
  | nil => exact ⟨s, rfl⟩
  | cons item items ih =>
    have hnone : item.error? s.tree = none := by simp [h.error?_eq, hm]
    simp only [Replay.runItems, hnone]
    exact ih (h.item item)

/-- Without a module scope the first misplaced item decides. -/
theorem AtItem.runItems_script (h : AtItem o p s) (hm : o.hasModuleScope = false)
    (items : List ModuleItem) :
    match items.findSome? ModuleItem.misplaced? with
    | some e => s.runItems items = .error e
    | none => ∃ s', s.runItems items = .ok s' := by
  induction items generalizing s with
  | nil => exact ⟨s, rfl⟩
  | cons item items ih =>
    have herror : item.error? s.tree = item.misplaced? := by simp [h.error?_eq, hm]
    rw [List.findSome?_cons]
    cases he : item.misplaced? with
    | some e => simp only [Replay.runItems, herror, he]
    | none =>
      simp only [Replay.runItems, herror, he]
      exact ih (h.item item)

theorem analyze_module (hm : o.hasModuleScope = true) (p : Program) :
    ∃ m, analyze o p = .ok m := by
  obtain ⟨s, hs⟩ := (AtItem.first o p).runItems_module hm p.items
  exact ⟨s.tree.closeFor p.node, by simp only [analyze, hs]⟩

theorem analyze_script (hm : o.hasModuleScope = false) (p : Program) :
    match p.items.findSome? ModuleItem.misplaced? with
    | some e => analyze o p = .error e
    | none => ∃ m, analyze o p = .ok m := by
  have hrun := (AtItem.first o p).runItems_script hm p.items
  cases hf : p.items.findSome? ModuleItem.misplaced? with
  | some e =>
    rw [hf] at hrun
    simp only [analyze, hrun]
  | none =>
    rw [hf] at hrun
    obtain ⟨s, hs⟩ := hrun
    exact ⟨s.tree.closeFor p.node, by simp only [analyze, hs]⟩

theorem hasModuleScope_iff (o : Options) :
    o.hasModuleScope = true ↔ o.isES6 = true ∧ o.sourceType = .module := by
  simp [Options.hasModuleScope, Options.isModule]

/-- Only modules have misplaced items, and the first of them is found. -/
theorem items_misplaced_iff (p : Program) (e : AnalysisError) :
    p.items.findSome? ModuleItem.misplaced? = some e ↔
      ∃ span before item after, p = .module span (before ++ item :: after) ∧
        (∀ i ∈ before, i.misplaced? = none) ∧ item.misplaced? = some e := by
  cases p with
  | script span body =>
    have hnone : (Program.script span body).items.findSome? ModuleItem.misplaced? = none := by
      simp [Program.items, ModuleItem.misplaced?]
    simp [hnone]
  | module span body =>
    rw [Program.items, List.findSome?_eq_some_iff]
    constructor
    · rintro ⟨before, item, after, rfl, he, hbefore⟩
      exact ⟨span, before, item, after, rfl, hbefore, he⟩
    · rintro ⟨span', before, item, after, hp, hbefore, he⟩
      cases hp
      exact ⟨before, item, after, rfl, he, hbefore⟩

/-- An analysis fails exactly on module syntax in a module that is not analysed as one. The error is
that of the first such item. -/
theorem analyze_error_iff (o : Options) (p : Program) :
    (∀ e, analyze o p = .error e ↔
      ¬ (o.isES6 = true ∧ o.sourceType = .module) ∧
        ∃ span before item after, p = .module span (before ++ item :: after) ∧
          (∀ i ∈ before, i.misplaced? = none) ∧ item.misplaced? = some e) ∧
    ((∃ m, analyze o p = .ok m) ↔
      (o.isES6 = true ∧ o.sourceType = .module) ∨ ∀ item ∈ p.items, item.misplaced? = none) := by
  rw [← hasModuleScope_iff]
  cases hm : o.hasModuleScope with
  | true =>
    obtain ⟨m, hok⟩ := analyze_module hm p
    simp [hok]
  | false =>
    have hscript := analyze_script hm p
    rw [← List.findSome?_eq_none_iff]
    simp only [← items_misplaced_iff]
    cases hf : p.items.findSome? ModuleItem.misplaced? with
    | some e =>
      rw [hf] at hscript
      simp [hscript]
    | none =>
      rw [hf] at hscript
      obtain ⟨m, hok⟩ := hscript
      simp [hok]

end ScopeAnalysis
