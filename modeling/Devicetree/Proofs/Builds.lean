import Devicetree.Proofs.Steps

namespace Devicetree.Proofs

theorem bound_declare (labels : Labels) (f : Fragment) : (labels.declare f).bound = labels.bound := by
  unfold Labels.declare
  split <;> rfl

theorem bound_ofFragments (fragments : List Fragment) : (Labels.ofFragments fragments).bound = {} := by
  have main : ∀ labels : Labels, (fragments.foldl Labels.declare labels).bound = labels.bound := by
    induction fragments with
    | nil => exact fun _ => rfl
    | cons f fs ih => exact fun labels => (ih (labels.declare f)).trans (bound_declare labels f)
  exact main {}

theorem node_start (config : BuildConfig) (fragments : List Fragment) (id : NodeId) :
    (Build.start config fragments).graph.node id = {} := by
  obtain ⟨i⟩ := id
  cases i <;> rfl

/-- A merge starts with the root alone. -/
theorem start_ready (config : BuildConfig) (fragments : List Fragment) :
    Ready (Build.start config fragments) := by
  have hnode := node_start config fragments
  have hsize : (Build.start config fragments).graph.nodes.size = 1 := rfl
  refine ⟨⟨?_, ?_⟩, by simp [openNodes, Build.start]⟩
  · refine ⟨Nat.one_pos, ?_, ?_, ?_, ?_, ?_⟩
    · intro id
      rw [hnode]
      constructor <;> simp
    · intro id h
      exact absurd h (Nat.not_lt_zero _)
    · intro id
      have hnone : (Build.start config fragments).graph.directive id = default := rfl
      rw [hnone]
      constructor <;> intro _ h <;> cases h
    · simp [Build.start, Graph.empty]
    · intro e he
      simp [Build.start, bound_ofFragments] at he
  · refine ⟨?_, ?_, ?_, ?_, ?_, ?_, ?_⟩
    · intro id hid
      have hzero : id = Graph.root := by
        obtain ⟨i⟩ := id
        have hi : i < 1 := hid
        exact congrArg NodeId.mk (by omega)
      simp [Graph.parent?, hnode, hzero]
    all_goals simp [Graph.parent?, Graph.children, hnode]

/-- The state of the merge of some fragments after its first `n` edits. -/
def moment (config : BuildConfig) (fragments : List Fragment) (n : Nat) :
    Except BuildError Merge.State :=
  Merge.run config.options (Build.start config fragments) ((Edit.ofFragments 0 fragments).take n)

/-- At every moment of every merge all stored numbers are in range and all links are in order. -/
theorem moment_linked (config : BuildConfig) (fragments : List Fragment) (n : Nat) :
    ∃ s, moment config fragments n = .ok s ∧ Bounded s.graph ∧ Linked s.graph := by
  obtain ⟨s, hrun, _, hs⟩ := run_advances config.options (start_ready config fragments)
    ((Edit.ofFragments 0 fragments).take n)
  exact ⟨s, hrun, hs.sound.bounded, hs.sound.linked⟩

/-- Merging fragments either applies all their edits or stops because it is cancelled. -/
theorem mergeFrom_cases (options : BuildOptions) (isCancelled : Nat → Bool) (total index : Nat)
    (fragments : List Fragment) {s : Merge.State} (hs : Ready s) :
    (∃ s', Build.mergeFrom options isCancelled total index fragments s = .ok s' ∧
      Merge.run options s (Edit.ofFragments index fragments) = .ok s') ∨
    ∃ i, isCancelled i = true ∧
      Build.mergeFrom options isCancelled total index fragments s = .error (.cancelled i total) := by
  induction fragments generalizing index s with
  | nil => exact Or.inl ⟨s, rfl, rfl⟩
  | cons f fs ih =>
    cases hc : isCancelled index with
    | true => exact Or.inr ⟨index, hc, by simp [Build.mergeFrom, hc]⟩
    | false =>
      obtain ⟨s₁, hrun, _, hs₁⟩ := run_advances options hs (Edit.ofFragment index f)
      have hmerge : Build.mergeFrom options isCancelled total index (f :: fs) s =
          Build.mergeFrom options isCancelled total (index + 1) fs s₁ := by
        simp only [Build.mergeFrom, hc, Bool.false_eq_true, if_false, hrun]
        rfl
      have hedits : Merge.run options s (Edit.ofFragments index (f :: fs)) =
          Merge.run options s₁ (Edit.ofFragments (index + 1) fs) :=
        run_append hrun _
      rw [hmerge, hedits]
      exact ih (index + 1) hs₁

theorem build_never_cancelled (config : BuildConfig) (fragments : List Fragment) :
    ∃ g, Build.build config fragments (fun _ => false) = .ok g := by
  rcases mergeFrom_cases config.options (fun _ => false) fragments.length 0 fragments
    (start_ready config fragments) with ⟨s, hs, _⟩ | ⟨i, hi, _⟩
  · exact ⟨s.graph.finish config.options, by rw [Build.build, hs]; rfl⟩
  · cases hi

/-- A build that is not cancelled returns a graph, and being cancelled is the only way to fail. -/
theorem build_succeeds (config : BuildConfig) (fragments : List Fragment) :
    (∃ g, Build.build config fragments (fun _ => false) = .ok g) ∧
      ∀ isCancelled violation,
        Build.build config fragments isCancelled ≠ .error (.invariant violation) := by
  refine ⟨build_never_cancelled config fragments, ?_⟩
  intro isCancelled violation h
  rcases mergeFrom_cases config.options isCancelled fragments.length 0 fragments
    (start_ready config fragments) with ⟨s, hs, _⟩ | ⟨i, _, hs⟩
  · rw [Build.build, hs] at h
    cases h
  · rw [Build.build, hs] at h
    cases h

/-- A built graph is what all edits lead to, with phandles derived at the end. -/
theorem built_of_run {config : BuildConfig} {fragments : List Fragment} {isCancelled : Nat → Bool}
    {g : Graph} (h : Build.build config fragments isCancelled = .ok g) :
    ∃ s, Merge.run config.options (Build.start config fragments) (Edit.ofFragments 0 fragments) = .ok s ∧
      Changes (Build.start config fragments).graph s.graph ∧ Ready s ∧
      g = s.graph.finish config.options := by
  have hstart := start_ready config fragments
  obtain ⟨s, hrun, hc, hs⟩ := run_advances config.options hstart (Edit.ofFragments 0 fragments)
  rcases mergeFrom_cases config.options isCancelled fragments.length 0 fragments hstart with
    ⟨t, ht, hrun'⟩ | ⟨i, _, ht⟩
  · obtain rfl : s = t := Except.ok.inj (hrun.symm.trans hrun')
    rw [Build.build, ht] at h
    exact ⟨s, hrun, hc, hs, (Except.ok.inj h).symm⟩
  · rw [Build.build, ht] at h
    cases h

section Finish
variable (g : Graph) (options : BuildOptions)

/-- Phandles apart, the last pass leaves every node as it was. -/
theorem view_finish {α : Type} (view : Node → α) (hv : ∀ n p, view { n with phandle := p } = view n)
    (n : NodeId) : view ((g.finish options).node n) = view (g.node n) := by
  have hassign : view (g.assignPhandles.node n) = view (g.node n) := by
    obtain ⟨i⟩ := n
    simp only [Graph.node, Graph.assignPhandles, Array.getD_eq_getD_getElem?, Array.getElem?_map]
    cases g.nodes[i]? with
    | none => rfl
    | some x => exact hv x _
  unfold Graph.finish
  split
  · exact hassign
  · exact hassign

@[simp] theorem size_finish : (g.finish options).nodes.size = g.nodes.size := by
  unfold Graph.finish
  split <;> simp [Graph.assignPhandles]

@[simp] theorem properties_finish : (g.finish options).properties = g.properties := by
  unfold Graph.finish
  split <;> rfl

@[simp] theorem directives_finish : (g.finish options).directives = g.directives := by
  unfold Graph.finish
  split <;> rfl

@[simp] theorem orphans_finish : (g.finish options).orphans = g.orphans := by
  unfold Graph.finish
  split <;> rfl

@[simp] theorem labels_finish : (g.finish options).labels = g.labels := by
  unfold Graph.finish
  split <;> rfl

theorem grown_finish : Grown g (g.finish options) := ⟨by simp, by simp, by simp⟩

theorem Sound.finish {g : Graph} (hs : Sound g) : Sound (g.finish options) := by
  have hnode : ∀ n, NodeBounded g ((g.finish options).node n) = NodeBounded g (g.node n) :=
    view_finish g options (NodeBounded g) fun n p => propext ⟨fun h => { h with }, fun h => { h with }⟩
  refine ⟨hs.bounded.extend (grown_finish g options) ?_ ?_ ?_ ?_ ?_, ?_⟩
  · intro id
    exact Or.inr (((hnode id).mpr (hs.bounded.node id)).mono (grown_finish g options))
  · intro id hp
    exact Or.inl ⟨by simpa [HasProperty] using hp, by simp [Graph.property]⟩
  · intro id
    exact Or.inl (by simp [Graph.directive])
  · intro id hid
    exact Or.inl (by simpa using hid)
  · intro e he
    exact Or.inl (by simpa using he)
  · exact hs.linked.congr hs.bounded (by simp) (by simp) (view_finish g options Place.of fun _ _ => rfl)
      (fun d _ => by simp [Graph.directive])

end Finish

/-- All numbers are in range and all links in order in every built graph too. -/
theorem built_sound {config : BuildConfig} {fragments : List Fragment} {isCancelled : Nat → Bool}
    {g : Graph} (h : Build.build config fragments isCancelled = .ok g) : Sound g := by
  obtain ⟨s, _, _, hs, rfl⟩ := built_of_run h
  exact hs.sound.finish config.options

end Devicetree.Proofs
