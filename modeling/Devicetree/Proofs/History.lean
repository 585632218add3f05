import Devicetree.Proofs.TreeMerge

namespace Devicetree.Proofs

structure NodeSince (n n' : Node) : Prop where
  name : n'.name = n.name
  parent : n'.parent = n.parent
  definitions : n.definitions <+: n'.definitions
  referencedBy : n.referencedBy <+: n'.referencedBy
  labels : n.labels <+: n'.labels
  history : n.history <+: n'.history
  directives : n.directives <+: n'.directives
  deletedChildren : n.deletedChildren <+: n'.deletedChildren
  deletedProperties : n.deletedProperties <+: n'.deletedProperties
  deletedBy : ∀ d, n.deletedBy = some d → n'.deletedBy = some d
  closed : n.deletedBy ≠ none → n'.definitions = n.definitions ∧ n'.referencedBy = n.referencedBy

structure PropertySince (p p' : Property) : Prop where
  name : p'.name = p.name
  owner : p'.owner = p.owner
  values : p'.values = p.values
  labels : p'.labels = p.labels
  site : p'.site = p.site
  replaces : p'.replaces = p.replaces
  replacedBy : ∀ q, p.replacedBy = some q → p'.replacedBy = some q
  deletedBy : ∀ d, p.deletedBy = some d → p'.deletedBy = some d

/-- What a later graph keeps of an earlier one. -/
structure Since (g g' : Graph) : Prop where
  grown : Grown g g'
  node : ∀ n, HasNode g n → NodeSince (g.node n) (g'.node n)
  property : ∀ p, HasProperty g p → PropertySince (g.property p) (g'.property p)
  directive : ∀ d, HasDirective g d → g'.directive d = g.directive d
  declared : g'.labels.declared = g.labels.declared

theorem has_node_of_deleted {g : Graph} {id : NodeId} {d : DirectiveId}
    (h : (g.node id).deletedBy = some d) : HasNode g id := by
  apply Classical.byContradiction
  intro hn
  rw [node_of_not_has hn] at h
  cases h

theorem NodeSince.refl (n : Node) : NodeSince n n := by
  constructor <;> simp

theorem NodeSince.trans {n n' n'' : Node} (h : NodeSince n n') (h' : NodeSince n' n'') :
    NodeSince n n'' where
  name := h'.name.trans h.name
  parent := h'.parent.trans h.parent
  definitions := h.definitions.trans h'.definitions
  referencedBy := h.referencedBy.trans h'.referencedBy
  labels := h.labels.trans h'.labels
  history := h.history.trans h'.history
  directives := h.directives.trans h'.directives
  deletedChildren := h.deletedChildren.trans h'.deletedChildren
  deletedProperties := h.deletedProperties.trans h'.deletedProperties
  deletedBy d hd := h'.deletedBy d (h.deletedBy d hd)
  closed hd := by
    obtain ⟨d, hsome⟩ := Option.ne_none_iff_exists'.mp hd
    have hd' : n'.deletedBy ≠ none := by simp [h.deletedBy d hsome]
    exact ⟨(h'.closed hd').1.trans (h.closed hd).1, (h'.closed hd').2.trans (h.closed hd).2⟩

theorem PropertySince.refl (p : Property) : PropertySince p p := by
  constructor <;> simp

theorem PropertySince.trans {p p' p'' : Property} (h : PropertySince p p')
    (h' : PropertySince p' p'') : PropertySince p p'' where
  name := h'.name.trans h.name
  owner := h'.owner.trans h.owner
  values := h'.values.trans h.values
  labels := h'.labels.trans h.labels
  site := h'.site.trans h.site
  replaces := h'.replaces.trans h.replaces
  replacedBy q hq := h'.replacedBy q (h.replacedBy q hq)
  deletedBy d hd := h'.deletedBy d (h.deletedBy d hd)

theorem Since.refl (g : Graph) : Since g g :=
  ⟨Grown.refl g, fun _ _ => .refl _, fun _ _ => .refl _, fun _ _ => rfl, rfl⟩

theorem Since.trans {g g' g'' : Graph} (h : Since g g') (h' : Since g' g'') : Since g g'' where
  grown := h.grown.trans h'.grown
  node n hn := (h.node n hn).trans (h'.node n (h.grown.has_node hn))
  property p hp := (h.property p hp).trans (h'.property p (h.grown.has_property hp))
  directive d hd := (h'.directive d (h.grown.has_directive hd)).trans (h.directive d hd)
  declared := h'.declared.trans h.declared

/-- An update of one node that only adds to its record. -/
theorem since_modifyNode {g : Graph} {id : NodeId} {f : Node → Node} (has : HasNode g id)
    (hf : NodeSince (g.node id) (f (g.node id))) : Since g (g.modifyNode id f) := by
  refine ⟨grown_modifyNode g id f, ?_, fun p _ => .refl _, fun _ _ => rfl, rfl⟩
  intro n _
  rw [node_modifyNode g id f has]
  split
  · rename_i he
    exact he ▸ hf
  · exact .refl _

/-- Each elementary change only adds to what there is. -/
theorem Change.since {g g' : Graph} (hs : Sound g) (hl : Ledger g) (h : Change g g') : Since g g' := by
  have hgrown := h.grown
  cases h with
  | report log => exact ⟨hgrown, fun n _ => .refl _, fun p _ => .refl _, fun _ _ => rfl, rfl⟩
  | define id kind site has kept =>
    exact since_modifyNode has { NodeSince.refl (g.node id) with
      definitions := List.prefix_append _ _
      closed := fun hd => absurd kept hd }
  | refer id site has kept =>
    exact since_modifyNode has { NodeSince.refl (g.node id) with
      referencedBy := List.prefix_append _ _
      closed := fun hd => absurd kept hd }
  | again id m has =>
    exact since_modifyNode has { NodeSince.refl (g.node id) with labels := List.prefix_append _ _ }
  | hold id m has =>
    have hbind : Since g (g.bindLabel id m) :=
      ⟨⟨Nat.le_refl _, Nat.le_refl _, Nat.le_refl _⟩, fun n _ => .refl _, fun p _ => .refl _,
        fun _ _ => rfl, rfl⟩
    exact hbind.trans (since_modifyNode has
      { NodeSince.refl (g.node id) with labels := List.prefix_append _ _ })
  | child name parent has =>
    refine ⟨hgrown, ?_, fun p _ => .refl _, fun _ _ => rfl, rfl⟩
    intro n hn
    rw [node_addChild g name has, if_neg hn.ne_next]
    split
    · exact { NodeSince.refl (g.node n) with }
    · exact .refl _
  | orphan =>
    refine ⟨hgrown, ?_, fun p _ => .refl _, fun _ _ => rfl, rfl⟩
    intro n hn
    rw [node_addOrphan, if_neg hn.ne_next]
    exact .refl _
  | property owner name values labels site has =>
    refine ⟨hgrown, ?_, ?_, fun d _ => by simp [Graph.directive], by simp⟩
    · intro n _
      rw [node_setProperty g owner name values labels site has]
      split
      · exact { NodeSince.refl (g.node n) with history := List.prefix_append _ _ }
      · exact .refl _
    · intro p hp
      rw [property_setProperty g owner name values labels site
        (fun q hq => hs.bounded.live_property hq), if_neg hp.ne_next]
      split
      · rename_i hlive
        have hnot := (hl.current owner name p hlive).not_replaced
        exact { PropertySince.refl (g.property p) with
          replacedBy := fun q hq => by rw [hnot] at hq; cases hq }
      · exact .refl _
  | directive x bounded =>
    refine ⟨hgrown, ?_, fun p _ => by simpa [Graph.property] using PropertySince.refl _, ?_, ?_⟩
    · intro n hn
      unfold Graph.addDirective
      split
      · rename_i scope hscope
        have hdir := since_modifyNode (g := { g with directives := g.directives.push x })
          (f := fun n => { n with directives := n.directives ++ [g.nextDirective] })
          (bounded.scope scope hscope)
          { NodeSince.refl (g.node scope) with directives := List.prefix_append _ _ }
        exact hdir.node n hn
      · exact .refl _
    · intro d hd
      rw [directive_addDirective, if_neg hd.ne_next]
    · unfold Graph.addDirective
      split <;> rfl
  | dropChild parent id d isParent isChild =>
    refine ⟨hgrown, ?_, fun p _ => .refl _, fun _ _ => rfl, rfl⟩
    intro n _
    have hhas := (hs.bounded.node id).parent parent isParent
    have hne : parent ≠ id := by
      rintro rfl
      exact Nat.lt_irrefl _ (hs.linked.older _ _ isParent)
    rw [node_dropChild g d hhas (has_node_of_parent isParent) hne]
    split
    · rename_i he
      subst he
      have hkept := hs.linked.child_kept isChild
      exact { NodeSince.refl (g.node n) with
        deletedBy := fun e hd => by rw [hkept] at hd; cases hd
        closed := fun hd => absurd hkept hd }
    · split
      · exact { NodeSince.refl (g.node n) with deletedChildren := List.prefix_append _ _ }
      · exact .refl _
  | dropProperty owner name p d has current =>
    refine ⟨hgrown, ?_, ?_, fun _ _ => rfl, rfl⟩
    · intro n _
      rw [node_dropProperty g name p d has]
      split
      · exact { NodeSince.refl (g.node n) with deletedProperties := List.prefix_append _ _ }
      · exact .refl _
    · intro q _
      rw [property_dropProperty g owner name d (hs.bounded.live_property current)]
      split
      · rename_i he
        subst he
        have hnot := (hl.current owner name q current).not_deleted
        exact { PropertySince.refl (g.property q) with
          deletedBy := fun e hd => by rw [hnot] at hd; cases hd }
      · exact .refl _

/-- What each elementary change keeps, any number of them keep. -/
theorem Changes.since {g g' : Graph} (hs : Sound g) (hl : Ledger g) (h : Changes g g') :
    Since g g' := by
  induction h with
  | refl => exact .refl g
  | tail hc h ih => exact ih.trans (h.since (hs.changes hc) (hl.changes hs hc))

theorem since_finish (g : Graph) (options : BuildOptions) : Since g (g.finish options) := by
  refine ⟨grown_finish g options, ?_, fun p _ => ?_, fun d _ => by simp [Graph.directive], by simp⟩
  · intro n _
    rw [view_finish g options (NodeSince (g.node n)) (fun m p => ?_) n]
    · exact .refl _
    · exact propext ⟨fun h => { h with }, fun h => { h with }⟩
  · simpa [Graph.property] using PropertySince.refl _

section Moments
variable {config : BuildConfig} {fragments : List Fragment} {n : Nat} {s : Merge.State}

theorem moment_settled (hm : moment config fragments n = .ok s) : Settled s :=
  (start_settled config fragments).run hm

/-- From any moment of a merge, elementary changes lead to the graph that is built in the end. -/
theorem moment_built {isCancelled : Nat → Bool} {g : Graph} (hm : moment config fragments n = .ok s)
    (h : Build.build config fragments isCancelled = .ok g) :
    ∃ s', Settled s' ∧ Changes s.graph s'.graph ∧ g = s'.graph.finish config.options := by
  obtain ⟨s', hrun, _, _, hg⟩ := built_of_run h
  obtain ⟨t, ht, hc, _⟩ := run_advances config.options (moment_settled hm).ready
    ((Edit.ofFragments 0 fragments).drop n)
  have hsplit : Merge.run config.options (Build.start config fragments) (Edit.ofFragments 0 fragments) =
      .ok t := by
    rw [← List.take_append_drop n (Edit.ofFragments 0 fragments)]
    exact (run_append hm _).trans ht
  obtain rfl := Except.ok.inj (hrun.symm.trans hsplit)
  exact ⟨s', (start_settled config fragments).run hrun, hc, hg⟩

/-- From any moment of a merge, elementary changes lead to every later one. -/
theorem moment_changes {m : Nat} {t : Merge.State} (hle : n ≤ m) (hs : moment config fragments n = .ok s)
    (ht : moment config fragments m = .ok t) : Changes s.graph t.graph := by
  let edits := (Edit.ofFragments 0 fragments).take m
  have hfirst : edits.take n = (Edit.ofFragments 0 fragments).take n := by
    simp [edits, List.take_take, Nat.min_eq_left hle]
  have hrun : Merge.run config.options (Build.start config fragments) (edits.take n) = .ok s := by
    rw [hfirst]
    exact hs
  obtain ⟨t', hlater, hc, _⟩ := run_advances config.options (moment_settled hs).ready (edits.drop n)
  have hwhole : moment config fragments m = .ok t' := by
    rw [moment, ← List.take_append_drop n ((Edit.ofFragments 0 fragments).take m)]
    exact (run_append hrun _).trans hlater
  obtain rfl := Except.ok.inj (ht.symm.trans hwhole)
  exact hc

end Moments

/-- The history of a merge is written once and only gets longer. Whatever there is at one moment is there at every
later one, with its name, its place, its values and its site; lists of what befell it have only been added to; marks
of deletion and replacement stay; and a deleted node gets no further contribution. -/
theorem moments_append_only (config : BuildConfig) (fragments : List Fragment) {n m : Nat} (h : n ≤ m) :
    ∃ s t, moment config fragments n = .ok s ∧ moment config fragments m = .ok t ∧ Since s.graph t.graph := by
  obtain ⟨s, hs, _⟩ := moment_linked config fragments n
  obtain ⟨t, ht, _⟩ := moment_linked config fragments m
  have hsettled := moment_settled hs
  exact ⟨s, t, hs, ht, (moment_changes h hs ht).since hsettled.ready.sound hsettled.ledger⟩

def selfRemoved : List Fragment :=
  [⟨⟨0⟩, .root [] [.child { name := { name := "soc" }, labels := [{ name := "soc" }] }
      [.property { name := "status" }]] {}⟩,
    ⟨⟨1⟩, .reference (.label "soc") [] [.property { name := "status" },
      .deleteNode { target := .ref (.label "soc") }, .property { name := "status" },
      .deleteProperty { name := "status" }, .child { name := { name := "bus" } } []] {} {}⟩,
    ⟨⟨2⟩, .root [] [.child { name := { name := "soc" }, labels := [{ name := "soc" }] } []] {}⟩]

/-- Right after the node is taken away its history is at its first two contributions, and although its body goes on
and its name is used again it stays there. -/
theorem moments_append_only_self_removed :
    8 ≤ 17 ∧ ∃ s t, moment {} selfRemoved 8 = .ok s ∧ moment {} selfRemoved 17 = .ok t ∧
      (s.graph.node ⟨1⟩).deletedBy = some ⟨0⟩ ∧ (s.graph.node ⟨1⟩).allDefinitions.length = 2 ∧
      (t.graph.node ⟨1⟩).history.length = 3 ∧ (t.graph.node ⟨3⟩).name = (s.graph.node ⟨1⟩).name ∧
      Since s.graph t.graph := by
  have hle : 8 ≤ 17 := by decide
  obtain ⟨s, t, hs, ht, hsince⟩ := moments_append_only {} selfRemoved hle
  have hcomputed : (moment {} selfRemoved 8).toOption.any (fun s =>
      (moment {} selfRemoved 17).toOption.any fun t =>
        decide ((s.graph.node ⟨1⟩).deletedBy = some ⟨0⟩ ∧ (s.graph.node ⟨1⟩).allDefinitions.length = 2 ∧
          (t.graph.node ⟨1⟩).history.length = 3 ∧
          (t.graph.node ⟨3⟩).name = (s.graph.node ⟨1⟩).name)) = true := by decide +kernel
  rw [hs, ht] at hcomputed
  obtain ⟨hdeleted, hcount, hhistory, hname⟩ := of_decide_eq_true hcomputed
  exact ⟨hle, s, t, hs, ht, hdeleted, hcount, hhistory, hname, hsince⟩

/-- A graph is built, and what is computed of it holds of it. -/
theorem exists_built {config : BuildConfig} {fragments : List Fragment} {p : Graph → Prop}
    [DecidablePred p]
    (h : (Build.build config fragments fun _ => false).toOption.any (fun g => decide (p g)) = true) :
    ∃ g, Build.build config fragments (fun _ => false) = .ok g ∧ p g := by
  obtain ⟨g, hg⟩ := build_never_cancelled config fragments
  rw [hg] at h
  exact ⟨g, hg, of_decide_eq_true h⟩

/-- The same of a graph and a moment on the way to it. -/
theorem exists_built_from {config : BuildConfig} {fragments : List Fragment} {n : Nat}
    {p : Graph → Merge.State → Prop} [∀ g s, Decidable (p g s)]
    (h : (Build.build config fragments fun _ => false).toOption.any (fun g =>
      (moment config fragments n).toOption.any fun s => decide (p g s)) = true) :
    ∃ g s, Build.build config fragments (fun _ => false) = .ok g ∧ moment config fragments n = .ok s ∧
      p g s := by
  obtain ⟨g, hg⟩ := build_never_cancelled config fragments
  obtain ⟨s, hs, _⟩ := moment_linked config fragments n
  rw [hg, hs] at h
  exact ⟨g, s, hg, hs, of_decide_eq_true h⟩

end Devicetree.Proofs
