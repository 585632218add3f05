import Devicetree.Proofs.History

namespace Devicetree.Proofs

def Done (g : Graph) (d : DirectiveId) : Option Removed → Prop
  | none => True
  | some (.node id) => (g.node id).deletedBy = some d
  | some (.property p) => (g.property p).deletedBy = some d

/-- Every directive has removed what it names. -/
def Executed (g : Graph) : Prop := ∀ d, Done g d (g.directive d).removed

/-- The directives that a graph has by now are in effect, and no others. -/
def inEffect (g : Graph) : Scope := fun d => decide (d.index < g.directives.size)

section Executed
variable {g g' : Graph}

theorem Done.since {d : DirectiveId} {removed : Option Removed} (h : Done g d removed)
    (hs : Since g g') : Done g' d removed := by
  match removed with
  | none => trivial
  | some (.node id) => exact (hs.node id (has_node_of_deleted h)).deletedBy d h
  | some (.property p) =>
    exact (hs.property p (has_property_of_link Property.deletedBy rfl h)).deletedBy d h

theorem Executed.keep (he : Executed g) (hs : Since g g') (h : g'.directives = g.directives) :
    Executed g' := by
  intro d
  have hsame : g'.directive d = g.directive d := by simp [Graph.directive, h]
  rw [hsame]
  exact (he d).since hs

theorem Executed.add (he : Executed g) (hs : Since g g') {x : Directive}
    (h : g'.directives = g.directives.push x) (hx : Done g' g.nextDirective x.removed) :
    Executed g' := by
  intro d
  have hpush : g'.directive d = if d = g.nextDirective then x else g.directive d := by
    rw [← directive_push g x d]
    simp [Graph.directive, h]
  rw [hpush]
  split
  · rename_i hd
    exact hd ▸ hx
  · exact (he d).since hs

/-- What is still to be done after a moment is done by a directive of a later moment. -/
theorem Executed.later (he : Executed g) (hs : Since g g') {d : DirectiveId}
    (h : ¬ Done g' d (g'.directive d).removed) : inEffect g d = false := by
  apply decide_eq_false
  intro hd
  exact h (hs.directive d hd ▸ (he d).since hs)

end Executed

section OnlyNodes

def OnlyNodes (g g' : Graph) : Prop := g' = { g with nodes := g'.nodes }

theorem OnlyNodes.trans {g g' g'' : Graph} (h : OnlyNodes g g') (h' : OnlyNodes g' g'') :
    OnlyNodes g g'' := by
  unfold OnlyNodes at h h' ⊢
  rw [h', h]

theorem OnlyNodes.directives {g g' : Graph} (h : OnlyNodes g g') : g'.directives = g.directives := by
  rw [h]

theorem only_nodes_ensure (g : Graph) (id : NodeId) (names : List NodeName) :
    OnlyNodes g (g.ensure id names).1 := by
  induction names generalizing g id with
  | nil => rfl
  | cons name names ih =>
    unfold Graph.ensure
    split
    · exact ih g _
    · have hadd : OnlyNodes g (g.addChild name id) := rfl
      exact hadd.trans (ih _ _)

theorem only_nodes_ensureTarget {g : Graph} {target : NodeRef} {r : Graph × NodeId}
    (h : g.ensureTarget? target = some r) : OnlyNodes g r.1 := by
  have hpath : ∀ p, g.ensurePath? p = some r → OnlyNodes g r.1 := by
    intro p hp
    unfold Graph.ensurePath? at hp
    split at hp
    · exact Option.some.inj hp ▸ only_nodes_ensure g Graph.root (pathNames p)
    · cases hp
  cases target with
  | path p => exact hpath p h
  | label l =>
    simp only [Graph.ensureTarget?] at h
    split at h
    · split at h
      · exact Option.some.inj h ▸ rfl
      · cases h
    · obtain ⟨p, _, hp⟩ := Option.bind_eq_some_iff.mp h
      exact hpath p hp

theorem only_nodes_ensureChild (g : Graph) (parent : NodeId) (name : NodeName) :
    OnlyNodes g (g.ensureChild parent name).1 := by
  unfold Graph.ensureChild
  split <;> rfl

end OnlyNodes

section Steps

theorem directives_reach (g : Graph) (target : NodeRef) (site : Site) :
    (g.reach target site).1.directives = g.directives := by
  unfold Graph.reach
  split
  · rename_i r hr
    exact (only_nodes_ensureTarget hr).directives
  · rfl

theorem directives_attachLabels (g : Graph) (id : NodeId) (labels : List LabelMark)
    (fromReference : Bool) : (g.attachLabels id labels fromReference).directives = g.directives := by
  unfold Graph.attachLabels
  induction labels generalizing g with
  | nil => rfl
  | cons m ms ih =>
    refine (ih _).trans ?_
    unfold Graph.attachLabel
    split
    · rfl
    · split
      · cases fromReference <;> rfl
      · split <;> rfl

theorem directives_addDirective (g : Graph) (x : Directive) :
    (g.addDirective x).directives = g.directives.push x := by
  unfold Graph.addDirective
  split <;> rfl

theorem directives_reportDeleted (g : Graph) (options : BuildOptions) (what : String)
    (directive : Location) (locations : List Location) :
    (g.reportDeleted options what directive locations).directives = g.directives := by
  unfold Graph.reportDeleted
  split <;> rfl

/-- What deleting a node does: it adds a directive, and then reports that there is no such node or takes the node
away from its parent. -/
theorem delete_node_cases {g g' : Graph} {options : BuildOptions} {scope : Option NodeId}
    {target : DeleteTarget} {site : Site} (h : g.deleteNode options scope target site = .ok g') :
    (∃ x, g' = (g.addDirective x).report (.ofFault (.nodeDoesNotExist target) site.nameLocation)) ∨
      ∃ x parent id what location locations,
        g' = ((g.addDirective x).dropChild parent id g.nextDirective).reportDeleted options what location
          locations := by
  unfold Graph.deleteNode at h
  simp only at h
  split at h
  · unfold Graph.detach at h
    split at h
    · cases h
    · split at h
      · exact Or.inr ⟨_, _, _, _, _, _, (Except.ok.inj h).symm⟩
      · cases h
  · exact Or.inl ⟨_, (Except.ok.inj h).symm⟩

/-- Deleting a node adds a directive, and what the directive names is gone afterwards. -/
theorem delete_node_directive {g g' : Graph} (hs : Sound g) {options : BuildOptions}
    {scope : Option NodeId} {target : DeleteTarget} {site : Site}
    (h : g.deleteNode options scope target site = .ok g') :
    ∃ x, g'.directives = g.directives.push x ∧ Done g' g.nextDirective x.removed := by
  unfold Graph.deleteNode at h
  cases hfound : g.deletionTarget? scope target with
  | none =>
    simp only [hfound, Except.ok.injEq] at h
    subst h
    exact ⟨_, directives_addDirective g _, trivial⟩
  | some id =>
    obtain ⟨parent, hp, hc⟩ := hs.deletion_target_listed hfound
    simp only [hfound, Graph.detach, parent_addDirective, children_addDirective, hp, if_pos hc,
      Except.ok.injEq] at h
    subst h
    refine ⟨_, (directives_reportDeleted _ _ _ _ _).trans (directives_addDirective g _), ?_⟩
    have hne : parent ≠ id := by
      rintro rfl
      exact Nat.lt_irrefl _ (hs.linked.older _ _ hp)
    have hmark := deletedBy_dropChild (g := g.addDirective
        { kind := .node, target := target.render, site, scope, removed := some (.node id) })
      g.nextDirective (by simpa [HasNode] using (hs.bounded.node id).parent parent hp)
      (by simpa [HasNode] using has_node_of_parent hp) hne id
    rw [if_pos rfl] at hmark
    unfold Graph.reportDeleted
    split
    · exact hmark
    · exact hmark

/-- Deleting a property adds a directive, which removes no node, and what it names is gone afterwards. -/
theorem delete_property_directive {g : Graph} (hb : Bounded g) (options : BuildOptions) (owner : NodeId)
    (name : String) (site : Site) :
    ∃ x, (g.deleteProperty options owner name site).directives = g.directives.push x ∧
      Done (g.deleteProperty options owner name site) g.nextDirective x.removed ∧
      ∀ id, x.removed ≠ some (.node id) := by
  unfold Graph.deleteProperty
  cases hlive : g.liveProperty? owner name with
  | none => exact ⟨_, directives_addDirective g _, trivial, by simp⟩
  | some p =>
    refine ⟨_, (directives_reportDeleted _ _ _ _ _).trans (directives_addDirective g _), ?_, by simp⟩
    have hmark := property_dropProperty (g.addDirective
        { kind := .property, target := name, site, scope := some owner,
          removed := some (.property p) }) owner name g.nextDirective
      (by simpa [HasProperty] using hb.live_property hlive) p
    rw [if_pos rfl] at hmark
    unfold Graph.reportDeleted
    split
    · exact congrArg Property.deletedBy hmark
    · exact congrArg Property.deletedBy hmark

/-- What an edit does to the directives: it leaves them as they are, or adds one and carries it out; only
deleting a node adds one that removes a node. -/
theorem step_directives {options : BuildOptions} {s s' : Merge.State} (hs : Sound s.graph) {e : Edit}
    (h : Merge.step options s e = .ok s') :
    s'.graph.directives = s.graph.directives ∨
      ∃ x, s'.graph.directives = s.graph.directives.push x ∧
        Done s'.graph s.graph.nextDirective x.removed ∧
        ((∀ target site, e ≠ .deleteNode target site) → ∀ id, x.removed ≠ some (.node id)) := by
  obtain ⟨g, frames⟩ := s
  cases e with
  | enterRoot labels site =>
    obtain rfl := Except.ok.inj h
    exact Or.inl (directives_attachLabels _ _ _ _)
  | enterReference target labels site =>
    obtain rfl := Except.ok.inj h
    exact Or.inl ((directives_attachLabels _ _ _ _).trans (directives_reach g target site))
  | enterChild name labels site =>
    cases frames with
    | nil => exact Or.inl (Except.ok.inj h ▸ rfl)
    | cons f fs =>
      obtain rfl := Except.ok.inj h
      refine Or.inl ((directives_attachLabels _ _ _ _).trans ?_)
      refine (only_nodes_ensureChild _ f.node name).directives.trans ?_
      split <;> rfl
  | leave => exact Or.inl (Except.ok.inj h ▸ rfl)
  | property name values labels site =>
    cases frames with
    | nil => exact Or.inl (Except.ok.inj h ▸ rfl)
    | cons f fs =>
      obtain rfl := Except.ok.inj h
      refine Or.inl ((directives_setProperty _ f.node name values labels site).trans ?_)
      split <;> rfl
  | deleteNode target site =>
    simp only [Merge.step] at h
    cases hdelete : g.deleteNode options (frames.head?.map Merge.Frame.node) target site with
    | error err =>
      rw [hdelete] at h
      cases h
    | ok g' =>
      rw [hdelete] at h
      obtain rfl := Except.ok.inj h
      obtain ⟨x, hpush, hdone⟩ := delete_node_directive hs hdelete
      exact Or.inr ⟨x, hpush, hdone, fun hne => absurd rfl (hne target site)⟩
  | deleteProperty name site =>
    cases frames with
    | nil => exact Or.inl (Except.ok.inj h ▸ rfl)
    | cons f fs =>
      obtain rfl := Except.ok.inj h
      obtain ⟨x, hpush, hdone, hnode⟩ :=
        delete_property_directive hs.bounded options f.node name site
      exact Or.inr ⟨x, hpush, hdone, fun _ => hnode⟩

end Steps

section Runs
variable {options : BuildOptions} {s s' : Merge.State}

theorem Settled.changes (hs : Settled s) {edits : List Edit} (h : Merge.run options s edits = .ok s') :
    Changes s.graph s'.graph := by
  obtain ⟨t, ht, hc, _⟩ := run_advances options hs.ready edits
  obtain rfl := Except.ok.inj (ht.symm.trans h)
  exact hc

theorem Settled.since (hs : Settled s) {edits : List Edit} (h : Merge.run options s edits = .ok s') :
    Since s.graph s'.graph :=
  (hs.changes h).since hs.ready.sound hs.ledger

theorem Settled.step_since (hs : Settled s) {e : Edit} (h : Merge.step options s e = .ok s') :
    Since s.graph s'.graph :=
  hs.since (run_cons h [])

/-- What every edit of a run keeps, the run keeps. -/
theorem run_keeps {P : Graph → Prop} {edits : List Edit}
    (hstep : ∀ e ∈ edits, ∀ s s', Settled s → P s.graph → Merge.step options s e = .ok s' → P s'.graph)
    (hs : Settled s) (hp : P s.graph) (h : Merge.run options s edits = .ok s') : P s'.graph := by
  induction edits generalizing s with
  | nil =>
    obtain rfl := Except.ok.inj h
    exact hp
  | cons e edits ih =>
    obtain ⟨t, ht, _, _⟩ := step_advances options hs.ready e
    rw [run_cons ht] at h
    exact ih (fun e he => hstep e (List.mem_cons_of_mem _ he)) (hs.step ht)
      (hstep e List.mem_cons_self s t hs hp ht) h

theorem step_executed (hs : Settled s) (he : Executed s.graph) {e : Edit}
    (h : Merge.step options s e = .ok s') : Executed s'.graph := by
  have hsince := hs.step_since h
  rcases step_directives hs.ready.sound h with hsame | ⟨x, hpush, hdone, _⟩
  · exact he.keep hsince hsame
  · exact he.add hsince hpush hdone

end Runs

theorem start_executed (config : BuildConfig) (fragments : List Fragment) :
    Executed (Build.start config fragments).graph := by
  intro d
  have hnone : (Build.start config fragments).graph.directive d = default := rfl
  rw [hnone]
  trivial

/-- Between two edits no directive is waiting. -/
theorem moment_executed {config : BuildConfig} {fragments : List Fragment} {n : Nat} {s : Merge.State}
    (hm : moment config fragments n = .ok s) : Executed s.graph :=
  run_keeps (fun _ _ _ _ hs he h => step_executed hs he h) (start_settled config fragments)
    (start_executed config fragments) hm

end Devicetree.Proofs
