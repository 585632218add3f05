import Devicetree.Proofs.Targets

namespace Devicetree.Proofs

structure Arrives (g : Graph) (r : Graph × NodeId) : Prop where
  changes : Changes g r.1
  kept : Kept r.1 r.2

theorem Arrives.before {g g' : Graph} {r : Graph × NodeId} (hc : Changes g g') (h : Arrives g' r) :
    Arrives g r :=
  ⟨hc.trans h.changes, h.kept⟩

theorem add_child_arrives {g : Graph} {parent : NodeId} {name : NodeName} (hp : HasNode g parent)
    (fresh : ∀ c ∈ g.children parent, (g.node c).name ≠ name) :
    Arrives g (g.addChild name parent, g.nextNode) := by
  refine ⟨.single (.child g name parent hp fresh), ?_, ?_⟩
  · simp [HasNode, Graph.nextNode]
  · rw [deletedBy_addChild name hp, if_pos rfl]

theorem ensure_child_arrives {g : Graph} (hs : Sound g) {parent : NodeId} (hp : HasNode g parent)
    (name : NodeName) : Arrives g (g.ensureChild parent name) := by
  unfold Graph.ensureChild
  split
  · rename_i c hc
    exact ⟨.refl, hs.child_kept (child_by_name_mem hc)⟩
  · rename_i hnone
    exact add_child_arrives hp (pick_none hnone)

theorem ensure_arrives {g : Graph} (hs : Sound g) {id : NodeId} (hk : Kept g id)
    (names : List NodeName) : Arrives g (g.ensure id names) := by
  induction names generalizing g id with
  | nil => exact ⟨.refl, hk⟩
  | cons name names ih =>
    unfold Graph.ensure
    split
    · rename_i c hc
      exact ih hs (hs.child_kept (child_by_name_mem hc))
    · rename_i hnone
      have hnew := add_child_arrives hk.has (pick_none hnone)
      exact (ih (hs.changes hnew.changes) hnew.kept).before hnew.changes

theorem ensure_target_arrives {g : Graph} (hs : Sound g) {target : NodeRef} {r : Graph × NodeId}
    (h : g.ensureTarget? target = some r) : Arrives g r := by
  have hpath : ∀ p, g.ensurePath? p = some r → Arrives g r := by
    intro p hp
    unfold Graph.ensurePath? at hp
    split at hp
    · exact Option.some.inj hp ▸ ensure_arrives hs hs.root_kept (pathNames p)
    · cases hp
  cases target with
  | path p => exact hpath p h
  | label l =>
    simp only [Graph.ensureTarget?] at h
    split at h
    · rename_i holder hbound
      split at h
      · rename_i hlive
        exact Option.some.inj h ▸ ⟨.refl, hs.bound_kept hbound hlive⟩
      · cases h
    · obtain ⟨p, _, hp⟩ := Option.bind_eq_some_iff.mp h
      exact hpath p hp

/-- A reference always reaches a node: if it names none, a stand-in. -/
theorem reach_arrives {g : Graph} (hs : Sound g) (target : NodeRef) (site : Site) :
    Arrives g (g.reach target site) := by
  unfold Graph.reach
  split
  · rename_i r hr
    exact ensure_target_arrives hs hr
  · refine ⟨Relation.ReflTransGen.tail (.single (.report g _)) (.orphan _), ?_, ?_⟩
    · simp [HasNode, Graph.nextNode, Graph.report]
    · simp [node_addOrphan, Graph.nextNode, Graph.report]

theorem attach_label_changes {g : Graph} {id : NodeId} (has : HasNode g id) (fromReference : Bool)
    (m : LabelMark) : Changes g (Graph.attachLabel fromReference id g m) := by
  unfold Graph.attachLabel
  split
  · rename_i hnone
    exact .single (.hold g id m has (by simp [hnone]))
  · rename_i holder hbound
    split
    · rename_i he
      subst he
      cases fromReference with
      | true => exact .single (.again g holder m has hbound)
      | false => exact Relation.ReflTransGen.tail (.single (.report g _)) (.again _ holder m has hbound)
    · split
      · exact .single (.report g _)
      · rename_i hdead
        refine .single (.hold g id m has ?_)
        intro h hb
        obtain rfl : holder = h := Option.some.inj (hbound.symm.trans hb)
        simpa using hdead

theorem attach_labels_changes {g : Graph} {id : NodeId} (has : HasNode g id) (labels : List LabelMark)
    (fromReference : Bool) : Changes g (g.attachLabels id labels fromReference) := by
  unfold Graph.attachLabels
  induction labels generalizing g with
  | nil => exact .refl
  | cons m ms ih =>
    have hfirst := attach_label_changes has fromReference m
    exact hfirst.trans (ih (hfirst.grown.has_node has))

theorem report_deleted_changes (g : Graph) (options : BuildOptions) (what : String)
    (directive : Location) (locations : List Location) :
    Changes g (g.reportDeleted options what directive locations) := by
  unfold Graph.reportDeleted
  split
  · exact .single (.report g _)
  · exact .refl

/-- A child that is listed with its parent can be taken away. -/
theorem detach_changes {g : Graph} (options : BuildOptions) {parent id : NodeId} {d : DirectiveId}
    (hp : g.parent? id = some parent) (hc : id ∈ g.children parent)
    (hlast : g.directives.size = d.index + 1) (hr : (g.directive d).removed = some (.node id)) :
    ∃ g', g.detach options id d = .ok g' ∧ Changes g g' := by
  simp only [Graph.detach, hp, if_pos hc]
  exact ⟨_, rfl, Relation.ReflTransGen.head (.dropChild g parent id d hp hc hlast hr)
    (report_deleted_changes _ _ _ _ _)⟩

/-- Deleting a node never finds its target without a parent, or missing from its parent's children. -/
theorem delete_node_changes {g : Graph} (hs : Sound g) (options : BuildOptions) {scope : Option NodeId}
    (hscope : ∀ n, scope = some n → HasNode g n) (target : DeleteTarget) (site : Site) :
    ∃ g', g.deleteNode options scope target site = .ok g' ∧ Changes g g' := by
  unfold Graph.deleteNode
  cases hfound : g.deletionTarget? scope target with
  | none =>
    exact ⟨_, rfl, Relation.ReflTransGen.tail
      (.single (.directive g _ ⟨hscope, by simp, by simp⟩)) (.report _ _)⟩
  | some id =>
    obtain ⟨parent, hp, hc⟩ := hs.deletion_target_listed hfound
    have hdir : Change g (g.addDirective
        { kind := .node, target := target.render, site, scope, removed := some (.node id) }) := by
      refine .directive g _ ⟨hscope, ?_, by simp⟩
      intro n hn
      obtain rfl : id = n := by simpa using hn
      exact has_node_of_parent hp
    have hp' : (g.addDirective
        { kind := .node, target := target.render, site, scope,
          removed := some (.node id) }).parent? id = some parent := by simpa using hp
    obtain ⟨g', hok, hdetach⟩ := detach_changes options hp' (by simpa using hc)
      (size_addDirective g _) (d := g.nextDirective) (by rw [directive_addDirective, if_pos rfl])
    exact ⟨g', hok, Relation.ReflTransGen.head hdir hdetach⟩

theorem delete_property_changes {g : Graph} (hb : Bounded g) (options : BuildOptions) {owner : NodeId}
    (has : HasNode g owner) (name : String) (site : Site) :
    Changes g (g.deleteProperty options owner name site) := by
  unfold Graph.deleteProperty
  cases hlive : g.liveProperty? owner name with
  | none =>
    refine Relation.ReflTransGen.tail (.single (.directive g _ ⟨?_, by simp, by simp⟩)) (.report _ _)
    intro n hn
    exact Option.some.inj hn ▸ has
  | some p =>
    have hdir : Change g (g.addDirective
        { kind := .property, target := name, site, scope := some owner,
          removed := some (.property p) }) := by
      refine .directive g _ ⟨?_, by simp, ?_⟩
      · intro n hn
        exact Option.some.inj hn ▸ has
      · intro q hq
        obtain rfl : p = q := by simpa using hq
        exact hb.live_property hlive
    refine Relation.ReflTransGen.head hdir (Relation.ReflTransGen.head
      (.dropProperty _ owner name p g.nextDirective ?_ ?_ ?_ ?_) (report_deleted_changes _ _ _ _ _))
    · exact hdir.grown.has_node has
    · simpa using hlive
    · simp [Graph.nextDirective]
    · rw [directive_addDirective, if_pos rfl]

def openNodes (frames : List Merge.Frame) : List NodeId := frames.map Merge.Frame.node

structure Ready (s : Merge.State) : Prop where
  sound : Sound s.graph
  frames : ∀ n ∈ openNodes s.frames, HasNode s.graph n

/-- What one edit does: it succeeds, by elementary changes, and leaves the state ready for the next. -/
def Advances (s : Merge.State) (r : Except BuildError Merge.State) : Prop :=
  ∃ s', r = .ok s' ∧ Changes s.graph s'.graph ∧ Ready s'

theorem Ready.advances {s s' : Merge.State} (hs : Ready s) (hc : Changes s.graph s'.graph)
    (hf : ∀ n ∈ openNodes s'.frames, n ∈ openNodes s.frames ∨ HasNode s'.graph n) :
    Advances s (.ok s') := by
  refine ⟨s', rfl, hc, hs.sound.changes hc, ?_⟩
  intro n hn
  rcases hf n hn with hold | hnew
  · exact hc.grown.has_node (hs.frames n hold)
  · exact hnew

theorem Ready.enter_advances {s t : Merge.State} (hs : Ready s) {g : Graph} {id : NodeId}
    (hc : Changes s.graph g) (has : HasNode g id) (labels : List LabelMark) (fromReference : Bool)
    (hf : openNodes t.frames = openNodes s.frames) :
    Advances s (.ok (Merge.enter t (g.attachLabels id labels fromReference) id)) := by
  have hlabels := attach_labels_changes has labels fromReference
  refine hs.advances (hc.trans hlabels) ?_
  intro n hn
  rcases List.mem_cons.mp hn with rfl | hold
  · exact Or.inr (hlabels.grown.has_node has)
  · exact Or.inl (hf ▸ hold)

theorem report_if_changes (g : Graph) (p : Prop) [Decidable p] (issue : Issue) :
    Changes g (if p then g.report issue else g) := by
  split
  · exact .single (.report g _)
  · exact .refl

/-- Every edit succeeds: there is no state of a merge in which one finds a link broken. -/
theorem step_advances (options : BuildOptions) {s : Merge.State} (hs : Ready s) (e : Edit) :
    Advances s (Merge.step options s e) := by
  obtain ⟨g, frames⟩ := s
  cases e with
  | enterRoot labels site =>
    have hroot := hs.sound.root_kept
    have hdef : Change g (g.addDefinition Graph.root .root site) :=
      .define _ _ _ _ hroot.has hroot.kept
    exact hs.enter_advances (.single hdef) (hdef.grown.has_node hroot.has) labels false rfl
  | enterReference target labels site =>
    have harr := reach_arrives hs.sound target site
    have href : Change _ _ := .refer _ _ site harr.kept.has harr.kept.kept
    exact hs.enter_advances (harr.changes.tail href) (href.grown.has_node harr.kept.has) labels true
      rfl
  | enterChild name labels site =>
    cases frames with
    | nil => exact hs.advances .refl (fun _ hn => Or.inl hn)
    | cons f fs =>
      have hreport := report_if_changes g (name ∈ f.children)
        (.ofFault (.duplicateNodeName name) site.nameLocation)
      have hf : HasNode g f.node := hs.frames f.node List.mem_cons_self
      have harr := ensure_child_arrives (hs.sound.changes hreport) (hreport.grown.has_node hf) name
      have hdef : Change _ _ := .define _ _ .child site harr.kept.has harr.kept.kept
      exact hs.enter_advances (t := ⟨g, { f with children := name :: f.children } :: fs⟩)
        ((hreport.trans harr.changes).tail hdef) (hdef.grown.has_node harr.kept.has) labels false rfl
  | leave =>
    refine hs.advances .refl ?_
    intro n hn
    obtain ⟨f, hf, rfl⟩ := List.mem_map.mp hn
    exact Or.inl (List.mem_map.mpr ⟨f, List.mem_of_mem_tail hf, rfl⟩)
  | property name values labels site =>
    cases frames with
    | nil => exact hs.advances .refl (fun _ hn => Or.inl hn)
    | cons f fs =>
      have hreport := report_if_changes g (name ∈ f.properties)
        (.ofFault (.duplicatePropertyName name) site.nameLocation)
      have hf : HasNode g f.node := hs.frames f.node List.mem_cons_self
      exact hs.advances
        (hreport.tail (.property _ f.node name values labels site (hreport.grown.has_node hf)))
        (fun _ hn => Or.inl hn)
  | deleteNode target site =>
    have hscope : ∀ n, frames.head?.map Merge.Frame.node = some n → HasNode g n := by
      intro n hn
      obtain ⟨f, hf, rfl⟩ := Option.map_eq_some_iff.mp hn
      exact hs.frames f.node (List.mem_map.mpr ⟨f, List.mem_of_mem_head? hf, rfl⟩)
    obtain ⟨g', hok, hc⟩ := delete_node_changes hs.sound options hscope target site
    simp only [Merge.step, hok]
    refine hs.advances hc ?_
    intro n hn
    refine Or.inl ?_
    cases target <;> cases frames <;> exact hn
  | deleteProperty name site =>
    cases frames with
    | nil => exact hs.advances .refl (fun _ hn => Or.inl hn)
    | cons f fs =>
      have hf : HasNode g f.node := hs.frames f.node List.mem_cons_self
      exact hs.advances (delete_property_changes hs.sound.bounded options hf name site)
        (fun _ hn => Or.inl hn)

theorem run_cons {options : BuildOptions} {s s' : Merge.State} {e : Edit}
    (h : Merge.step options s e = .ok s') (edits : List Edit) :
    Merge.run options s (e :: edits) = Merge.run options s' edits := by
  rw [Merge.run, List.foldlM_cons, h]
  rfl

theorem run_append {options : BuildOptions} {s s' : Merge.State} {edits : List Edit}
    (h : Merge.run options s edits = .ok s') (more : List Edit) :
    Merge.run options s (edits ++ more) = Merge.run options s' more := by
  rw [Merge.run] at h
  rw [Merge.run, List.foldlM_append, h]
  rfl

/-- What each edit does, any number of them do. -/
theorem run_advances (options : BuildOptions) {s : Merge.State} (hs : Ready s) (edits : List Edit) :
    Advances s (Merge.run options s edits) := by
  induction edits generalizing s with
  | nil => exact ⟨s, rfl, .refl, hs⟩
  | cons e edits ih =>
    obtain ⟨s₁, hstep, hc₁, hs₁⟩ := step_advances options hs e
    obtain ⟨s₂, hrun, hc₂, hs₂⟩ := ih hs₁
    exact ⟨s₂, (run_cons hstep edits).trans hrun, hc₁.trans hc₂, hs₂⟩

end Devicetree.Proofs
