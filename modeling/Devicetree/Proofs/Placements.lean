import Devicetree.Proofs.Declarations
import Devicetree.Proofs.Trails

namespace Devicetree.Proofs

section Attached

def unresolved (g : Graph) : IssueLog := g.issues.filter fun i => decide (i.kind = .unableToResolveChildNode)

/-- From `g` to `g'` no label is bound and no reference found unresolvable. -/
structure Aside (g g' : Graph) : Prop where
  labels : g'.labels = g.labels
  unresolved : unresolved g' = unresolved g

theorem Aside.trans {g g' g'' : Graph} (h : Aside g g') (h' : Aside g' g'') : Aside g g'' :=
  ⟨h'.labels.trans h.labels, h'.unresolved.trans h.unresolved⟩

variable (g : Graph)

theorem aside_report {fault : Fault} (h : fault.kind ≠ .unableToResolveChildNode) (location : Location) :
    Aside g (g.report (.ofFault fault location)) :=
  ⟨rfl, by simp [unresolved, Graph.report, Issue.ofFault, Issue.new, h]⟩

theorem aside_report_if (p : Prop) [Decidable p] {fault : Fault}
    (h : fault.kind ≠ .unableToResolveChildNode) (location : Location) :
    Aside g (if p then g.report (.ofFault fault location) else g) := by
  split
  · exact aside_report g h location
  · exact ⟨rfl, rfl⟩

theorem aside_reportDeleted (options : BuildOptions) (what : String) (directive : Location)
    (locations : List Location) : Aside g (g.reportDeleted options what directive locations) := by
  unfold Graph.reportDeleted
  split
  · refine ⟨rfl, ?_⟩
    have hnone : (locations.map fun l => Issue.deleted l directive what).filter
        (fun i => decide (i.kind = .unableToResolveChildNode)) = [] := by
      apply List.filter_eq_nil_iff.mpr
      intro i hi
      obtain ⟨l, _, rfl⟩ := List.mem_map.mp hi
      simp [Issue.deleted, Issue.ofFault, Issue.new, Fault.kind]
    rw [unresolved, List.filter_append, hnone, List.append_nil]
    rfl
  · exact ⟨rfl, rfl⟩

theorem aside_addDirective (x : Directive) : Aside g (g.addDirective x) := by
  unfold Graph.addDirective
  split <;> exact ⟨rfl, rfl⟩

theorem aside_setProperty (owner : NodeId) (name : String) (values : List Value)
    (labels : List LabelMark) (site : Site) : Aside g (g.setProperty owner name values labels site) := by
  unfold Graph.setProperty
  cases g.liveProperty? owner name <;> exact ⟨rfl, rfl⟩

theorem aside_deleteProperty (options : BuildOptions) (owner : NodeId) (name : String) (site : Site) :
    Aside g (g.deleteProperty options owner name site) := by
  unfold Graph.deleteProperty
  cases g.liveProperty? owner name with
  | none => exact (aside_addDirective g _).trans (aside_report _ (by simp [Fault.kind]) _)
  | some p =>
    have hdrop : ∀ g' : Graph, Aside g' (g'.dropProperty owner name p g.nextDirective) := fun _ => ⟨rfl, rfl⟩
    exact ((aside_addDirective g _).trans (hdrop _)).trans (aside_reportDeleted _ _ _ _ _)

variable {g}

theorem OnlyNodes.aside {g' : Graph} (h : OnlyNodes g g') : Aside g g' := by
  rw [h]
  exact ⟨rfl, rfl⟩

theorem aside_deleteNode {g' : Graph} {options : BuildOptions} {scope : Option NodeId}
    {target : DeleteTarget} {site : Site} (h : g.deleteNode options scope target site = .ok g') :
    Aside g g' := by
  rcases delete_node_cases h with ⟨x, rfl⟩ | ⟨x, parent, id, what, location, locations, rfl⟩
  · exact (aside_addDirective g x).trans (aside_report _ (by simp [Fault.kind]) _)
  · have hdrop : Aside (g.addDirective x) ((g.addDirective x).dropChild parent id g.nextDirective) :=
      ⟨rfl, rfl⟩
    exact ((aside_addDirective g x).trans hdrop).trans (aside_reportDeleted _ _ _ _ _)

/-- What an edit does to labels and to the reports on references: it may attach the labels that it has, and only
a reference to nowhere is reported. -/
def Attaches (g : Graph) (e : Edit) (g' : Graph) : Prop :=
  ∃ g₁ id b, (g' = g₁.attachLabels id (marked e) b ∨ g' = g₁) ∧ g₁.labels = g.labels ∧
    (unresolved g₁ = unresolved g ∨
      ∃ target labels site, e = .enterReference target labels site ∧ g.ensureTarget? target = none)

theorem Aside.attaches {g' : Graph} (h : Aside g g') (e : Edit) : Attaches g e g' :=
  ⟨g', Graph.root, true, Or.inr rfl, h.labels, Or.inl h.unresolved⟩

theorem step_attaches {options : BuildOptions} {s s' : Merge.State} {e : Edit}
    (h : Merge.step options s e = .ok s') : Attaches s.graph e s'.graph := by
  have hsame : Aside s.graph s.graph := ⟨rfl, rfl⟩
  obtain ⟨g, frames⟩ := s
  cases e with
  | enterRoot labels site =>
    obtain rfl := Except.ok.inj h
    exact ⟨g.addDefinition Graph.root .root site, Graph.root, false, Or.inl rfl, rfl, Or.inl rfl⟩
  | enterReference target labels site =>
    obtain rfl := Except.ok.inj h
    refine ⟨(g.reach target site).1.addReference (g.reach target site).2 site, (g.reach target site).2, true,
      Or.inl rfl, ?_, ?_⟩
    · change (g.reach target site).1.labels = g.labels
      unfold Graph.reach
      split
      · rename_i r hr
        exact (only_nodes_ensureTarget hr).aside.labels
      · rfl
    · cases hfound : g.ensureTarget? target with
      | none => exact Or.inr ⟨target, labels, site, rfl, hfound⟩
      | some r =>
        refine Or.inl ?_
        change unresolved (g.reach target site).1 = unresolved g
        rw [Graph.reach, hfound]
        exact (only_nodes_ensureTarget hfound).aside.unresolved
  | enterChild name labels site =>
    cases frames with
    | nil =>
      obtain rfl := Except.ok.inj h
      exact hsame.attaches _
    | cons f fs =>
      obtain rfl := Except.ok.inj h
      have hkind : (Fault.duplicateNodeName name).kind ≠ .unableToResolveChildNode := by simp [Fault.kind]
      have hensure := (aside_report_if g (name ∈ f.children) hkind site.nameLocation).trans
        (only_nodes_ensureChild _ f.node name).aside
      exact ⟨_, _, false, Or.inl rfl, hensure.labels, Or.inl hensure.unresolved⟩
  | leave =>
    obtain rfl := Except.ok.inj h
    exact hsame.attaches _
  | property name values labels site =>
    cases frames with
    | nil =>
      obtain rfl := Except.ok.inj h
      exact hsame.attaches _
    | cons f fs =>
      obtain rfl := Except.ok.inj h
      have hkind : (Fault.duplicatePropertyName name).kind ≠ .unableToResolveChildNode := by
        simp [Fault.kind]
      exact ((aside_report_if g (name ∈ f.properties) hkind site.nameLocation).trans
        (aside_setProperty _ _ _ _ _ _)).attaches _
  | deleteNode target site =>
    simp only [Merge.step] at h
    cases hdelete : g.deleteNode options (frames.head?.map Merge.Frame.node) target site with
    | error err =>
      rw [hdelete] at h
      cases h
    | ok g' =>
      rw [hdelete] at h
      obtain rfl := Except.ok.inj h
      exact (aside_deleteNode hdelete).attaches _
  | deleteProperty name site =>
    cases frames with
    | nil =>
      obtain rfl := Except.ok.inj h
      exact hsame.attaches _
    | cons f fs =>
      obtain rfl := Except.ok.inj h
      exact (aside_deleteProperty g options f.node name site).attaches _

end Attached

section Bound
variable {l : String}

theorem bound_attachLabel (b : Bool) (id : NodeId) (g : Graph) (m : LabelMark) (l : String) :
    (Graph.attachLabel b id g m).labels.nodeOf? l = g.labels.nodeOf? l ∨
      (m.name = l ∧ (Graph.attachLabel b id g m).labels.nodeOf? l = some id) := by
  have hbind : ((g.bindLabel id m).addLabel id m).labels.nodeOf? l = g.labels.nodeOf? l ∨
      (m.name = l ∧ ((g.bindLabel id m).addLabel id m).labels.nodeOf? l = some id) := by
    have hget : ((g.bindLabel id m).addLabel id m).labels.nodeOf? l =
        if m.name = l then some id else g.labels.nodeOf? l :=
      Table.get?_insert g.labels.bound m.name l id
    rw [hget]
    by_cases hm : m.name = l
    · exact Or.inr ⟨hm, if_pos hm⟩
    · exact Or.inl (if_neg hm)
  unfold Graph.attachLabel
  split
  · exact hbind
  · split
    · exact Or.inl (by cases b <;> rfl)
    · split
      · exact Or.inl rfl
      · exact hbind

/-- Attaching labels to a node binds them to that node, or leaves them where they are. -/
theorem bound_attachLabels (g : Graph) (id : NodeId) (labels : List LabelMark) (b : Bool) (l : String) :
    (g.attachLabels id labels b).labels.nodeOf? l = g.labels.nodeOf? l ∨
      (l ∈ labels.map LabelMark.name ∧ (g.attachLabels id labels b).labels.nodeOf? l = some id) := by
  unfold Graph.attachLabels
  induction labels generalizing g with
  | nil => exact Or.inl rfl
  | cons m ms ih =>
    rcases ih (Graph.attachLabel b id g m) with hrest | ⟨hmem, hbound⟩
    · rw [List.foldl_cons, hrest]
      refine (bound_attachLabel b id g m l).imp_right ?_
      rintro ⟨rfl, hbound⟩
      exact ⟨List.mem_cons_self, hbound⟩
    · exact Or.inr ⟨List.mem_cons_of_mem _ hmem, hbound⟩

/-- A label that is free is bound when it is attached. -/
theorem bound_attachLabels_free {g : Graph} (id : NodeId) {labels : List LabelMark} (b : Bool)
    (hfree : g.labels.nodeOf? l = none) (hl : l ∈ labels.map LabelMark.name) :
    (g.attachLabels id labels b).labels.nodeOf? l = some id := by
  have hstays : ∀ (ms : List LabelMark) (g : Graph), g.labels.nodeOf? l = some id →
      (g.attachLabels id ms b).labels.nodeOf? l = some id := by
    intro ms g hbound
    rcases bound_attachLabels g id ms b l with hsame | ⟨_, hnew⟩
    · exact hsame.trans hbound
    · exact hnew
  induction labels generalizing g with
  | nil => cases hl
  | cons m ms ih =>
    by_cases hm : m.name = l
    · have hfirst : (Graph.attachLabel b id g m).labels.nodeOf? l = some id := by
        unfold Graph.attachLabel
        rw [hm, hfree]
        exact (Table.get?_insert g.labels.bound m.name l id).trans (if_pos hm)
      exact hstays ms _ hfirst
    · have hrest : l ∈ ms.map LabelMark.name := by
        simpa [Ne.symm hm] using hl
      refine ih ?_ hrest
      rcases bound_attachLabel b id g m l with hsame | ⟨he, _⟩
      · exact hsame.trans hfree
      · exact absurd he hm

theorem unresolved_attachLabels (g : Graph) (id : NodeId) (labels : List LabelMark) (b : Bool) :
    unresolved (g.attachLabels id labels b) = unresolved g := by
  unfold Graph.attachLabels
  induction labels generalizing g with
  | nil => rfl
  | cons m ms ih =>
    refine (ih _).trans ?_
    unfold Graph.attachLabel
    split
    · rfl
    · split
      · cases b with
        | true => rfl
        | false => exact (aside_report g (by simp [Fault.kind]) m.location).unresolved
      · split
        · exact (aside_report g (by simp [Fault.kind]) m.location).unresolved
        · rfl

variable {options : BuildOptions} {s s' : Merge.State}

/-- An edit without a label leaves the label where it is. -/
theorem step_bound_other {e : Edit} (hl : l ∉ attached e) (h : Merge.step options s e = .ok s') :
    s'.graph.labels.nodeOf? l = s.graph.labels.nodeOf? l := by
  obtain ⟨g₁, id, b, hgraph, hlabels, _⟩ := step_attaches h
  rw [← hlabels]
  rcases hgraph with hattach | hsame
  · rw [hattach]
    rcases bound_attachLabels g₁ id (marked e) b l with hkeep | ⟨hmem, _⟩
    · exact hkeep
    · exact absurd hmem hl
  · rw [hsame]

theorem run_bound_other {edits : List Edit} (hs : Settled s) (hl : ∀ e ∈ edits, l ∉ attached e)
    (h : Merge.run options s edits = .ok s') :
    s'.graph.labels.nodeOf? l = s.graph.labels.nodeOf? l :=
  run_keeps (P := fun g => g.labels.nodeOf? l = s.graph.labels.nodeOf? l)
    (fun e he _ _ _ hp hstep => (step_bound_other (hl e he) hstep).trans hp) hs rfl h

/-- An edit that refers to no node elsewhere reports no reference. -/
theorem step_unresolved {e : Edit} (h : Merge.step options s e = .ok s')
    (hfound : ∀ target labels site, e = .enterReference target labels site →
      s.graph.ensureTarget? target ≠ none) : unresolved s'.graph = unresolved s.graph := by
  obtain ⟨g₁, id, b, hgraph, _, hsame | ⟨target, labels, site, he, hnone⟩⟩ := step_attaches h
  · rw [← hsame]
    rcases hgraph with hattach | hplain
    · rw [hattach, unresolved_attachLabels]
    · rw [hplain]
  · exact absurd hnone (hfound target labels site he)

/-- Entering a child binds a free label on it to it. -/
theorem enter_child_bound {g g' : Graph} {body : Merge.Frame} {bodies frames : List Merge.Frame}
    {name : NodeName} {labels : List LabelMark} {site : Site} {c : NodeId}
    (h : Merge.step options ⟨g, body :: bodies⟩ (.enterChild name labels site) =
      .ok ⟨g', { node := c } :: frames⟩)
    (hfree : g.labels.nodeOf? l = none) (hl : l ∈ labels.map LabelMark.name) :
    g'.labels.nodeOf? l = some c := by
  simp only [Merge.step, Merge.enter, Except.ok.injEq, Merge.State.mk.injEq, List.cons.injEq,
    Merge.Frame.mk.injEq, and_true] at h
  obtain ⟨rfl, rfl, _⟩ := h
  refine bound_attachLabels_free _ false ?_ hl
  have hkind : (Fault.duplicateNodeName name).kind ≠ .unableToResolveChildNode := by simp [Fault.kind]
  have haside := (aside_report_if g (name ∈ body.children) hkind site.nameLocation).trans
    (only_nodes_ensureChild _ body.node name).aside
  change (Graph.ensureChild _ body.node name).1.labels.nodeOf? l = none
  rw [haside.labels]
  exact hfree

end Bound

section Placed
variable {l : String} {options : BuildOptions} {s t : Merge.State} {edits : List Edit}

def Placed (l : String) (names : List NodeName) (g : Graph) : Prop :=
  ∃ n, g.labels.nodeOf? l = some n ∧ Trail g names n

theorem Placed.later {names : List NodeName} (hp : Placed l names s.graph) (hs : Spared s)
    (hspare : ∀ e ∈ edits, Spares e) (h : Merge.run options s edits = .ok t) :
    Placed l names t.graph := by
  obtain ⟨n, hbound, htrail⟩ := hp
  exact ⟨n, hs.bound hspare h hbound, hs.trail hspare h htrail⟩

theorem run_split (hs : Spared s) {more : List Edit} (h : Merge.run options s (edits ++ more) = .ok t) :
    ∃ s₁, Merge.run options s edits = .ok s₁ ∧ Merge.run options s₁ more = .ok t := by
  obtain ⟨s₁, hrun, _, _⟩ := run_advances options hs.settled.ready edits
  exact ⟨s₁, hrun, (run_append hrun more).symm.trans h⟩

mutual

theorem local_of_spares (file : FileId) (index : Nat) :
    (item : Item) → (∀ e ∈ Edit.ofItem file index item, Spares e) → isLocal item = true
  | .property _, _ => rfl
  | .child head body, h => all_local_of_spares file index body fun e he => h e (by simp [Edit.ofItem, he])
  | .deleteNode d, h => absurd rfl (h _ (List.mem_singleton.mpr rfl) d.target _)
  | .deleteProperty _, _ => rfl

theorem all_local_of_spares (file : FileId) (index : Nat) :
    (items : List Item) → (∀ e ∈ Edit.ofItems file index items, Spares e) → allLocal items = true
  | [], _ => rfl
  | item :: items, h => by
    have hitem := local_of_spares file index item fun e he => h e (List.mem_append_left _ he)
    have hrest := all_local_of_spares file index items fun e he => h e (List.mem_append_right _ he)
    simp [allLocal, hitem, hrest]

end

theorem edits_of_child (file : FileId) (index : Nat) (head : ChildHead) (body items : List Item) :
    Edit.ofItems file index (.child head body :: items) =
      .enterChild head.name (Edit.marks file head.labels) (Edit.site file index head.span head.nameSpan) ::
        (Edit.ofItems file index body ++ .leave :: Edit.ofItems file index items) := by
  simp [Edit.ofItems, Edit.ofItem]

/-- The way to a child that is entered goes on from the way to its parent. -/
theorem Spared.enter_child (options : BuildOptions) {g : Graph} {body : Merge.Frame} {bodies : List Merge.Frame}
    (hs : Spared ⟨g, body :: bodies⟩) {above : List NodeName} (htrail : Trail g above body.node)
    (name : NodeName) (labels : List LabelMark) (site : Site) :
    ∃ g' c body', Merge.step options ⟨g, body :: bodies⟩ (.enterChild name labels site) =
        .ok ⟨g', { node := c } :: body' :: bodies⟩ ∧
      Spared ⟨g', { node := c } :: body' :: bodies⟩ ∧ Trail g' (above ++ [name]) c := by
  obtain ⟨g', c, body', hstep, _, _, hlisted, rfl⟩ := hs.settled.enter_child name labels site
  have hspare : ∀ e ∈ [Edit.enterChild (g'.node c).name labels site], Spares e := by simp [Spares]
  have hrun := run_cons hstep []
  exact ⟨g', c, body', hstep, hs.run hspare hrun, (hs.trail hspare hrun htrail).child hlisted⟩

/-- When the body with a label is merged, the label is placed where it is written. -/
theorem Written.placed {items : List Item} {names : List NodeName} (hw : Written l items names)
    (hone : (labelsInside items).count l = 1) {file : FileId} {index : Nat}
    (hspare : ∀ e ∈ Edit.ofItems file index items, Spares e) {g : Graph} {body : Merge.Frame}
    {bodies : List Merge.Frame} (hs : Spared ⟨g, body :: bodies⟩) (hfree : g.labels.nodeOf? l = none)
    {above : List NodeName} (htrail : Trail g above body.node)
    (h : Merge.run options ⟨g, body :: bodies⟩ (Edit.ofItems file index items) = .ok t) :
    Placed l (above ++ names) t.graph := by
  induction hw generalizing g body bodies above t with
  | @here head inner items mem =>
    obtain ⟨g₁, c, body₁, hstep, hs₁, htrail₁⟩ := hs.enter_child options htrail head.name
      (Edit.marks file head.labels) (Edit.site file index head.span head.nameSpan)
    have hbound := enter_child_bound hstep hfree (by rw [names_of_marks]; exact mem)
    have hplaced : Placed l (above ++ [head.name]) g₁ := ⟨c, hbound, htrail₁⟩
    rw [edits_of_child] at hspare h
    rw [run_cons hstep] at h
    exact hplaced.later hs₁ (fun e he => hspare e (List.mem_cons_of_mem _ he)) h
  | @inside head inner items names below ih =>
    obtain ⟨g₁, c, body₁, hstep, hs₁, htrail₁⟩ := hs.enter_child options htrail head.name
      (Edit.marks file head.labels) (Edit.site file index head.span head.nameSpan)
    rw [labels_inside_child] at hone
    obtain ⟨hhead, hinner⟩ := once_right (once_left hone (List.mem_append_right _ below.mem)) below.mem
    have hfree₁ : g₁.labels.nodeOf? l = none :=
      (step_bound_other (by rw [attached, marked, names_of_marks]; exact hhead) hstep).trans hfree
    rw [edits_of_child] at hspare h
    rw [run_cons hstep] at h
    have hspare₁ : ∀ e ∈ Edit.ofItems file index inner, Spares e := fun e he =>
      hspare e (List.mem_cons_of_mem _ (List.mem_append_left _ he))
    obtain ⟨s₁, hrun, hrest⟩ := run_split hs₁ h
    have hplaced := ih hinner hspare₁ hs₁ hfree₁ htrail₁ hrun
    rw [List.append_assoc] at hplaced
    exact hplaced.later (hs₁.run hspare₁ hrun)
      (fun e he => hspare e (List.mem_cons_of_mem _ (List.mem_append_right _ he))) hrest
  | @later item items names after ih =>
    rw [labels_inside_cons] at hone
    obtain ⟨hitem, hrest⟩ := once_right hone after.mem
    have hspare₁ : ∀ e ∈ Edit.ofItem file index item, Spares e := fun e he =>
      hspare e (List.mem_append_left _ he)
    obtain ⟨g₁, body₁, hrun, hnode, _⟩ := item_contract options file index item
      (local_of_spares file index item hspare₁) g body bodies hs.settled
    have hfree₁ : g₁.labels.nodeOf? l = none := by
      refine (run_bound_other hs.settled (fun e he hl => hitem ?_) hrun).trans hfree
      exact attached_inside (by simpa [Edit.ofItems] using he) hl
    have htrail₁ : Trail g₁ above body₁.node := hnode ▸ hs.trail hspare₁ hrun htrail
    rw [Edit.ofItems, run_append hrun] at h
    exact ih hrest (fun e he => hspare e (List.mem_append_right _ he)) (hs.run hspare₁ hrun) hfree₁
      htrail₁ h

/-- Merging the root's body with a label places the label. -/
theorem root_fragment_placed {file : FileId} {front : List LabelDecl} {items : List Item} {span : Span}
    {names : List NodeName} (hw : Written l items names)
    (hone : (labelsOf ⟨file, .root front items span⟩).count l = 1) {index : Nat}
    (hspare : ∀ e ∈ Edit.ofFragment index ⟨file, .root front items span⟩, Spares e) (hs : Spared s)
    (hfree : s.graph.labels.nodeOf? l = none)
    (h : Merge.run options s (Edit.ofFragment index ⟨file, .root front items span⟩) = .ok t) :
    Placed l names t.graph := by
  obtain ⟨hfront, hinside⟩ := once_right hone hw.mem
  have hstep : Merge.step options s
      (.enterRoot (Edit.marks file front) (Edit.site file index span span)) = .ok _ := rfl
  rw [Edit.ofFragment] at hspare h
  rw [run_cons hstep] at h
  have hs₁ := hs.step (hspare _ List.mem_cons_self) hstep
  have hfree₁ := (step_bound_other (by rw [attached, marked, names_of_marks]; exact hfront) hstep).trans hfree
  obtain ⟨s₁, hrun, hleave⟩ := run_split hs₁ h
  have hspare₁ : ∀ e ∈ Edit.ofItems file index items, Spares e := fun e he =>
    hspare e (List.mem_cons_of_mem _ (List.mem_append_left _ he))
  have hplaced := hw.placed hinside hspare₁ hs₁ hfree₁ .root hrun
  exact hplaced.later (hs₁.run hspare₁ hrun)
    (fun e he => hspare e (List.mem_cons_of_mem _ (List.mem_append_right _ he))) hleave

/-- Merging fragments of which one has the label in the root's body places the label. -/
theorem fragments_placed {fragments : List Fragment} (hone : (labelsIn fragments).count l = 1)
    {file : FileId} {front : List LabelDecl} {items : List Item} {span : Span} {names : List NodeName}
    (hroot : ⟨file, .root front items span⟩ ∈ fragments) (hw : Written l items names) {index : Nat}
    (hspare : ∀ e ∈ Edit.ofFragments index fragments, Spares e) (hs : Spared s)
    (hfree : s.graph.labels.nodeOf? l = none)
    (h : Merge.run options s (Edit.ofFragments index fragments) = .ok t) :
    Placed l names t.graph := by
  induction fragments generalizing index s with
  | nil => cases hroot
  | cons f fs ih =>
    rw [labelsIn, List.flatMap_cons] at hone
    obtain ⟨s₁, hrun, hrest⟩ := run_split hs h
    have hfirst : ∀ e ∈ Edit.ofFragment index f, Spares e := fun e he =>
      hspare e (List.mem_append_left _ he)
    have hothers : ∀ e ∈ Edit.ofFragments (index + 1) fs, Spares e := fun e he =>
      hspare e (List.mem_append_right _ he)
    have hs₁ := hs.run hfirst hrun
    rcases List.mem_cons.mp hroot with rfl | hlater
    · have hinside : l ∈ labelsOf ⟨file, .root front items span⟩ := List.mem_append_right _ hw.mem
      exact (root_fragment_placed hw (once_left hone hinside) hfirst hs hfree hrun).later hs₁ hothers hrest
    · have hwritten : l ∈ labelsIn fs :=
        List.mem_flatMap.mpr ⟨_, hlater, List.mem_append_right _ hw.mem⟩
      obtain ⟨hnot, honce⟩ := once_right hone hwritten
      have hfree₁ : s₁.graph.labels.nodeOf? l = none := by
        refine (run_bound_other hs.settled (fun e he hl => hnot ?_) hrun).trans hfree
        exact attached_of_fragment he hl
      exact ih honce hlater hothers hs₁ hfree₁ hrest

end Placed

end Devicetree.Proofs
