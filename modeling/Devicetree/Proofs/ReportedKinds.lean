import Devicetree.Proofs.Alike
import Devicetree.Proofs.IssueAccounts

namespace Devicetree.Proofs

def labelKinds : List IssueKind := [.labelReassigned, .labelAlreadyInUse]

def reportable : Edit → List IssueKind
  | .enterRoot _ _ => labelKinds
  | .enterReference _ _ _ => .unableToResolveChildNode :: labelKinds
  | .enterChild _ _ _ => .duplicateNodeName :: labelKinds
  | .leave => []
  | .property _ _ _ _ => [.duplicatePropertyName]
  | .deleteNode _ _ => [.nodeDoesNotExist, .deletedByDirective]
  | .deleteProperty _ _ => [.propertyDoesNotExist, .deletedByDirective]

def Reports (kinds : List IssueKind) (g g' : Graph) : Prop :=
  ∃ more, g'.issues = g.issues ++ more ∧ ∀ i ∈ more, i.kind ∈ kinds

variable {kinds : List IssueKind} {g g' g'' : Graph}

section Updates

theorem reports_of_same (kinds : List IssueKind) (h : g'.issues = g.issues) : Reports kinds g g' :=
  ⟨[], by simp [h], by simp⟩

theorem Reports.trans (h : Reports kinds g g') (h' : Reports kinds g' g'') : Reports kinds g g'' := by
  obtain ⟨more, hmore, hkinds⟩ := h
  obtain ⟨more', hmore', hkinds'⟩ := h'
  refine ⟨more ++ more', by rw [hmore', hmore, List.append_assoc], ?_⟩
  intro i hi
  rcases List.mem_append.mp hi with hi | hi
  · exact hkinds i hi
  · exact hkinds' i hi

theorem Reports.mono {kinds' : List IssueKind} (h : Reports kinds g g') (hk : kinds ⊆ kinds') :
    Reports kinds' g g' := by
  obtain ⟨more, hmore, hkinds⟩ := h
  exact ⟨more, hmore, fun i hi => hk (hkinds i hi)⟩

theorem Reports.extends (h : Reports kinds g g') : g.issues <+: g'.issues := by
  obtain ⟨more, hmore, _⟩ := h
  exact ⟨more, hmore.symm⟩

/-- An update adds no issue of a kind that it does not report. -/
theorem Reports.filter_kind (h : Reports kinds g g') {kind : IssueKind} (hk : kind ∉ kinds) :
    g'.issues.filter (fun i => decide (i.kind = kind)) = g.issues.filter fun i => decide (i.kind = kind) := by
  obtain ⟨more, hmore, hkinds⟩ := h
  have hnone : more.filter (fun i => decide (i.kind = kind)) = [] := by
    refine List.filter_eq_nil_iff.mpr fun i hi => ?_
    simp only [decide_eq_true_eq]
    rintro rfl
    exact hk (hkinds i hi)
  rw [hmore, List.filter_append, hnone, List.append_nil]

theorem reports_report (g : Graph) (fault : Fault) (location : Location) (hk : fault.kind ∈ kinds) :
    Reports kinds g (g.report (.ofFault fault location)) := by
  refine ⟨[_], rfl, fun i hi => ?_⟩
  obtain rfl := List.mem_singleton.mp hi
  exact hk

theorem reports_report_if (g : Graph) (p : Prop) [Decidable p] (fault : Fault) (location : Location)
    (hk : fault.kind ∈ kinds) : Reports kinds g (if p then g.report (.ofFault fault location) else g) := by
  split
  · exact reports_report g fault location hk
  · exact reports_of_same kinds rfl

theorem OnlyNodes.reports (h : OnlyNodes g g') : Reports kinds g g' := reports_of_same kinds (by rw [h])

theorem reports_attachLabels (g : Graph) (id : NodeId) (labels : List LabelMark) (fromReference : Bool) :
    Reports labelKinds g (g.attachLabels id labels fromReference) := by
  unfold Graph.attachLabels
  induction labels generalizing g with
  | nil => exact reports_of_same _ rfl
  | cons m labels ih =>
    refine Reports.trans ?_ (ih _)
    unfold Graph.attachLabel
    split
    · exact reports_of_same _ rfl
    · split
      · cases fromReference with
        | true => exact reports_of_same _ rfl
        | false => exact reports_report g (.labelReassigned m.name) m.location (by simp [Fault.kind, labelKinds])
      · split
        · exact reports_report g _ m.location (by simp [Fault.kind, labelKinds])
        · exact reports_of_same _ rfl

theorem reports_reach (g : Graph) (target : NodeRef) (site : Site) :
    Reports [.unableToResolveChildNode] g (g.reach target site).1 := by
  unfold Graph.reach
  split
  · rename_i r hr
    exact (only_nodes_ensureTarget hr).reports
  · exact reports_report g (.unableToResolve target) site.nameLocation (by simp [Fault.kind])

theorem reports_setProperty (g : Graph) (owner : NodeId) (name : String) (values : List Value)
    (labels : List LabelMark) (site : Site) : Reports kinds g (g.setProperty owner name values labels site) := by
  refine reports_of_same kinds ?_
  unfold Graph.setProperty
  cases g.liveProperty? owner name <;> rfl

theorem reports_reportDeleted (g : Graph) (options : BuildOptions) (what : String) (directive : Location)
    (locations : List Location) (hk : .deletedByDirective ∈ kinds) :
    Reports kinds g (g.reportDeleted options what directive locations) := by
  unfold Graph.reportDeleted
  split
  · refine ⟨_, rfl, fun i hi => ?_⟩
    obtain ⟨l, _, rfl⟩ := List.mem_map.mp hi
    exact hk
  · exact reports_of_same kinds rfl

theorem reports_deleteNode {options : BuildOptions} {scope : Option NodeId} {target : DeleteTarget} {site : Site}
    (h : g.deleteNode options scope target site = .ok g') :
    Reports [.nodeDoesNotExist, .deletedByDirective] g g' := by
  obtain ⟨x, rfl⟩ | ⟨x, parent, id, what, location, locations, rfl⟩ := delete_node_cases h
  · exact (reports_of_same _ (issues_addDirective g x)).trans
      (reports_report _ (.nodeDoesNotExist target) site.nameLocation (by simp [Fault.kind]))
  · refine Reports.trans (reports_of_same _ ?_) (reports_reportDeleted _ options what location locations (by simp))
    exact issues_addDirective g x

theorem reports_deleteProperty (g : Graph) (options : BuildOptions) (owner : NodeId) (name : String) (site : Site) :
    Reports [.propertyDoesNotExist, .deletedByDirective] g (g.deleteProperty options owner name site) := by
  unfold Graph.deleteProperty
  cases g.liveProperty? owner name with
  | none =>
    exact (reports_of_same _ (issues_addDirective g _)).trans
      (reports_report _ (.propertyDoesNotExist name) site.nameLocation (by simp [Fault.kind]))
  | some p =>
    refine Reports.trans (reports_of_same _ ?_) (reports_reportDeleted _ options _ _ _ (by simp))
    exact issues_addDirective g _

end Updates

section Steps
variable {options : BuildOptions} {s s' : Merge.State}

/-- Opening the body of a child reports the child if its name is among those declared in the body, and then what
there is to say of its labels. -/
theorem enter_child_issues {f : Merge.Frame} {fs : List Merge.Frame} {name : NodeName} {labels : List LabelMark}
    {site : Site} (hframes : s.frames = f :: fs)
    (h : Merge.step options s (.enterChild name labels site) = .ok s') :
    ∃ more, s'.graph.issues = s.graph.issues ++
        (if name ∈ f.children then [.ofFault (.duplicateNodeName name) site.nameLocation] else []) ++ more ∧
      ∀ i ∈ more, i.kind ∈ labelKinds := by
  simp only [Merge.step, hframes] at h
  obtain rfl := Except.ok.inj h
  obtain ⟨more, hmore, hkinds⟩ := reports_attachLabels _ _ labels false
  refine ⟨more, hmore.trans (congrArg (· ++ more) ?_), hkinds⟩
  have hsame : ∀ g₁ : Graph, (g₁.ensureChild f.node name).1.issues = g₁.issues :=
    fun g₁ => by rw [only_nodes_ensureChild g₁ f.node name]
  refine (hsame _).trans ?_
  split
  · rfl
  · exact (List.append_nil _).symm

/-- An edit reports issues of its own kinds only. -/
theorem step_reports {e : Edit} (h : Merge.step options s e = .ok s') :
    Reports (reportable e) s.graph s'.graph := by
  obtain ⟨g, frames⟩ := s
  cases e with
  | enterRoot labels site =>
    obtain rfl := Except.ok.inj h
    exact reports_attachLabels _ _ labels false
  | enterReference target labels site =>
    obtain rfl := Except.ok.inj h
    refine Reports.trans ((reports_reach g target site).mono ?_) ((reports_attachLabels _ _ labels true).mono ?_)
    · simp [reportable]
    · simp [reportable]
  | enterChild name labels site =>
    cases frames with
    | nil =>
      obtain rfl := Except.ok.inj h
      exact reports_of_same _ rfl
    | cons f fs =>
      obtain ⟨more, hmore, hkinds⟩ := enter_child_issues rfl h
      refine ⟨_, by rw [hmore, List.append_assoc], fun i hi => ?_⟩
      rcases List.mem_append.mp hi with hi | hi
      · split at hi
        · obtain rfl := List.mem_singleton.mp hi
          simp [reportable, Issue.ofFault, Issue.new, Fault.kind]
        · cases hi
      · exact List.mem_cons_of_mem _ (hkinds i hi)
  | leave =>
    obtain rfl := Except.ok.inj h
    exact reports_of_same _ rfl
  | property name values labels site =>
    cases frames with
    | nil =>
      obtain rfl := Except.ok.inj h
      exact reports_of_same _ rfl
    | cons f fs =>
      obtain rfl := Except.ok.inj h
      exact (reports_report_if g _ (.duplicatePropertyName name) site.nameLocation
        (by simp [reportable, Fault.kind])).trans (reports_setProperty _ f.node name values labels site)
  | deleteNode target site =>
    simp only [Merge.step] at h
    cases hdelete : g.deleteNode options (frames.head?.map Merge.Frame.node) target site with
    | error err =>
      rw [hdelete] at h
      cases h
    | ok g' =>
      rw [hdelete] at h
      obtain rfl := Except.ok.inj h
      exact reports_deleteNode hdelete
  | deleteProperty name site =>
    cases frames with
    | nil =>
      obtain rfl := Except.ok.inj h
      exact reports_of_same _ rfl
    | cons f fs =>
      obtain rfl := Except.ok.inj h
      exact reports_deleteProperty g options f.node name site

/-- A run reports issues of the kinds of its edits only. -/
theorem run_reports {edits : List Edit} (h : Merge.run options s edits = .ok s') :
    Reports (edits.flatMap reportable) s.graph s'.graph := by
  induction edits generalizing s with
  | nil =>
    obtain rfl := Except.ok.inj h
    exact reports_of_same _ rfl
  | cons e edits ih =>
    obtain ⟨t, ht, hrest⟩ := run_cons_inv h
    exact ((step_reports ht).mono (by simp)).trans ((ih hrest).mono (by simp))

end Steps

/-- The last pass adds what it has to say of phandles. -/
theorem reports_finish (g : Graph) (options : BuildOptions) :
    Reports [.duplicatePhandle] g (g.finish options) := by
  unfold Graph.finish
  simp only
  split
  · refine ⟨_, rfl, fun i hi => ?_⟩
    rw [kind_duplicatePhandles _ _ _ i hi]
    exact List.mem_singleton_self _
  · exact reports_of_same _ rfl

/-- No edit has anything to say of phandles. -/
theorem duplicate_phandle_not_reportable (e : Edit) : .duplicatePhandle ∉ reportable e := by
  cases e <;> simp [reportable, labelKinds]

end Devicetree.Proofs
