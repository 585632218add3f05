import Devicetree.Proofs.IssueAccounts
import Devicetree.Proofs.ReferenceFragments

namespace Devicetree.Proofs

def isShown (options : BuildOptions) (i : Issue) : Bool :=
  match i.kind with
  | .duplicatePhandle => options.duplicatePhandles
  | .deletedByDirective => options.deletedEntities
  | _ => true

def muted (options : BuildOptions) (g : Graph) : Graph :=
  { g with issues := g.issues.filter (isShown options) }

def mutedState (options : BuildOptions) (s : Merge.State) : Merge.State :=
  { s with graph := muted options s.graph }

section Reads
variable (options : BuildOptions) (g : Graph)

/-- No lookup tells a graph from one with other issues. -/
theorem alike_muted (anonymous : NodeId → Bool) : Alike anonymous (muted options g) g := ⟨rfl⟩

theorem live_muted (id : NodeId) : (muted options g).isLive id = g.isLive id :=
  (alike_muted options g fun _ => false).read (fun g => g.isLive id) fun g => live_bare _ g id

theorem path_muted (id : NodeId) : (muted options g).pathOf id = g.pathOf id := by
  have hancestors : (muted options g).ancestors id = g.ancestors id :=
    (alike_muted options g fun _ => false).read (fun g => g.ancestors id) fun g => ancestors_bare _ g id
  simp only [Graph.pathOf, Graph.segments, hancestors]
  rfl

theorem descendants_muted (id : NodeId) : (muted options g).descendants id = g.descendants id := by
  have hvisit : ∀ n stack, (muted options g).visit n stack = g.visit n stack := by
    intro n
    induction n with
    | zero => exact fun _ => rfl
    | succ n ih =>
      intro stack
      cases stack with
      | nil => rfl
      | cons id stack => exact congrArg (id :: ·) (ih (g.children id ++ stack))
  exact hvisit g.nodes.size [id]

end Reads

section Updates
variable (options : BuildOptions) (g : Graph)

theorem muted_report {fault : Fault} {location : Location}
    (h : isShown options (.ofFault fault location) = true) :
    muted options (g.report (.ofFault fault location)) = (muted options g).report (.ofFault fault location) := by
  simp [muted, Graph.report, h]

theorem muted_report_if (p : Prop) [Decidable p] {fault : Fault} {location : Location}
    (h : isShown options (.ofFault fault location) = true) :
    muted options (if p then g.report (.ofFault fault location) else g) =
      if p then (muted options g).report (.ofFault fault location) else muted options g := by
  split
  · exact muted_report options g h
  · rfl

theorem muted_attachLabel (fromReference : Bool) (id : NodeId) (m : LabelMark) :
    muted options (g.attachLabel fromReference id m) = (muted options g).attachLabel fromReference id m := by
  have hbound : (muted options g).labels.nodeOf? m.name = g.labels.nodeOf? m.name := rfl
  unfold Graph.attachLabel
  rw [hbound]
  cases g.labels.nodeOf? m.name with
  | none => rfl
  | some holder =>
    simp only [live_muted, path_muted]
    split
    · cases fromReference with
      | true => rfl
      | false => exact congrArg (Graph.addLabel · id m) (muted_report options g rfl)
    · split
      · exact muted_report options g rfl
      · rfl

theorem muted_attachLabels (id : NodeId) (labels : List LabelMark) (fromReference : Bool) :
    muted options (g.attachLabels id labels fromReference) =
      (muted options g).attachLabels id labels fromReference := by
  unfold Graph.attachLabels
  induction labels generalizing g with
  | nil => rfl
  | cons m labels ih =>
    rw [List.foldl_cons, List.foldl_cons, ← muted_attachLabel]
    exact ih (g.attachLabel fromReference id m)

theorem muted_ensure (id : NodeId) (names : List NodeName) :
    (muted options g).ensure id names = (muted options (g.ensure id names).1, (g.ensure id names).2) := by
  induction names generalizing g id with
  | nil => rfl
  | cons name names ih =>
    have hfound : (muted options g).childByName? id name false = g.childByName? id name false := rfl
    simp only [Graph.ensure, hfound]
    cases g.childByName? id name false with
    | some child => exact ih g child
    | none => exact ih (g.addChild name id) g.nextNode

theorem muted_ensureTarget (target : NodeRef) :
    (muted options g).ensureTarget? target =
      (g.ensureTarget? target).map fun r => (muted options r.1, r.2) := by
  have hpath : ∀ p, (muted options g).ensurePath? p =
      (g.ensurePath? p).map fun r => (muted options r.1, r.2) := by
    intro p
    unfold Graph.ensurePath?
    split
    · rw [muted_ensure]
      rfl
    · rfl
  cases target with
  | path p => exact hpath p
  | label l =>
    have hbound : (muted options g).labels = g.labels := rfl
    simp only [Graph.ensureTarget?, hbound, live_muted]
    cases g.labels.nodeOf? l with
    | some id => cases hlive : g.isLive id <;> simp [hlive]
    | none => cases g.labels.pathOf? l <;> simp [hpath]

theorem muted_reach (target : NodeRef) (site : Site) :
    (muted options g).reach target site =
      (muted options (g.reach target site).1, (g.reach target site).2) := by
  unfold Graph.reach
  rw [muted_ensureTarget]
  cases g.ensureTarget? target with
  | some r => rfl
  | none => exact congrArg (fun g' : Graph => (g'.addOrphan, g.nextNode)) (muted_report options g rfl).symm

theorem muted_ensureChild (parent : NodeId) (name : NodeName) :
    (muted options g).ensureChild parent name =
      (muted options (g.ensureChild parent name).1, (g.ensureChild parent name).2) := by
  have hfound : (muted options g).childByName? parent name true = g.childByName? parent name true := rfl
  unfold Graph.ensureChild
  rw [hfound]
  cases g.childByName? parent name true <;> rfl

theorem muted_setProperty (owner : NodeId) (name : String) (values : List Value) (labels : List LabelMark)
    (site : Site) :
    muted options (g.setProperty owner name values labels site) =
      (muted options g).setProperty owner name values labels site := by
  have hlive : (muted options g).liveProperty? owner name = g.liveProperty? owner name := rfl
  unfold Graph.setProperty
  rw [hlive]
  cases g.liveProperty? owner name <;> rfl

theorem muted_addDirective (d : Directive) :
    muted options (g.addDirective d) = (muted options g).addDirective d := by
  unfold Graph.addDirective
  cases d.scope <;> rfl

/-- Issues that show or not, all of them alike, are reported or not. -/
theorem muted_more {log : IssueLog} {shown : Bool} (h : ∀ i ∈ log, isShown options i = shown) :
    muted options { g with issues := g.issues ++ log } =
      if shown then { muted options g with issues := (muted options g).issues ++ log } else muted options g := by
  cases shown with
  | true =>
    have hall : log.filter (isShown options) = log := List.filter_eq_self.mpr h
    simp [muted, hall]
  | false =>
    have hnone : log.filter (isShown options) = [] := List.filter_eq_nil_iff.mpr fun i hi => by simp [h i hi]
    simp [muted, hnone]

theorem muted_reportDeleted (what : String) (directive : Location) (locations : List Location) :
    muted options (g.reportDeleted {} what directive locations) =
      (muted options g).reportDeleted options what directive locations := by
  have hshown : ∀ i ∈ locations.map (fun l => Issue.deleted l directive what),
      isShown options i = options.deletedEntities := by
    intro i hi
    obtain ⟨l, _, rfl⟩ := List.mem_map.mp hi
    rfl
  exact muted_more options g hshown

theorem muted_detach {g g' : Graph} {id : NodeId} {directive : DirectiveId}
    (h : g.detach {} id directive = .ok g') :
    (muted options g).detach options id directive = .ok (muted options g') := by
  have hparent : (muted options g).parent? id = g.parent? id := rfl
  unfold Graph.detach at h ⊢
  rw [hparent]
  cases hp : g.parent? id with
  | none =>
    rw [hp] at h
    cases h
  | some parent =>
    have hchildren : (muted options g).children parent = g.children parent := rfl
    simp only [hp, hchildren] at h ⊢
    split at h
    · rename_i hc
      obtain rfl := Except.ok.inj h
      rw [if_pos hc]
      exact congrArg Except.ok (muted_reportDeleted options (g.dropChild parent id directive) _ _ _).symm
    · cases h

theorem muted_deleteNode {g g' : Graph} {scope : Option NodeId} {target : DeleteTarget} {site : Site}
    (h : g.deleteNode {} scope target site = .ok g') :
    (muted options g).deleteNode options scope target site = .ok (muted options g') := by
  have hfound : (muted options g).deletionTarget? scope target = g.deletionTarget? scope target :=
    (alike_muted options g fun _ => false).read (fun g => g.deletionTarget? scope target)
      fun g => deletion_target_bare _ g scope target
  have hnext : (muted options g).nextDirective = g.nextDirective := rfl
  unfold Graph.deleteNode at h ⊢
  rw [hfound, hnext]
  cases hn : g.deletionTarget? scope target with
  | none =>
    rw [hn] at h
    obtain rfl := Except.ok.inj h
    simp only [← muted_addDirective]
    exact congrArg Except.ok (muted_report options _ rfl).symm
  | some n =>
    rw [hn] at h
    simp only [← muted_addDirective]
    exact muted_detach options h

theorem muted_deleteProperty (owner : NodeId) (name : String) (site : Site) :
    muted options (g.deleteProperty {} owner name site) =
      (muted options g).deleteProperty options owner name site := by
  have hfound : (muted options g).liveProperty? owner name = g.liveProperty? owner name := rfl
  have hnext : (muted options g).nextDirective = g.nextDirective := rfl
  unfold Graph.deleteProperty
  rw [hfound, hnext]
  cases g.liveProperty? owner name with
  | none =>
    simp only [← muted_addDirective]
    exact muted_report options _ rfl
  | some p =>
    simp only [← muted_addDirective]
    generalize g.addDirective _ = added
    let dropped := added.dropProperty owner name p g.nextDirective
    have hversions : (muted options dropped).olderVersions p = dropped.olderVersions p :=
      older_versions_congr dropped (muted options dropped) rfl p
    have hreport := muted_reportDeleted options dropped s!"property '{name}'" site.location
      ((dropped.olderVersions p).map fun v => (dropped.property v).site.location)
    refine hreport.trans ?_
    rw [← hversions]
    rfl

end Updates

section Steps
variable (options : BuildOptions)

/-- One edit under some options and under the default ones. -/
theorem muted_step {s t : Merge.State} {e : Edit} (h : Merge.step {} s e = .ok t) :
    Merge.step options (mutedState options s) e = .ok (mutedState options t) := by
  obtain ⟨g, frames⟩ := s
  cases e with
  | enterRoot labels site =>
    obtain rfl := Except.ok.inj h
    have hlabels := muted_attachLabels options (g.addDefinition Graph.root .root site) Graph.root labels false
    simp only [mutedState, Merge.enter, hlabels]
    rfl
  | enterReference target labels site =>
    rw [enter_reference_eq] at h
    obtain rfl := Except.ok.inj h
    simp only [mutedState, enter_reference_eq, muted_reach, muted_attachLabels]
    rfl
  | enterChild name labels site =>
    cases frames with
    | nil =>
      obtain rfl := Except.ok.inj h
      rfl
    | cons f fs =>
      have hbefore : beforeChild (muted options g) f name site = muted options (beforeChild g f name site) :=
        (muted_report_if options g _ rfl).symm
      rw [enter_child_eq] at h
      obtain rfl := Except.ok.inj h
      simp only [mutedState, enter_child_eq, hbefore, muted_ensureChild, muted_attachLabels]
      rfl
  | leave =>
    obtain rfl := Except.ok.inj h
    rfl
  | property name values labels site =>
    cases frames with
    | nil =>
      obtain rfl := Except.ok.inj h
      rfl
    | cons f fs =>
      obtain rfl := Except.ok.inj h
      simp only [mutedState, muted_setProperty]
      rw [muted_report_if options g _ rfl]
      rfl
  | deleteNode target site =>
    simp only [Merge.step] at h
    cases hdelete : g.deleteNode {} (frames.head?.map Merge.Frame.node) target site with
    | error why =>
      rw [hdelete] at h
      cases h
    | ok g₁ =>
      rw [hdelete] at h
      obtain rfl := Except.ok.inj h
      simp only [mutedState, Merge.step, muted_deleteNode options hdelete]
      rfl
  | deleteProperty name site =>
    cases frames with
    | nil =>
      obtain rfl := Except.ok.inj h
      rfl
    | cons f fs =>
      obtain rfl := Except.ok.inj h
      simp only [mutedState, muted_deleteProperty]
      rfl

/-- A merge under some options is the merge under the default ones with issues left out. -/
theorem muted_run {s t : Merge.State} {edits : List Edit} (h : Merge.run {} s edits = .ok t) :
    Merge.run options (mutedState options s) edits = .ok (mutedState options t) := by
  induction edits generalizing s with
  | nil =>
    obtain rfl := Except.ok.inj h
    rfl
  | cons e edits ih =>
    obtain ⟨s₁, hstep, hrest⟩ := run_cons_inv h
    rw [run_cons (muted_step options hstep)]
    exact ih hrest

theorem duplicate_phandles_muted (g : Graph) (holders : Table UInt64 NodeId) (ids : List NodeId) :
    (muted options g).duplicatePhandles holders ids = g.duplicatePhandles holders ids := by
  have hnode : ∀ id, (muted options g).node id = g.node id := fun _ => rfl
  have hlive : ∀ id, (muted options g).liveProperty? id "phandle" = g.liveProperty? id "phandle" := fun _ => rfl
  have hproperty : ∀ p, (muted options g).property p = g.property p := fun _ => rfl
  induction ids generalizing holders with
  | nil => rfl
  | cons id ids ih => simp only [Graph.duplicatePhandles, hnode, hlive, hproperty, path_muted, ih]

theorem muted_finish (g : Graph) : (muted options g).finish options = muted options (g.finish {}) := by
  have hassign : (muted options g).assignPhandles = muted options g.assignPhandles := rfl
  have hshown : ∀ i ∈ g.assignPhandles.duplicatePhandles {} (g.assignPhandles.descendants Graph.root),
      isShown options i = options.duplicatePhandles := by
    intro i hi
    simp only [isShown, kind_duplicatePhandles _ _ _ i hi]
  simp only [Graph.finish, hassign, duplicate_phandles_muted, descendants_muted]
  exact (muted_more options g.assignPhandles hshown).symm

/-- A build under some options is the build under the default ones with issues left out. -/
theorem muted_build {bindings : BindingProvider} {evaluator : ConstEvaluator} {fragments : List Fragment}
    {isCancelled isCancelled' : Nat → Bool} {g full : Graph}
    (hg : Build.build ⟨bindings, evaluator, options⟩ fragments isCancelled = .ok g)
    (hfull : Build.build ⟨bindings, evaluator, {}⟩ fragments isCancelled' = .ok full) :
    g = muted options full := by
  obtain ⟨s, hrun, _, _, rfl⟩ := built_of_run hg
  obtain ⟨t, hdefault, _, _, rfl⟩ := built_of_run hfull
  have hmuted : Merge.run options (Build.start ⟨bindings, evaluator, options⟩ fragments)
      (Edit.ofFragments 0 fragments) = .ok (mutedState options t) := muted_run options hdefault
  obtain rfl := Except.ok.inj (hrun.symm.trans hmuted)
  exact muted_finish options t.graph

end Steps

section Places

def bareContent : Fragment.Content → Fragment.Content
  | .root labels body _ => .root (labels.map bareDecl) (bareItems body) {}
  | .reference target labels body _ _ => .reference target (labels.map bareDecl) (bareItems body) {} {}
  | .delete d => .delete { d with targetSpan := {}, span := {} }

def bareFragment (f : Fragment) : Fragment := ⟨{}, bareContent f.content⟩

theorem bare_ofFragment (index index' : Nat) (f : Fragment) :
    (Edit.ofFragment index f).map bareEdit = (Edit.ofFragment index' (bareFragment f)).map bareEdit := by
  obtain ⟨file, content⟩ := f
  cases content with
  | root labels body span =>
    simp [Edit.ofFragment, bareFragment, bareContent, bareEdit, bare_marks file {} labels,
      bare_ofItems file {} index index' body]
  | reference target labels body targetSpan span =>
    simp [Edit.ofFragment, bareFragment, bareContent, bareEdit, bare_marks file {} labels,
      bare_ofItems file {} index index' body]
  | delete d => rfl

theorem bare_ofFragments (index : Nat) (fragments : List Fragment) :
    (Edit.ofFragments index fragments).map bareEdit =
      (Edit.ofFragments index (fragments.map bareFragment)).map bareEdit := by
  induction fragments generalizing index with
  | nil => rfl
  | cons f fs ih => simp [Edit.ofFragments, bare_ofFragment index index f, ih (index + 1)]

def bareLabels (labels : Labels) : Labels := { labels with declared := labels.declared.map bareEntry }

theorem bare_entries (file file' : FileId) (labels : List LabelDecl) (path : Option String)
    (fromReference : Bool) :
    (Labels.entries (Edit.marks file labels) path fromReference).map bareEntry =
      (Labels.entries (Edit.marks file' (labels.map bareDecl)) path fromReference).map bareEntry := by
  simp [Labels.entries, Edit.marks, bareEntry, bareDecl, Function.comp_def]

mutual

theorem bare_labels_ofItem (file file' : FileId) (path : String) : (item : Item) →
    (Labels.ofItem file path item).map bareEntry = (Labels.ofItem file' path (bareItem item)).map bareEntry
  | .property _ => rfl
  | .child head body => by
    simp [Labels.ofItem, bareItem, bareHead, bare_entries file file' head.labels,
      bare_labels_ofItems file file' _ body]
  | .deleteNode _ => rfl
  | .deleteProperty _ => rfl

theorem bare_labels_ofItems (file file' : FileId) (path : String) : (items : List Item) →
    (Labels.ofItems file path items).map bareEntry = (Labels.ofItems file' path (bareItems items)).map bareEntry
  | [] => rfl
  | item :: items => by
    simp [Labels.ofItems, bareItems, bare_labels_ofItem file file' path item,
      bare_labels_ofItems file file' path items]

end

theorem path_of_bare (labels : Labels) (l : String) : (bareLabels labels).pathOf? l = labels.pathOf? l := by
  simp only [Labels.pathOf?, bareLabels, List.findSome?_map]
  rfl

/-- What labels a fragment declares, and with which paths, does not depend on places. -/
theorem bare_declare {labels labels' : Labels} (h : bareLabels labels = bareLabels labels') (f : Fragment) :
    bareLabels (labels.declare f) = bareLabels (labels'.declare (bareFragment f)) := by
  have happend : ∀ {more more' : List LabelEntry}, more.map bareEntry = more'.map bareEntry →
      bareLabels (labels.append more) = bareLabels (labels'.append more') := by
    intro more more' hmore
    obtain ⟨hdeclared, hbound⟩ := Labels.mk.inj h
    simp [bareLabels, Labels.append, hdeclared, hbound, hmore]
  have hpath : ∀ l, labels.pathOf? l = labels'.pathOf? l := fun l => by
    rw [← path_of_bare, h, path_of_bare]
  obtain ⟨file, content⟩ := f
  cases content with
  | root marks body span =>
    refine happend ?_
    simp [bareFragment, bare_entries file {} marks, bare_labels_ofItems file {} _ body]
  | reference target marks body targetSpan span =>
    refine happend ?_
    cases target with
    | label l =>
      simp only [hpath l]
      cases labels'.pathOf? l with
      | none => simp [bareFragment, bare_entries file {} marks]
      | some p => simp [bareFragment, bare_entries file {} marks, bare_labels_ofItems file {} _ body]
    | path p => simp [bareFragment, bare_entries file {} marks, bare_labels_ofItems file {} _ body]
  | delete d => exact h

theorem bare_labels_ofFragments (fragments : List Fragment) :
    bareLabels (Labels.ofFragments fragments) =
      bareLabels (Labels.ofFragments (fragments.map bareFragment)) := by
  have hfold : ∀ {labels labels' : Labels}, bareLabels labels = bareLabels labels' →
      bareLabels (fragments.foldl Labels.declare labels) =
        bareLabels ((fragments.map bareFragment).foldl Labels.declare labels') := by
    induction fragments with
    | nil => exact fun h => h
    | cons f fs ih => exact fun h => ih (bare_declare h f)
  exact hfold rfl

/-- Merges of fragments that differ in places only start alike. -/
theorem start_alike (anonymous : NodeId → Bool) (config : BuildConfig) {fragments fragments' : List Fragment}
    (h : fragments.map bareFragment = fragments'.map bareFragment) :
    Alike anonymous (Build.start config fragments).graph (Build.start config fragments').graph := by
  have hlabels : bareLabels (Labels.ofFragments fragments) = bareLabels (Labels.ofFragments fragments') := by
    rw [bare_labels_ofFragments, h, ← bare_labels_ofFragments]
  exact ⟨congrArg (fun labels => { bareGraph anonymous (Build.start config []).graph with labels }) hlabels⟩

/-- Fragments that differ in places only are built to graphs that are alike. -/
theorem builds_alike (anonymous : NodeId → Bool) {config : BuildConfig} {fragments fragments' : List Fragment}
    (h : fragments.map bareFragment = fragments'.map bareFragment) {isCancelled isCancelled' : Nat → Bool}
    {g g' : Graph} (hg : Build.build config fragments isCancelled = .ok g)
    (hg' : Build.build config fragments' isCancelled' = .ok g') : Alike anonymous g g' := by
  obtain ⟨s, hrun, _, _, rfl⟩ := built_of_run hg
  obtain ⟨s', hrun', _, _, rfl⟩ := built_of_run hg'
  have hedits : (Edit.ofFragments 0 fragments').map bareEdit = (Edit.ofFragments 0 fragments).map bareEdit := by
    rw [bare_ofFragments, ← h, ← bare_ofFragments]
  exact ((start_alike anonymous config h).runs hedits hrun hrun').1.finish config.options

end Places

/-- No change touches the list of the fragments. -/
theorem Change.fragments {g g' : Graph} (h : Change g g') : g'.fragments = g.fragments := by
  cases h with
  | property owner name values labels site =>
    unfold Graph.setProperty
    cases g.liveProperty? owner name <;> rfl
  | directive d =>
    unfold Graph.addDirective
    cases d.scope <;> rfl
  | _ => rfl

theorem Changes.fragments {g g' : Graph} (h : Changes g g') : g'.fragments = g.fragments := by
  induction h with
  | refl => rfl
  | tail _ hc ih => exact hc.fragments.trans ih

theorem built_fragments {config : BuildConfig} {fragments : List Fragment} {isCancelled : Nat → Bool} {g : Graph}
    (h : Build.build config fragments isCancelled = .ok g) : g.fragments = fragments.map Fragment.location := by
  obtain ⟨s, _, hc, _, rfl⟩ := built_of_run h
  have hmerged : s.graph.fragments = fragments.map Fragment.location := hc.fragments
  rw [← hmerged, Graph.finish]
  split <;> rfl

/-- The one graph that a build of the fragments may return. It returns it unless it is cancelled. -/
def Yields (config : BuildConfig) (fragments : List Fragment) (g : Graph) : Prop :=
  Build.build config fragments (fun _ => false) = .ok g ∧
    ∀ isCancelled g', Build.build config fragments isCancelled = .ok g' → g' = g

theorem exists_yields (config : BuildConfig) (fragments : List Fragment) : ∃ g, Yields config fragments g := by
  obtain ⟨g, hg⟩ := build_never_cancelled config fragments
  refine ⟨g, hg, fun isCancelled g' hg' => ?_⟩
  obtain ⟨s, hrun, _, _, rfl⟩ := built_of_run hg
  obtain ⟨s', hrun', _, _, rfl⟩ := built_of_run hg'
  obtain rfl := Except.ok.inj (hrun.symm.trans hrun')
  rfl

/-- Neither the places where fragments are written nor the options have a say in the merge. Fragments that differ in
files and spans only, built under any options, give graphs that differ in places, orders and issues only; and the
issues under some options are those under the default options that the options let show, in their order. -/
theorem build_regardless (bindings : BindingProvider) (evaluator : ConstEvaluator) {fragments fragments' : List Fragment}
    (h : fragments.map bareFragment = fragments'.map bareFragment) (options options' : BuildOptions) :
    ∃ g g' full,
      Yields ⟨bindings, evaluator, options⟩ fragments g ∧
      Yields ⟨bindings, evaluator, options'⟩ fragments' g' ∧
      Yields ⟨bindings, evaluator, {}⟩ fragments full ∧
      bareGraph (fun _ => false) g = bareGraph (fun _ => false) g' ∧
      g.fragments.length = g'.fragments.length ∧
      g.issues = full.issues.filter (isShown options) := by
  obtain ⟨g, hg⟩ := exists_yields ⟨bindings, evaluator, options⟩ fragments
  obtain ⟨g', hg'⟩ := exists_yields ⟨bindings, evaluator, options'⟩ fragments'
  obtain ⟨full, hfull⟩ := exists_yields ⟨bindings, evaluator, {}⟩ fragments
  obtain ⟨full', hfull'⟩ := exists_yields ⟨bindings, evaluator, {}⟩ fragments'
  have hmuted : g = muted options full := muted_build options hg.1 hfull.1
  have hmuted' : g' = muted options' full' := muted_build options' hg'.1 hfull'.1
  refine ⟨g, g', full, hg, hg', hfull, ?_, ?_, congrArg Graph.issues hmuted⟩
  · calc bareGraph (fun _ => false) g
        = bareGraph (fun _ => false) full := by rw [hmuted, (alike_muted options full _).bare]
      _ = bareGraph (fun _ => false) full' := (builds_alike _ h hfull.1 hfull'.1).bare
      _ = bareGraph (fun _ => false) g' := by rw [hmuted', (alike_muted options' full' _).bare]
  · have hlength := congrArg List.length h
    rw [built_fragments hg.1, built_fragments hg'.1]
    simpa using hlength

/-- Two nodes with one phandle and one label, a property and a node that are deleted, and a reference to nowhere,
all of it written in the given file at the given spans. -/
def drafted (file : FileId) (span name : Span) : List Fragment :=
  [⟨file, .root []
      [.child { name := { name := "soc" }, labels := [⟨"soc", name⟩], nameSpan := name, span := span }
        [.property { name := "phandle", values := [.cells [.expr (.num 1)]], nameSpan := name, span := span },
          .property { name := "status", nameSpan := name, span := span },
          .deleteProperty { name := "status", nameSpan := name, span := span }],
        .child { name := { name := "bus" }, labels := [⟨"soc", span⟩], nameSpan := name, span := span }
          [.property { name := "phandle", values := [.cells [.expr (.num 1)]], nameSpan := span, span := name }]]
      span⟩,
    ⟨file, .reference (.label "nowhere") [⟨"lost", name⟩] [] name span⟩,
    ⟨file, .reference (.path "/bus") [] [.child { name := { name := "port" }, nameSpan := name, span := span } []]
      name span⟩,
    ⟨file, .delete ⟨.ref (.path "/bus/port"), name, span⟩⟩]

theorem build_regardless_drafted :
    ∃ g g' full,
      Yields ⟨default, default, { duplicatePhandles := false }⟩ (drafted ⟨0⟩ {} {}) g ∧
      Yields ⟨default, default, { deletedEntities := false }⟩ (drafted ⟨7⟩ ⟨⟨1, 2⟩, ⟨3, 4⟩⟩ ⟨⟨9, 0⟩, ⟨0, 9⟩⟩) g' ∧
      Yields ⟨default, default, {}⟩ (drafted ⟨0⟩ {} {}) full ∧
      full.issues.map Issue.kind = [.deletedByDirective, .labelAlreadyInUse, .unableToResolveChildNode,
        .deletedByDirective, .duplicatePhandle] ∧
      bareGraph (fun _ => false) g = bareGraph (fun _ => false) g' ∧
      g.fragments.length = g'.fragments.length ∧
      g.issues = full.issues.filter (isShown { duplicatePhandles := false }) := by
  obtain ⟨g, g', full, hg, hg', hfull, hbare, hlength, hissues⟩ := build_regardless default default
    (show (drafted ⟨0⟩ {} {}).map bareFragment =
      (drafted ⟨7⟩ ⟨⟨1, 2⟩, ⟨3, 4⟩⟩ ⟨⟨9, 0⟩, ⟨0, 9⟩⟩).map bareFragment from rfl)
    { duplicatePhandles := false } { deletedEntities := false }
  obtain ⟨full', hfull', hkinds⟩ : ∃ full, Build.build {} (drafted ⟨0⟩ {} {}) (fun _ => false) = .ok full ∧
      full.issues.map Issue.kind = [.deletedByDirective, .labelAlreadyInUse, .unableToResolveChildNode,
        .deletedByDirective, .duplicatePhandle] := exists_built (by decide +kernel)
  obtain rfl := hfull.2 _ _ hfull'
  exact ⟨g, g', full', hg, hg', hfull, hkinds, hbare, hlength, hissues⟩

end Devicetree.Proofs
