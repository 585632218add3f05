import Devicetree.Proofs.Directives
import Devicetree.Proofs.Versions

namespace Devicetree.Proofs

structure Notice where
  kind : IssueKind
  location : Location
  directive : Option Location
deriving DecidableEq

def Notice.of (i : Issue) : Notice := ⟨i.kind, i.location, i.linkedTo⟩

def comesOfDirective : IssueKind → Bool
  | .nodeDoesNotExist | .propertyDoesNotExist | .deletedByDirective => true
  | _ => false

def directiveNotices (g : Graph) : List Notice := (g.issues.filter fun i => comesOfDirective i.kind).map Notice.of

def issueCount (g : Graph) (kind : IssueKind) : Nat := g.issues.countP fun i => decide (i.kind = kind)

/-- The way back from `p` along `replaces` passes the versions listed, `p` first, and ends. -/
inductive Older (g : Graph) : PropertyId → List PropertyId → Prop
  | first {p : PropertyId} (h : (g.property p).replaces = none) : Older g p [p]
  | back {p q : PropertyId} {versions : List PropertyId} (h : (g.property p).replaces = some q)
      (hq : Older g q versions) : Older g p (p :: versions)

/-- Where everything is written that goes away with what a directive has removed. -/
inductive LostWith (g : Graph) : Option Removed → List Location → Prop
  | nothing : LostWith g none []
  | node (id : NodeId) : LostWith g (some (.node id))
      (((g.node id).definitions ++ (g.node id).referencedBy).map fun d => d.site.location)
  | property {p : PropertyId} {versions : List PropertyId} (h : Older g p versions) :
      LostWith g (some (.property p)) (versions.map fun v => (g.property v).site.location)

def takenWith (g : Graph) : Removed → List Location
  | .node id => (g.node id).allDefinitions.map fun d => d.site.location
  | .property p => (g.olderVersions p).map fun v => (g.property v).site.location

def nothingFound : DirectiveKind → IssueKind
  | .node => .nodeDoesNotExist
  | .property => .propertyDoesNotExist

def owed (g : Graph) (d : Directive) : List Notice :=
  match d.removed with
  | none => [⟨nothingFound d.kind, d.site.nameLocation, none⟩]
  | some r => (takenWith g r).map fun l => ⟨.deletedByDirective, l, some d.site.location⟩

/-- The issues tell of every directive what there is to tell, in order, and of every stand-in once. -/
structure Accounted (g : Graph) : Prop where
  notices : directiveNotices g = g.directives.toList.flatMap (owed g)
  orphans : issueCount g .unableToResolveChildNode = g.orphans.length

section Frozen
variable {g g' : Graph}

/-- The way back along the versions depends only on where each version on it goes back to. -/
theorem older_versions_eq {P : PropertyId → Prop}
    (hback : ∀ p q, P p → (g.property p).replaces = some q → P q)
    (hsame : ∀ p, P p → (g'.property p).replaces = (g.property p).replaces) {p : PropertyId} (hp : P p) :
    g'.olderVersions p = g.olderVersions p ∧ ∀ v ∈ g.olderVersions p, P v := by
  -- Each step back leads to a smaller number, and both graphs step back to the same version.
  induction hi : p.index using Nat.strongRecOn generalizing p with
  | ind i ih =>
    rw [Graph.olderVersions, Graph.olderVersions, hsame p hp]
    cases hq : (g.property p).replaces with
    | none => exact ⟨rfl, List.forall_mem_singleton.mpr hp⟩
    | some q =>
      simp only
      split
      · rename_i hlt
        obtain ⟨hversions, hall⟩ := ih q.index (hi ▸ hlt) (hback p q hp hq) rfl
        exact ⟨by rw [hversions], List.forall_mem_cons.mpr ⟨hp, hall⟩⟩
      · exact ⟨rfl, List.forall_mem_singleton.mpr hp⟩

/-- The versions that a property goes back to, and where they are written, stay as they are. -/
theorem Since.older_sites (hs : Since g g') (hb : Bounded g) {p : PropertyId} (hp : HasProperty g p) :
    (g'.olderVersions p).map (fun v => (g'.property v).site.location) =
      (g.olderVersions p).map fun v => (g.property v).site.location := by
  obtain ⟨hversions, hall⟩ := older_versions_eq (fun q o hq => (hb.property q hq).replaces o)
    (fun q hq => (hs.property q hq).replaces) hp
  rw [hversions]
  exact List.map_congr_left fun v hv => by rw [(hs.property v (hall v hv)).site]

theorem older_versions_congr (g g' : Graph) (h : g'.properties = g.properties) (p : PropertyId) :
    g'.olderVersions p = g.olderVersions p := by
  have hsame : ∀ q, True → (g'.property q).replaces = (g.property q).replaces :=
    fun q _ => by simp [Graph.property, h]
  exact (older_versions_eq (fun _ _ _ _ => trivial) hsame trivial).1

theorem taken_with_issues (g : Graph) (log : IssueLog) (r : Removed) :
    takenWith { g with issues := log } r = takenWith g r := by
  cases r with
  | node id => rfl
  | property p =>
    have hsame : ({ g with issues := log } : Graph).olderVersions p = g.olderVersions p :=
      older_versions_congr g { g with issues := log } rfl p
    simp only [takenWith, hsame]
    rfl

/-- What a directive has removed is never added to. -/
theorem Since.taken_with (hs : Since g g') (hb : Bounded g) {d : DirectiveId} {r : Removed}
    (hdone : Done g d (some r)) : takenWith g' r = takenWith g r := by
  cases r with
  | node id =>
    have hdeleted : (g.node id).deletedBy = some d := hdone
    obtain ⟨hdefinitions, hreferences⟩ :=
      (hs.node id (has_node_of_deleted hdeleted)).closed (by simp [hdeleted])
    simp only [takenWith, Node.allDefinitions, hdefinitions, hreferences]
  | property p => exact hs.older_sites hb (has_property_of_link Property.deletedBy rfl hdone)

theorem Since.owed_eq (hs : Since g g') (hb : Bounded g) (he : Executed g) {x : Directive}
    (hx : x ∈ g.directives.toList) : owed g' x = owed g x := by
  obtain ⟨i, hi, rfl⟩ := List.mem_iff_getElem.mp hx
  have hread : g.directive ⟨i⟩ = g.directives.toList[i] := by
    have hsize : i < g.directives.size := by simpa using hi
    simp [Graph.directive, hsize]
  have hdone := he ⟨i⟩
  rw [hread] at hdone
  unfold owed
  cases hr : g.directives.toList[i].removed with
  | none => rfl
  | some r =>
    rw [hr] at hdone
    simp only [hs.taken_with hb hdone]

end Frozen

section Neutral

/-- An update that tells of no directive, adds none, and tells of a stand-in whenever it adds one. -/
structure Neutral (g g' : Graph) : Prop where
  directives : g'.directives = g.directives
  notices : directiveNotices g' = directiveNotices g
  orphans : issueCount g' .unableToResolveChildNode + g.orphans.length =
    issueCount g .unableToResolveChildNode + g'.orphans.length

theorem Neutral.refl (g : Graph) : Neutral g g := ⟨rfl, rfl, rfl⟩

theorem Neutral.trans {g g' g'' : Graph} (h : Neutral g g') (h' : Neutral g' g'') : Neutral g g'' := by
  refine ⟨h'.directives.trans h.directives, h'.notices.trans h.notices, ?_⟩
  have horphans := h.orphans
  have horphans' := h'.orphans
  omega

theorem neutral_of_same {g g' : Graph} (issues : g'.issues = g.issues)
    (directives : g'.directives = g.directives) (orphans : g'.orphans = g.orphans) : Neutral g g' :=
  ⟨directives, by simp [directiveNotices, issues], by simp [issueCount, issues, orphans]⟩

theorem OnlyNodes.neutral {g g' : Graph} (h : OnlyNodes g g') : Neutral g g' :=
  neutral_of_same (by rw [h]) h.directives (by rw [h])

/-- Issues of other kinds are none of the directives' and stand-ins' business. -/
theorem neutral_issues (g : Graph) {issues : List Issue}
    (h : ∀ i ∈ issues, comesOfDirective i.kind = false ∧ i.kind ≠ .unableToResolveChildNode) :
    Neutral g { g with issues := g.issues ++ issues } := by
  have hnone : issues.filter (fun i => comesOfDirective i.kind) = [] := by
    apply List.filter_eq_nil_iff.mpr
    intro i hi
    simp [(h i hi).1]
  have hcount : issues.countP (fun i => decide (i.kind = .unableToResolveChildNode)) = 0 := by
    apply List.countP_eq_zero.mpr
    intro i hi
    simpa using (h i hi).2
  exact ⟨rfl, by simp [directiveNotices, hnone], by simp [issueCount, hcount]⟩

theorem neutral_report (g : Graph) (fault : Fault) (location : Location)
    (hd : comesOfDirective fault.kind = false) (hu : fault.kind ≠ .unableToResolveChildNode) :
    Neutral g (g.report (.ofFault fault location)) :=
  neutral_issues g fun i hi => by
    rw [List.mem_singleton.mp hi]
    exact ⟨hd, hu⟩

theorem neutral_report_if (g : Graph) (p : Prop) [Decidable p] (fault : Fault) (location : Location)
    (hd : comesOfDirective fault.kind = false) (hu : fault.kind ≠ .unableToResolveChildNode) :
    Neutral g (if p then g.report (.ofFault fault location) else g) := by
  split
  · exact neutral_report g fault location hd hu
  · exact .refl g

theorem neutral_addLabel (g : Graph) (id : NodeId) (m : LabelMark) : Neutral g (g.addLabel id m) :=
  neutral_of_same rfl rfl rfl

theorem neutral_attachLabels (g : Graph) (id : NodeId) (labels : List LabelMark) (fromReference : Bool) :
    Neutral g (g.attachLabels id labels fromReference) := by
  unfold Graph.attachLabels
  induction labels generalizing g with
  | nil => exact .refl g
  | cons m labels ih =>
    refine Neutral.trans ?_ (ih _)
    unfold Graph.attachLabel
    split
    · exact neutral_of_same rfl rfl rfl
    · split
      · cases fromReference with
        | true => exact neutral_addLabel g id m
        | false => exact (neutral_report g _ m.location rfl (by simp [Fault.kind])).trans (neutral_addLabel _ id m)
      · split
        · exact neutral_report g _ m.location rfl (by simp [Fault.kind])
        · exact neutral_of_same rfl rfl rfl

/-- A reference that names no node is told of once, and one stand-in is added for it. -/
theorem neutral_reach (g : Graph) (target : NodeRef) (site : Site) : Neutral g (g.reach target site).1 := by
  unfold Graph.reach
  split
  · rename_i r hr
    exact (only_nodes_ensureTarget hr).neutral
  · refine ⟨rfl, ?_, ?_⟩
    · simp [directiveNotices, Graph.addOrphan, Graph.report, Issue.ofFault, Issue.new, Fault.kind, comesOfDirective]
    · simp only [issueCount, Graph.addOrphan, Graph.report, Issue.ofFault, Issue.new, Fault.kind,
        List.countP_append, List.countP_singleton, decide_true, if_true, List.length_append,
        List.length_singleton]
      omega

theorem neutral_setProperty (g : Graph) (owner : NodeId) (name : String) (values : List Value)
    (labels : List LabelMark) (site : Site) : Neutral g (g.setProperty owner name values labels site) := by
  refine neutral_of_same ?_ (directives_setProperty g owner name values labels site)
    (orphans_setProperty g owner name values labels site)
  unfold Graph.setProperty
  cases g.liveProperty? owner name <;> rfl

theorem kind_duplicatePhandles (g : Graph) (holders : Table UInt64 NodeId) (ids : List NodeId) :
    ∀ i ∈ g.duplicatePhandles holders ids, i.kind = .duplicatePhandle := by
  induction ids generalizing holders with
  | nil => simp [Graph.duplicatePhandles]
  | cons id ids ih =>
    intro i hi
    unfold Graph.duplicatePhandles at hi
    split at hi
    · exact ih _ i hi
    · split at hi
      · exact ih _ i hi
      · rcases List.mem_cons.mp hi with rfl | hrest
        · rfl
        · exact ih _ i hrest

/-- The last pass tells of phandles only. -/
theorem neutral_finish (g : Graph) (options : BuildOptions) : Neutral g (g.finish options) := by
  have hassign : Neutral g g.assignPhandles := neutral_of_same rfl rfl rfl
  unfold Graph.finish
  split
  · refine hassign.trans (neutral_issues _ fun i hi => ?_)
    rw [kind_duplicatePhandles _ _ _ i hi]
    exact ⟨rfl, by simp⟩
  · exact hassign

end Neutral

section Told

structure Told (g g' : Graph) (x : Directive) : Prop where
  directives : g'.directives = g.directives.push x
  notices : directiveNotices g' = directiveNotices g ++ owed g' x
  orphans : g'.orphans = g.orphans
  unresolved : issueCount g' .unableToResolveChildNode = issueCount g .unableToResolveChildNode

theorem issues_addDirective (g : Graph) (x : Directive) : (g.addDirective x).issues = g.issues := by
  unfold Graph.addDirective
  split <;> rfl

/-- A directive that finds nothing is told of where it names its target. -/
theorem told_nothing {g : Graph} {x : Directive} {fault : Fault} (hremoved : x.removed = none)
    (hkind : fault.kind = nothingFound x.kind) :
    Told g ((g.addDirective x).report (.ofFault fault x.site.nameLocation)) x := by
  have hcomes : comesOfDirective (nothingFound x.kind) = true := by cases x.kind <;> rfl
  have hother : nothingFound x.kind ≠ .unableToResolveChildNode := by cases x.kind <;> simp [nothingFound]
  refine ⟨directives_addDirective g x, ?_, orphans_addDirective g x, ?_⟩
  · simp [directiveNotices, owed, hremoved, Graph.report, issues_addDirective, Issue.ofFault, Issue.new, hkind, hcomes,
      Notice.of]
  · simp [issueCount, Graph.report, issues_addDirective, Issue.ofFault, Issue.new, hkind, hother]

/-- A directive that removes something is told of wherever that is written. -/
theorem told_removed (g : Graph) (x : Directive) (r : Removed) (g' : Graph) (hremoved : x.removed = some r)
    (directives : g'.directives = (g.addDirective x).directives)
    (orphans : g'.orphans = (g.addDirective x).orphans) (issues : g'.issues = (g.addDirective x).issues)
    {options : BuildOptions} (ho : options.deletedEntities = true) (what : String) :
    Told g (g'.reportDeleted options what x.site.location (takenWith g' r)) x := by
  have hreport : g'.reportDeleted options what x.site.location (takenWith g' r) =
      { g' with issues := g.issues ++ (takenWith g' r).map fun l => Issue.deleted l x.site.location what } := by
    rw [Graph.reportDeleted, if_pos ho, issues, issues_addDirective]
  rw [hreport]
  refine ⟨directives.trans (directives_addDirective g x), ?_, orphans.trans (orphans_addDirective g x), ?_⟩
  · have hall : ((takenWith g' r).map fun l => Issue.deleted l x.site.location what).filter
        (fun i => comesOfDirective i.kind) =
        (takenWith g' r).map fun l => Issue.deleted l x.site.location what := by
      apply List.filter_eq_self.mpr
      intro i hi
      obtain ⟨l, _, rfl⟩ := List.mem_map.mp hi
      rfl
    simp only [directiveNotices, owed, hremoved, List.filter_append, List.map_append, hall, List.map_map,
      taken_with_issues]
    rfl
  · have hnone : ((takenWith g' r).map fun l => Issue.deleted l x.site.location what).countP
        (fun i => decide (i.kind = .unableToResolveChildNode)) = 0 := by
      apply List.countP_eq_zero.mpr
      intro i hi
      obtain ⟨l, _, rfl⟩ := List.mem_map.mp hi
      simp [Issue.deleted, Issue.ofFault, Issue.new, Fault.kind]
    simp [issueCount, hnone]

variable {options : BuildOptions} (ho : options.deletedEntities = true)
include ho

/-- Deleting a node adds one directive and tells of it. -/
theorem delete_node_told {g g' : Graph} (hs : Sound g) {scope : Option NodeId} {target : DeleteTarget}
    {site : Site} (h : g.deleteNode options scope target site = .ok g') : ∃ x, Told g g' x := by
  unfold Graph.deleteNode at h
  cases hfound : g.deletionTarget? scope target with
  | none =>
    simp only [hfound, Except.ok.injEq] at h
    subst h
    exact ⟨_, told_nothing rfl rfl⟩
  | some id =>
    obtain ⟨parent, hp, hc⟩ := hs.deletion_target_listed hfound
    have hdirective : ∀ x, ((g.addDirective x).dropChild parent id g.nextDirective).directive g.nextDirective = x :=
      fun x => (directive_addDirective g x g.nextDirective).trans (if_pos rfl)
    simp only [hfound, Graph.detach, parent_addDirective, children_addDirective, hp, if_pos hc,
      Except.ok.injEq, hdirective] at h
    subst h
    let x : Directive := { kind := .node, target := target.render, site, scope, removed := some (.node id) }
    exact ⟨x, told_removed g x (.node id) ((g.addDirective x).dropChild parent id g.nextDirective) rfl rfl rfl
      rfl ho _⟩

/-- Deleting a property adds one directive and tells of it. -/
theorem delete_property_told (g : Graph) (owner : NodeId) (name : String) (site : Site) :
    ∃ x, Told g (g.deleteProperty options owner name site) x := by
  unfold Graph.deleteProperty
  cases g.liveProperty? owner name with
  | none => exact ⟨_, told_nothing rfl rfl⟩
  | some p =>
    let x : Directive :=
      { kind := .property, target := name, site, scope := some owner, removed := some (.property p) }
    exact ⟨x, told_removed g x (.property p) ((g.addDirective x).dropProperty owner name p g.nextDirective) rfl rfl
      rfl rfl ho _⟩

/-- What an edit adds to the issues: nothing that tells of directives, or all there is to tell of the one directive
that it adds. -/
theorem step_tells {s s' : Merge.State} (hs : Sound s.graph) {e : Edit}
    (h : Merge.step options s e = .ok s') : Neutral s.graph s'.graph ∨ ∃ x, Told s.graph s'.graph x := by
  obtain ⟨g, frames⟩ := s
  cases e with
  | enterRoot labels site =>
    obtain rfl := Except.ok.inj h
    have hdef : Neutral g (g.addDefinition Graph.root .root site) := neutral_of_same rfl rfl rfl
    exact Or.inl (hdef.trans (neutral_attachLabels _ _ _ _))
  | enterReference target labels site =>
    obtain rfl := Except.ok.inj h
    have href : Neutral (g.reach target site).1 ((g.reach target site).1.addReference (g.reach target site).2 site) :=
      neutral_of_same rfl rfl rfl
    exact Or.inl (((neutral_reach g target site).trans href).trans (neutral_attachLabels _ _ _ _))
  | enterChild name labels site =>
    cases frames with
    | nil => exact Or.inl (Except.ok.inj h ▸ .refl g)
    | cons f fs =>
      obtain rfl := Except.ok.inj h
      have hreport := neutral_report_if g (name ∈ f.children) (.duplicateNodeName name)
        site.nameLocation rfl (by simp [Fault.kind])
      have hchild := hreport.trans (only_nodes_ensureChild _ f.node name).neutral
      have hdef : ∀ (g : Graph) id, Neutral g (g.addDefinition id .child site) :=
        fun _ _ => neutral_of_same rfl rfl rfl
      exact Or.inl ((hchild.trans (hdef _ _)).trans (neutral_attachLabels _ _ _ _))
  | leave => exact Or.inl (Except.ok.inj h ▸ .refl g)
  | property name values labels site =>
    cases frames with
    | nil => exact Or.inl (Except.ok.inj h ▸ .refl g)
    | cons f fs =>
      obtain rfl := Except.ok.inj h
      have hreport := neutral_report_if g (name ∈ f.properties) (.duplicatePropertyName name)
        site.nameLocation rfl (by simp [Fault.kind])
      exact Or.inl (hreport.trans (neutral_setProperty _ _ _ _ _ _))
  | deleteNode target site =>
    simp only [Merge.step] at h
    cases hdelete : g.deleteNode options (frames.head?.map Merge.Frame.node) target site with
    | error err =>
      rw [hdelete] at h
      cases h
    | ok g' =>
      rw [hdelete] at h
      obtain rfl := Except.ok.inj h
      exact Or.inr (delete_node_told ho hs hdelete)
  | deleteProperty name site =>
    cases frames with
    | nil => exact Or.inl (Except.ok.inj h ▸ .refl g)
    | cons f fs =>
      obtain rfl := Except.ok.inj h
      exact Or.inr (delete_property_told ho g f.node name site)

end Told

section Runs
variable {g g' : Graph}

theorem Accounted.neutral (ha : Accounted g) (hs : Since g g') (hb : Bounded g) (he : Executed g)
    (h : Neutral g g') : Accounted g' := by
  refine ⟨?_, ?_⟩
  · rw [h.notices, h.directives, ha.notices]
    exact List.flatMap_congr fun x hx => (hs.owed_eq hb he hx).symm
  · have horphans := h.orphans
    have hbefore := ha.orphans
    omega

theorem Accounted.told (ha : Accounted g) (hs : Since g g') (hb : Bounded g) (he : Executed g) {x : Directive}
    (h : Told g g' x) : Accounted g' := by
  refine ⟨?_, ?_⟩
  · have hold : g.directives.toList.flatMap (owed g) = g.directives.toList.flatMap (owed g') :=
      List.flatMap_congr fun x hx => (hs.owed_eq hb he hx).symm
    rw [h.notices, h.directives, ha.notices, hold, Array.toList_push, List.flatMap_append]
    simp
  · rw [h.unresolved, h.orphans]
    exact ha.orphans

/-- Each edit keeps the account, because all directives so far have done their work. -/
theorem step_accounted {options : BuildOptions} (ho : options.deletedEntities = true) {s s' : Merge.State}
    (hs : Settled s) (he : Executed s.graph) (ha : Accounted s.graph) {e : Edit}
    (h : Merge.step options s e = .ok s') : Accounted s'.graph := by
  have hsound := hs.ready.sound
  rcases step_tells ho hsound h with hneutral | ⟨x, htold⟩
  · exact ha.neutral (hs.step_since h) hsound.bounded he hneutral
  · exact ha.told (hs.step_since h) hsound.bounded he htold

theorem built_accounted {config : BuildConfig} (ho : config.options.deletedEntities = true)
    {fragments : List Fragment} {isCancelled : Nat → Bool} {g : Graph}
    (h : Build.build config fragments isCancelled = .ok g) : Accounted g := by
  obtain ⟨s, hrun, _, hready, rfl⟩ := built_of_run h
  have hstart : Executed (Build.start config fragments).graph ∧ Accounted (Build.start config fragments).graph :=
    ⟨start_executed config fragments, rfl, rfl⟩
  obtain ⟨hexecuted, haccounted⟩ := run_keeps (P := fun g => Executed g ∧ Accounted g)
    (fun e _ s s' hs hp hstep => ⟨step_executed hs hp.1 hstep, step_accounted ho hs hp.1 hp.2 hstep⟩)
    (start_settled config fragments) hstart hrun
  exact haccounted.neutral (since_finish _ _) hready.sound.bounded hexecuted (neutral_finish _ _)

end Runs

section Counts
variable (g : Graph)

theorem nothing_found_inj {k k' : DirectiveKind} : nothingFound k = nothingFound k' ↔ k = k' := by
  cases k <;> cases k' <;> simp [nothingFound]

/-- A directive is told of as one that found nothing exactly if it removed nothing. -/
theorem count_owed_nothing (d : Directive) (k : DirectiveKind) :
    (owed g d).countP (fun n => decide (n.kind = nothingFound k)) =
      if d.kind = k ∧ d.removed = none then 1 else 0 := by
  unfold owed
  cases d.removed with
  | none => simp [List.countP_singleton, nothing_found_inj]
  | some r =>
    have hother : IssueKind.deletedByDirective ≠ nothingFound k := by cases k <;> simp [nothingFound]
    simp [List.countP_map, Function.comp_def, hother]

theorem count_owed (ds : List Directive) (k : DirectiveKind) :
    (ds.flatMap (owed g)).countP (fun n => decide (n.kind = nothingFound k)) =
      ds.countP fun d => decide (d.kind = k ∧ d.removed = none) := by
  induction ds with
  | nil => rfl
  | cons d ds ih =>
    rw [List.flatMap_cons, List.countP_append, ih, count_owed_nothing, List.countP_cons, Nat.add_comm]
    simp

variable {g}

/-- Of a kind that comes of directives, no issue is left out of what the issues tell of them. -/
theorem kind_and_comes {k : IssueKind} (hk : comesOfDirective k = true) (i : Issue) :
    (decide ((Notice.of i).kind = k) && comesOfDirective i.kind) = decide (i.kind = k) := by
  by_cases hi : i.kind = k
  · simp [Notice.of, hi, hk]
  · simp [Notice.of, hi]

theorem Accounted.count_nothing (ha : Accounted g) (k : DirectiveKind) :
    issueCount g (nothingFound k) = g.directives.toList.countP fun d => decide (d.kind = k ∧ d.removed = none) := by
  have hcomes : comesOfDirective (nothingFound k) = true := by cases k <;> rfl
  have hnotices : (directiveNotices g).countP (fun n => decide (n.kind = nothingFound k)) =
      issueCount g (nothingFound k) := by
    simp only [directiveNotices, List.countP_map, List.countP_filter]
    exact List.countP_congr fun i _ => by rw [Function.comp_apply, kind_and_comes hcomes]
  rw [← hnotices, ha.notices, count_owed]

/-- Filtering what is owed for a directive leaves what was lost to it. -/
theorem deleted_owed (g : Graph) (d : Directive) :
    ((owed g d).filter fun n => decide (n.kind = .deletedByDirective)).map (fun n => (n.location, n.directive)) =
      (d.removed.toList.flatMap (takenWith g)).map fun l => (l, some d.site.location) := by
  unfold owed
  cases d.removed with
  | none => cases d.kind <;> rfl
  | some r => simp [List.filter_map, Function.comp_def]

theorem Accounted.deleted (ha : Accounted g) :
    (g.issues.filter fun i => decide (i.kind = .deletedByDirective)).map (fun i => (i.location, i.linkedTo)) =
      g.directives.toList.flatMap fun d =>
        (d.removed.toList.flatMap (takenWith g)).map fun l => (l, some d.site.location) := by
  have hnotices : ((directiveNotices g).filter fun n => decide (n.kind = .deletedByDirective)).map
        (fun n => (n.location, n.directive)) =
      (g.issues.filter fun i => decide (i.kind = .deletedByDirective)).map
        fun i => (i.location, i.linkedTo) := by
    simp only [directiveNotices, List.filter_map, List.map_map, List.filter_filter]
    exact congrArg (List.map _) (List.filter_congr fun i _ => kind_and_comes rfl i)
  rw [← hnotices, ha.notices, List.filter_flatMap, List.map_flatMap]
  exact List.flatMap_congr fun d _ => deleted_owed g d

theorem Ledger.older_versions (hl : Ledger g) (p : PropertyId) : Older g p (g.olderVersions p) := by
  induction hi : p.index using Nat.strongRecOn generalizing p with
  | ind i ih =>
    cases h : (g.property p).replaces with
    | none => exact older_versions_first h ▸ .first h
    | some q => exact hl.older_versions_back h ▸ .back h (ih q.index (hi ▸ hl.older h) q rfl)

theorem Ledger.lost_with (hl : Ledger g) (removed : Option Removed) :
    LostWith g removed (removed.toList.flatMap (takenWith g)) := by
  cases removed with
  | none => exact .nothing
  | some r =>
    rw [Option.toList_some, List.flatMap_singleton]
    cases r with
    | node id => exact .node id
    | property p => exact .property (hl.older_versions p)

end Counts

/-- The issues of a built graph account for it. As many directives are told of as found nothing, and as many
references as have a stand-in; and what is told to be deleted is, directive by directive, all that contributed to
the removed node, or the removed version and all that it replaces, as the graph has them in the end. -/
theorem built_issues {config : BuildConfig} (ho : config.options.deletedEntities = true)
    {fragments : List Fragment} {isCancelled : Nat → Bool} {g : Graph}
    (h : Build.build config fragments isCancelled = .ok g) :
    issueCount g .nodeDoesNotExist =
        g.directives.toList.countP (fun d => decide (d.kind = .node ∧ d.removed = none)) ∧
      issueCount g .propertyDoesNotExist =
        g.directives.toList.countP (fun d => decide (d.kind = .property ∧ d.removed = none)) ∧
      issueCount g .unableToResolveChildNode = g.orphans.length ∧
      ∃ lost : Directive → List Location, (∀ d ∈ g.directives.toList, LostWith g d.removed (lost d)) ∧
        (g.issues.filter fun i => decide (i.kind = .deletedByDirective)).map (fun i => (i.location, i.linkedTo)) =
          g.directives.toList.flatMap fun d => (lost d).map fun l => (l, some d.site.location) := by
  have ha := built_accounted ho h
  have hl := built_ledger h
  exact ⟨ha.count_nothing .node, ha.count_nothing .property, ha.orphans,
    fun d => d.removed.toList.flatMap (takenWith g), fun d _ => hl.lost_with d.removed, ha.deleted⟩

def line (n : Nat) : Span := ⟨⟨n, 0⟩, ⟨n, 40⟩⟩

/-- A property written twice and deleted, a node that its own body takes away, two directives that find nothing,
and a reference to nowhere. -/
def struckOut : List Fragment :=
  [⟨⟨0⟩, .root []
      [.child { name := { name := "soc" }, labels := [{ name := "soc" }], span := line 1 }
        [.property { name := "status", span := line 2 }, .property { name := "status", span := line 3 },
          .deleteProperty { name := "status", span := line 4 }, .deleteProperty { name := "status", span := line 5 }],
        .deleteNode { target := .name { name := "bus" }, span := line 6 }] (line 0)⟩,
    ⟨⟨1⟩, .reference (.label "soc") []
      [.deleteNode { target := .ref (.label "soc"), span := line 1 }, .property { name := "status" }] {} (line 0)⟩,
    ⟨⟨2⟩, .reference (.label "nowhere") [] [.deleteProperty { name := "status" }] {} {}⟩]

def struckPairs : List (Location × Option Location) :=
  [(⟨⟨0⟩, line 3⟩, some ⟨⟨0⟩, line 4⟩), (⟨⟨0⟩, line 2⟩, some ⟨⟨0⟩, line 4⟩),
    (⟨⟨0⟩, line 1⟩, some ⟨⟨1⟩, line 1⟩), (⟨⟨1⟩, line 0⟩, some ⟨⟨1⟩, line 1⟩)]

theorem built_issues_struck_out :
    ∃ g, Build.build {} struckOut (fun _ => false) = .ok g ∧
      issueCount g .nodeDoesNotExist = 1 ∧ issueCount g .propertyDoesNotExist = 2 ∧
      issueCount g .unableToResolveChildNode = 1 ∧ g.orphans = [⟨2⟩] ∧
      (g.issues.filter fun i => decide (i.kind = .deletedByDirective)).map (fun i => (i.location, i.linkedTo)) =
        struckPairs ∧
      ∃ lost : Directive → List Location, (∀ d ∈ g.directives.toList, LostWith g d.removed (lost d)) ∧
        g.directives.toList.flatMap (fun d => (lost d).map fun l => (l, some d.site.location)) =
          struckPairs := by
  obtain ⟨g, h, hnodes, horphans, hproperties, hpairs⟩ : ∃ g, Build.build {} struckOut (fun _ => false) = .ok g ∧
      g.directives.toList.countP (fun d => decide (d.kind = .node ∧ d.removed = none)) = 1 ∧
      g.orphans = [⟨2⟩] ∧
      g.directives.toList.countP (fun d => decide (d.kind = .property ∧ d.removed = none)) = 2 ∧
      (g.issues.filter fun i => decide (i.kind = .deletedByDirective)).map (fun i => (i.location, i.linkedTo)) =
        struckPairs :=
    exists_built (by decide +kernel)
  obtain ⟨hnode, hproperty, horphan, lost, hlost, hdeleted⟩ := built_issues rfl h
  exact ⟨g, h, hnode.trans hnodes, hproperty.trans hproperties, horphan.trans (by rw [horphans]; rfl), horphans,
    hpairs, lost, hlost, hdeleted.symm.trans hpairs⟩

end Devicetree.Proofs
