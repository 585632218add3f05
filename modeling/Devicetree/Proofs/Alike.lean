import Devicetree.Proofs.Bare
import Devicetree.Proofs.Steps

namespace Devicetree.Proofs

/-- The graphs differ in places, orders and issues only, and in what contributed to the nodes in `anonymous`. -/
structure Alike (anonymous : NodeId → Bool) (g g' : Graph) : Prop where
  bare : bareGraph anonymous g = bareGraph anonymous g'

section Updates
variable {anonymous : NodeId → Bool} {g g' g'' : Graph}

theorem Alike.refl (anonymous : NodeId → Bool) (g : Graph) : Alike anonymous g g := ⟨rfl⟩

theorem Alike.symm (h : Alike anonymous g g') : Alike anonymous g' g := ⟨h.bare.symm⟩

theorem Alike.trans (h : Alike anonymous g g') (h' : Alike anonymous g' g'') : Alike anonymous g g'' :=
  ⟨h.bare.trans h'.bare⟩

/-- What is read alike from a graph and its bare form is read alike from graphs that are alike. -/
theorem Alike.read (h : Alike anonymous g g') {α : Type} (f : Graph → α)
    (hf : ∀ g, f (bareGraph anonymous g) = f g) : f g = f g' := by
  rw [← hf g, h.bare, hf g']

theorem Alike.report (h : Alike anonymous g g') (issue issue' : Issue) :
    Alike anonymous (g.report issue) (g'.report issue') := ⟨h.bare⟩

theorem Alike.report_if (h : Alike anonymous g g') (p : Prop) [Decidable p] (issue issue' : Issue) :
    Alike anonymous (if p then g.report issue else g) (if p then g'.report issue' else g') := by
  split
  · exact h.report issue issue'
  · exact h

theorem Alike.reportDeleted (h : Alike anonymous g g') (options : BuildOptions) (what what' : String)
    (directive directive' : Location) (locations locations' : List Location) :
    Alike anonymous (g.reportDeleted options what directive locations)
      (g'.reportDeleted options what' directive' locations') :=
  ⟨by rw [bare_reportDeleted, bare_reportDeleted, h.bare]⟩

theorem Alike.addOrphan (h : Alike anonymous g g') : Alike anonymous g.addOrphan g'.addOrphan :=
  ⟨by rw [bare_addOrphan, bare_addOrphan, h.bare]⟩

theorem Alike.addDefinition (h : Alike anonymous g g') (id : NodeId) (kind : DefinitionKind)
    (site site' : Site) : Alike anonymous (g.addDefinition id kind site) (g'.addDefinition id kind site') :=
  ⟨by rw [bare_addDefinition, bare_addDefinition, h.bare]⟩

theorem Alike.addReference (h : Alike anonymous g g') (id : NodeId) (site site' : Site) :
    Alike anonymous (g.addReference id site) (g'.addReference id site') :=
  ⟨by rw [bare_addReference, bare_addReference, h.bare]⟩

/-- What contributes to an anonymous node does not show. -/
theorem alike_addDefinition {id : NodeId} (hid : anonymous id = true) (g : Graph) (kind : DefinitionKind)
    (site : Site) : Alike anonymous g (g.addDefinition id kind site) :=
  ⟨by rw [bare_addDefinition, if_pos hid]⟩

theorem alike_addReference {id : NodeId} (hid : anonymous id = true) (g : Graph) (site : Site) :
    Alike anonymous g (g.addReference id site) :=
  ⟨by rw [bare_addReference, if_pos hid]⟩

theorem Alike.attachLabel (h : Alike anonymous g g') (fromReference : Bool) (id : NodeId) (m : LabelMark) :
    Alike anonymous (g.attachLabel fromReference id m) (g'.attachLabel fromReference id (bareMark m)) := by
  have hbind : Alike anonymous ((g.bindLabel id m).addLabel id m)
      ((g'.bindLabel id (bareMark m)).addLabel id (bareMark m)) :=
    ⟨by rw [bare_addLabel, bare_addLabel, bare_bindLabel, bare_bindLabel, h.bare]; rfl⟩
  have hbound : g.labels.nodeOf? m.name = g'.labels.nodeOf? m.name :=
    h.read (fun g => g.labels.nodeOf? m.name) fun g => bound_bare anonymous g m.name
  have hlive : ∀ n, g.isLive n = g'.isLive n := fun n =>
    h.read (fun g => g.isLive n) fun g => live_bare anonymous g n
  unfold Graph.attachLabel
  simp only [bareMark, ← hbound, ← hlive]
  cases g.labels.nodeOf? m.name with
  | none => exact hbind
  | some holder =>
    simp only
    split
    · have hsame : ∀ a a' : Graph, Alike anonymous a a' →
          Alike anonymous (a.addLabel id m) (a'.addLabel id (bareMark m)) := fun a a' ha =>
        ⟨by rw [bare_addLabel, bare_addLabel, ha.bare]; rfl⟩
      cases fromReference with
      | true => exact hsame g g' h
      | false => exact hsame _ _ (h.report _ _)
    · split
      · exact h.report _ _
      · exact hbind

theorem Alike.attachLabels (h : Alike anonymous g g') (id : NodeId) (labels : List LabelMark)
    (fromReference : Bool) :
    Alike anonymous (g.attachLabels id labels fromReference)
      (g'.attachLabels id (labels.map bareMark) fromReference) := by
  unfold Graph.attachLabels
  induction labels generalizing g g' with
  | nil => exact h
  | cons m labels ih => exact ih (h.attachLabel fromReference id m)

/-- A reference reaches the same node, whether it is there, created on the way or a stand-in. -/
theorem Alike.reach (h : Alike anonymous g g') (target : NodeRef) (site site' : Site) :
    Alike anonymous (g.reach target site).1 (g'.reach target site').1 ∧
      (g.reach target site).2 = (g'.reach target site').2 := by
  have hfound : (g.ensureTarget? target).map (fun r => (bareGraph anonymous r.1, r.2)) =
      (g'.ensureTarget? target).map fun r => (bareGraph anonymous r.1, r.2) := by
    rw [← bare_ensureTarget, ← bare_ensureTarget, h.bare]
  have hnext : g.nextNode = g'.nextNode := h.read Graph.nextNode (next_node_bare anonymous)
  unfold Graph.reach
  cases hg : g.ensureTarget? target with
  | none =>
    rw [hg] at hfound
    rw [Option.map_eq_none_iff.mp hfound.symm]
    exact ⟨(h.report _ _).addOrphan, hnext⟩
  | some r =>
    rw [hg] at hfound
    obtain ⟨r', hg', he⟩ := Option.map_eq_some_iff.mp hfound.symm
    rw [hg']
    exact ⟨⟨(congrArg Prod.fst he).symm⟩, (congrArg Prod.snd he).symm⟩

theorem Alike.ensureChild (h : Alike anonymous g g') (parent : NodeId) (name : NodeName) :
    Alike anonymous (g.ensureChild parent name).1 (g'.ensureChild parent name).1 ∧
      (g.ensureChild parent name).2 = (g'.ensureChild parent name).2 := by
  have hboth := congrArg (fun g => g.ensureChild parent name) h.bare
  rw [bare_ensureChild, bare_ensureChild] at hboth
  obtain ⟨hgraph, hid⟩ := Prod.mk.inj hboth
  exact ⟨⟨hgraph⟩, hid⟩

theorem Alike.setProperty (h : Alike anonymous g g') (owner : NodeId) (name : String) (values : List Value)
    (labels : List LabelMark) (site site' : Site) :
    Alike anonymous (g.setProperty owner name values labels site)
      (g'.setProperty owner name values (labels.map bareMark) site') := by
  have hmarks : (labels.map bareMark).map bareMark = labels.map bareMark := by
    simp [Function.comp_def, bareMark]
  exact ⟨by rw [bare_setProperty, bare_setProperty, h.bare, hmarks]⟩

theorem Alike.addDirective (h : Alike anonymous g g') {d d' : Directive}
    (hd : bareDirective d = bareDirective d') :
    Alike anonymous (g.addDirective d) (g'.addDirective d') :=
  ⟨by rw [bare_addDirective, bare_addDirective, h.bare, hd]⟩

theorem Alike.detach (h : Alike anonymous g g') {options : BuildOptions} {id : NodeId}
    {directive : DirectiveId} {t : Graph} (ht : g.detach options id directive = .ok t) :
    ∃ t', g'.detach options id directive = .ok t' ∧ Alike anonymous t t' := by
  have hparent : g.parent? id = g'.parent? id :=
    h.read (fun g => g.parent? id) fun g => parent_bare anonymous g id
  unfold Graph.detach at ht ⊢
  rw [← hparent]
  cases hp : g.parent? id with
  | none =>
    rw [hp] at ht
    cases ht
  | some parent =>
    have hchildren : g.children parent = g'.children parent :=
      h.read (fun g => g.children parent) fun g => children_bare anonymous g parent
    have hdrop : Alike anonymous (g.dropChild parent id directive) (g'.dropChild parent id directive) :=
      ⟨by rw [bare_dropChild, bare_dropChild, h.bare]⟩
    rw [hp] at ht
    simp only [← hchildren] at ht ⊢
    split at ht
    · rename_i hlisted
      obtain rfl := Except.ok.inj ht
      exact ⟨_, if_pos hlisted, hdrop.reportDeleted _ _ _ _ _ _ _⟩
    · cases ht

theorem Alike.deleteNode (h : Alike anonymous g g') {options : BuildOptions} {scope : Option NodeId}
    {target : DeleteTarget} {site : Site} (site' : Site) {t : Graph}
    (ht : g.deleteNode options scope target site = .ok t) :
    ∃ t', g'.deleteNode options scope target site' = .ok t' ∧ Alike anonymous t t' := by
  have hfound : g.deletionTarget? scope target = g'.deletionTarget? scope target :=
    h.read (fun g => g.deletionTarget? scope target) fun g => deletion_target_bare anonymous g scope target
  have hnext : g.nextDirective = g'.nextDirective :=
    h.read Graph.nextDirective (next_directive_bare anonymous)
  unfold Graph.deleteNode at ht ⊢
  rw [← hfound, ← hnext]
  have hadd : ∀ removed, Alike anonymous
      (g.addDirective ⟨.node, target.render, site, scope, removed⟩)
      (g'.addDirective ⟨.node, target.render, site', scope, removed⟩) := fun _ => h.addDirective rfl
  cases hn : g.deletionTarget? scope target with
  | none =>
    rw [hn] at ht
    obtain rfl := Except.ok.inj ht
    exact ⟨_, rfl, (hadd _).report _ _⟩
  | some n =>
    rw [hn] at ht
    exact (hadd _).detach ht

theorem Alike.deleteProperty (h : Alike anonymous g g') (options : BuildOptions) (owner : NodeId)
    (name : String) (site site' : Site) :
    Alike anonymous (g.deleteProperty options owner name site)
      (g'.deleteProperty options owner name site') := by
  have hfound : g.liveProperty? owner name = g'.liveProperty? owner name :=
    h.read (fun g => g.liveProperty? owner name) fun g => live_property_bare anonymous g owner name
  have hnext : g.nextDirective = g'.nextDirective :=
    h.read Graph.nextDirective (next_directive_bare anonymous)
  unfold Graph.deleteProperty
  rw [← hfound, ← hnext]
  have hadd : ∀ removed, Alike anonymous
      (g.addDirective ⟨.property, name, site, some owner, removed⟩)
      (g'.addDirective ⟨.property, name, site', some owner, removed⟩) := fun _ => h.addDirective rfl
  cases g.liveProperty? owner name with
  | none => exact (hadd _).report _ _
  | some p =>
    exact Alike.reportDeleted ⟨by rw [bare_dropProperty, bare_dropProperty, (hadd _).bare]⟩ _ _ _ _ _ _ _

theorem Alike.finish (h : Alike anonymous g g') (options : BuildOptions) :
    Alike anonymous (g.finish options) (g'.finish options) :=
  ⟨by rw [bare_finish, bare_finish, h.bare]⟩

end Updates

def bareEdit : Edit → Edit
  | .enterRoot labels _ => .enterRoot (labels.map bareMark) {}
  | .enterReference target labels _ => .enterReference target (labels.map bareMark) {}
  | .enterChild name labels _ => .enterChild name (labels.map bareMark) {}
  | .leave => .leave
  | .property name values labels _ => .property name values (labels.map bareMark) {}
  | .deleteNode target _ => .deleteNode target {}
  | .deleteProperty name _ => .deleteProperty name {}

section Steps
variable {anonymous : NodeId → Bool} {options : BuildOptions} {g g' : Graph} {t : Merge.State}

theorem enter_reference_eq (options : BuildOptions) (g : Graph) (frames : List Merge.Frame) (target : NodeRef)
    (labels : List LabelMark) (site : Site) :
    Merge.step options ⟨g, frames⟩ (.enterReference target labels site) =
      .ok ⟨((g.reach target site).1.addReference (g.reach target site).2 site).attachLabels
        (g.reach target site).2 labels true, { node := (g.reach target site).2 } :: frames⟩ := rfl

def beforeChild (g : Graph) (f : Merge.Frame) (name : NodeName) (site : Site) : Graph :=
  if name ∈ f.children then g.report (.ofFault (.duplicateNodeName name) site.nameLocation) else g

theorem enter_child_eq (options : BuildOptions) (g : Graph) (f : Merge.Frame) (fs : List Merge.Frame)
    (name : NodeName) (labels : List LabelMark) (site : Site) :
    Merge.step options ⟨g, f :: fs⟩ (.enterChild name labels site) =
      .ok ⟨(((beforeChild g f name site).ensureChild f.node name).1.addDefinition
        ((beforeChild g f name site).ensureChild f.node name).2 .child site).attachLabels
        ((beforeChild g f name site).ensureChild f.node name).2 labels false,
        { node := ((beforeChild g f name site).ensureChild f.node name).2 } ::
          { f with children := name :: f.children } :: fs⟩ := rfl

/-- An edit without its places does the same to a graph that is alike. It changes the bodies on top of the stack, and
those below may differ. -/
theorem Alike.step (h : Alike anonymous g g') (top : List Merge.Frame) {fs : List Merge.Frame}
    (fs' : List Merge.Frame) (hopen : top = [] → fs = [] ∧ fs' = []) {e : Edit}
    (ht : Merge.step options ⟨g, top ++ fs⟩ e = .ok t) :
    ∃ g₁ top₁, t.frames = top₁ ++ fs ∧ Alike anonymous t.graph g₁ ∧
      Merge.step options ⟨g', top ++ fs'⟩ (bareEdit e) = .ok ⟨g₁, top₁ ++ fs'⟩ := by
  cases e with
  | enterRoot labels site =>
    obtain rfl := Except.ok.inj ht
    exact ⟨_, { node := Graph.root } :: top, rfl, (h.addDefinition _ _ _ _).attachLabels _ _ _, rfl⟩
  | enterReference target labels site =>
    obtain ⟨hgraph, hid⟩ := h.reach target site {}
    rw [enter_reference_eq] at ht
    obtain rfl := Except.ok.inj ht
    rw [bareEdit, enter_reference_eq, ← hid]
    exact ⟨_, { node := (g.reach target site).2 } :: top, rfl,
      (hgraph.addReference _ _ _).attachLabels _ _ _, rfl⟩
  | deleteNode target site =>
    have hscope : (top ++ fs').head?.map Merge.Frame.node = (top ++ fs).head?.map Merge.Frame.node := by
      cases top with
      | nil => simp [hopen rfl]
      | cons f top => rfl
    simp only [Merge.step] at ht
    cases hdelete : g.deleteNode options ((top ++ fs).head?.map Merge.Frame.node) target site with
    | error why =>
      rw [hdelete] at ht
      cases ht
    | ok g₁ =>
      obtain ⟨g₂, hdelete', halike⟩ := h.deleteNode {} hdelete
      rw [hdelete] at ht
      obtain rfl := Except.ok.inj ht
      simp only [bareEdit, Merge.step, hscope, hdelete']
      cases top with
      | nil =>
        obtain ⟨rfl, rfl⟩ := hopen rfl
        exact ⟨g₂, [], by cases target <;> rfl, halike, by cases target <;> rfl⟩
      | cons f top =>
        cases target with
        | name n =>
          exact ⟨g₂, { f with children := f.children.filter fun m => !decide (m = n) } :: top, rfl, halike, rfl⟩
        | ref r => exact ⟨g₂, f :: top, rfl, halike, rfl⟩
  | leave =>
    obtain rfl := Except.ok.inj ht
    cases top with
    | nil =>
      obtain ⟨rfl, rfl⟩ := hopen rfl
      exact ⟨g', [], rfl, h, rfl⟩
    | cons f top => exact ⟨g', top, rfl, h, rfl⟩
  | enterChild name labels site =>
    cases top with
    | nil =>
      obtain ⟨rfl, rfl⟩ := hopen rfl
      obtain rfl := Except.ok.inj ht
      exact ⟨g', [], rfl, h, rfl⟩
    | cons f top =>
      have hbefore : Alike anonymous (beforeChild g f name site) (beforeChild g' f name {}) :=
        h.report_if _ _ _
      obtain ⟨hgraph, hid⟩ := hbefore.ensureChild f.node name
      rw [List.cons_append, enter_child_eq] at ht
      obtain rfl := Except.ok.inj ht
      rw [bareEdit, List.cons_append, enter_child_eq, ← hid]
      exact ⟨_, { node := ((beforeChild g f name site).ensureChild f.node name).2 } ::
        { f with children := name :: f.children } :: top, rfl,
        (hgraph.addDefinition _ _ _ _).attachLabels _ _ _, rfl⟩
  | property name values labels site =>
    cases top with
    | nil =>
      obtain ⟨rfl, rfl⟩ := hopen rfl
      obtain rfl := Except.ok.inj ht
      exact ⟨g', [], rfl, h, rfl⟩
    | cons f top =>
      obtain rfl := Except.ok.inj ht
      exact ⟨_, { f with properties := name :: f.properties } :: top, rfl,
        (h.report_if _ _ _).setProperty _ _ _ _ _ _, rfl⟩
  | deleteProperty name site =>
    cases top with
    | nil =>
      obtain ⟨rfl, rfl⟩ := hopen rfl
      obtain rfl := Except.ok.inj ht
      exact ⟨g', [], rfl, h, rfl⟩
    | cons f top =>
      obtain rfl := Except.ok.inj ht
      exact ⟨_, { f with properties := f.properties.filter fun m => !decide (m = name) } :: top, rfl,
        h.deleteProperty _ _ _ _ _, rfl⟩

/-- A run that succeeds, step by step. -/
theorem run_cons_inv {s : Merge.State} {e : Edit} {edits : List Edit}
    (h : Merge.run options s (e :: edits) = .ok t) :
    ∃ s₁, Merge.step options s e = .ok s₁ ∧ Merge.run options s₁ edits = .ok t := by
  cases hstep : Merge.step options s e with
  | error why =>
    rw [Merge.run, List.foldlM_cons, hstep] at h
    cases h
  | ok s₁ => exact ⟨s₁, rfl, (run_cons hstep edits).symm.trans h⟩

theorem run_append_inv {s : Merge.State} {edits more : List Edit}
    (h : Merge.run options s (edits ++ more) = .ok t) :
    ∃ s₁, Merge.run options s edits = .ok s₁ ∧ Merge.run options s₁ more = .ok t := by
  induction edits generalizing s with
  | nil => exact ⟨s, rfl, h⟩
  | cons e edits ih =>
    obtain ⟨s₁, hstep, hrest⟩ := run_cons_inv h
    obtain ⟨s₂, hrun, hmore⟩ := ih hrest
    exact ⟨s₂, (run_cons hstep edits).trans hrun, hmore⟩

/-- Edits without their places do the same to a graph that is alike. -/
theorem Alike.run {frames : List Merge.Frame} (h : Alike anonymous g g') {edits : List Edit}
    (ht : Merge.run options ⟨g, frames⟩ edits = .ok t) :
    ∃ g₁, Alike anonymous t.graph g₁ ∧
      Merge.run options ⟨g', frames⟩ (edits.map bareEdit) = .ok ⟨g₁, t.frames⟩ := by
  induction edits generalizing g g' frames with
  | nil =>
    obtain rfl := Except.ok.inj ht
    exact ⟨g', h, rfl⟩
  | cons e edits ih =>
    obtain ⟨⟨g₁, frames₁⟩, hstep, hrest⟩ := run_cons_inv ht
    rw [← List.append_nil frames] at hstep
    obtain ⟨g₂, top₁, hframes, halike, hstep'⟩ := h.step frames [] (fun _ => ⟨rfl, rfl⟩) hstep
    simp only [List.append_nil] at hframes hstep'
    subst hframes
    rw [List.map_cons, run_cons hstep']
    exact ih halike hrest

/-- Runs of edits that differ in places only, from graphs that are alike. -/
theorem Alike.runs (h : Alike anonymous g g') {frames : List Merge.Frame} {edits edits' : List Edit}
    (hedits : edits'.map bareEdit = edits.map bareEdit) {t' : Merge.State}
    (ht : Merge.run options ⟨g, frames⟩ edits = .ok t) (ht' : Merge.run options ⟨g', frames⟩ edits' = .ok t') :
    Alike anonymous t.graph t'.graph ∧ t'.frames = t.frames := by
  obtain ⟨g₁, halike, hrun⟩ := h.run ht
  obtain ⟨g₂, halike', hrun'⟩ := (Alike.refl anonymous g').run ht'
  rw [hedits, hrun] at hrun'
  obtain ⟨rfl, hsame⟩ := Merge.State.mk.inj (Except.ok.inj hrun')
  exact ⟨halike.trans halike'.symm, hsame.symm⟩

end Steps

/-- Edits that, made in an open body, close the bodies that they open, and without their places do the same to a
graph that is alike, whatever bodies are open below. -/
def Mirrors (edits : List Edit) : Prop :=
  ∀ ⦃anonymous : NodeId → Bool⦄ ⦃options : BuildOptions⦄ ⦃g g' : Graph⦄ ⦃f : Merge.Frame⦄
    ⦃fs : List Merge.Frame⦄ (fs' : List Merge.Frame) ⦃t : Merge.State⦄, Alike anonymous g g' →
    Merge.run options ⟨g, f :: fs⟩ edits = .ok t →
    ∃ g₁ f₁, t.frames = f₁ :: fs ∧ Alike anonymous t.graph g₁ ∧
      Merge.run options ⟨g', f :: fs'⟩ (edits.map bareEdit) = .ok ⟨g₁, f₁ :: fs'⟩

theorem Mirrors.nil : Mirrors [] := by
  intro anonymous options g g' f fs fs' t h ht
  obtain rfl := Except.ok.inj ht
  exact ⟨g', f, rfl, h, rfl⟩

theorem Mirrors.append {edits more : List Edit} (he : Mirrors edits) (hm : Mirrors more) :
    Mirrors (edits ++ more) := by
  intro anonymous options g g' f fs fs' t h ht
  obtain ⟨⟨g₁, frames₁⟩, hrun, hrest⟩ := run_append_inv ht
  obtain ⟨g₂, f₁, rfl, halike, hrun'⟩ := he fs' h hrun
  obtain ⟨g₃, f₂, hframes, halike', hrest'⟩ := hm fs' halike hrest
  refine ⟨g₃, f₂, hframes, halike', ?_⟩
  rw [List.map_append, run_append hrun']
  exact hrest'

/-- An edit that stays in the body in which it is made. -/
theorem Mirrors.single {e : Edit} (hstay : ∀ {options : BuildOptions} {g : Graph} {f : Merge.Frame}
    {fs : List Merge.Frame} {t : Merge.State}, Merge.step options ⟨g, f :: fs⟩ e = .ok t →
      ∃ f₁, t.frames = f₁ :: fs) : Mirrors [e] := by
  intro anonymous options g g' f fs fs' t h ht
  obtain ⟨s₁, hstep, hnil⟩ := run_cons_inv ht
  obtain rfl := Except.ok.inj hnil
  obtain ⟨f₁, hframes⟩ := hstay hstep
  obtain ⟨g₁, top₁, htop, halike, hstep'⟩ := h.step [f] fs' (by simp) hstep
  obtain rfl : top₁ = [f₁] := List.append_cancel_right (htop.symm.trans hframes)
  exact ⟨g₁, f₁, hframes, halike, run_cons hstep' []⟩

theorem delete_node_stays {options : BuildOptions} {g : Graph} {f : Merge.Frame} {fs : List Merge.Frame}
    {target : DeleteTarget} {site : Site} {t : Merge.State}
    (ht : Merge.step options ⟨g, f :: fs⟩ (.deleteNode target site) = .ok t) :
    ∃ f₁, t.frames = f₁ :: fs := by
  simp only [Merge.step] at ht
  cases hdelete : g.deleteNode options (some f.node) target site with
  | error why =>
    rw [List.head?_cons, Option.map_some, hdelete] at ht
    cases ht
  | ok g₁ =>
    rw [List.head?_cons, Option.map_some, hdelete] at ht
    obtain rfl := Except.ok.inj ht
    cases target with
    | name n => exact ⟨_, rfl⟩
    | ref r => exact ⟨_, rfl⟩

theorem Mirrors.child {edits : List Edit} (h : Mirrors edits) (name : NodeName) (labels : List LabelMark)
    (site : Site) : Mirrors (.enterChild name labels site :: (edits ++ [.leave])) := by
  intro anonymous options g g' f fs fs' t halike ht
  obtain ⟨s₁, hstep, hrest⟩ := run_cons_inv ht
  obtain ⟨s₂, hbody, hleave⟩ := run_append_inv hrest
  obtain ⟨g₁, top₁, htop, halike₁, hstep'⟩ := halike.step [f] fs' (by simp) hstep
  rw [enter_child_eq] at hstep
  obtain rfl := Except.ok.inj hstep
  obtain rfl : top₁ = [_, _] := (List.append_cancel_right htop).symm
  obtain ⟨g₂, f₂, hframes, halike₂, hbody'⟩ := h ({ f with children := name :: f.children } :: fs') halike₁ hbody
  obtain rfl := Except.ok.inj hleave
  refine ⟨g₂, { f with children := name :: f.children }, ?_, halike₂, ?_⟩
  · simp [hframes]
  · rw [List.map_cons, List.map_append]
    exact (run_cons hstep' _).trans (run_append hbody' [.leave])

mutual

/-- The edits of a body do the same wherever the body is written. -/
theorem item_mirrors (file : FileId) (index : Nat) : (item : Item) → Mirrors (Edit.ofItem file index item)
  | .property d => by
    refine Mirrors.single fun ht => ?_
    obtain rfl := Except.ok.inj ht
    exact ⟨_, rfl⟩
  | .child head body => (items_mirrors file index body).child head.name _ _
  | .deleteNode d => Mirrors.single fun ht => delete_node_stays ht
  | .deleteProperty d => by
    refine Mirrors.single fun ht => ?_
    obtain rfl := Except.ok.inj ht
    exact ⟨_, rfl⟩

theorem items_mirrors (file : FileId) (index : Nat) :
    (items : List Item) → Mirrors (Edit.ofItems file index items)
  | [] => Mirrors.nil
  | item :: items => (item_mirrors file index item).append (items_mirrors file index items)

end

end Devicetree.Proofs
