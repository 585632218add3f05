import Devicetree.Proofs.Directives
import Devicetree.Proofs.NodeNames

namespace Devicetree.Proofs

section Sources

mutual

def headsOfItem : Item → List ChildHead
  | .child head body => head :: headsOfItems body
  | _ => []

def headsOfItems : List Item → List ChildHead
  | [] => []
  | item :: items => headsOfItem item ++ headsOfItems items

end

def headsIn (fragments : List Fragment) : List ChildHead :=
  fragments.flatMap fun f => headsOfItems (bodyOf f)

def frontLabels (f : Fragment) : List LabelDecl :=
  match f.content with
  | .root labels _ _ => labels
  | .reference _ labels _ _ _ => labels
  | .delete _ => []

def namesOfLabels (labels : List LabelDecl) : List String := labels.map LabelDecl.name

def labelsInside (items : List Item) : List String :=
  (headsOfItems items).flatMap fun head => namesOfLabels head.labels

def labelsOf (f : Fragment) : List String := namesOfLabels (frontLabels f) ++ labelsInside (bodyOf f)

def labelsIn (fragments : List Fragment) : List String := fragments.flatMap labelsOf

theorem labels_inside_cons (item : Item) (items : List Item) :
    labelsInside (item :: items) = labelsInside [item] ++ labelsInside items := by
  simp [labelsInside, headsOfItems]

theorem labels_inside_child (head : ChildHead) (body items : List Item) :
    labelsInside (.child head body :: items) =
      namesOfLabels head.labels ++ labelsInside body ++ labelsInside items := by
  simp [labelsInside, headsOfItems, headsOfItem]

def marked : Edit → List LabelMark
  | .enterRoot labels _ | .enterReference _ labels _ | .enterChild _ labels _ => labels
  | _ => []

def attached (e : Edit) : List String := (marked e).map LabelMark.name

theorem names_of_marks (file : FileId) (labels : List LabelDecl) :
    (Edit.marks file labels).map LabelMark.name = namesOfLabels labels := by
  simp [Edit.marks, namesOfLabels, Function.comp_def]

def Enters (heads : List ChildHead) (e : Edit) : Prop :=
  ∃ head ∈ heads, ∃ file site, e = .enterChild head.name (Edit.marks file head.labels) site

def Inner (e : Edit) : Prop :=
  attached e = [] ∧ (∀ name labels site, e ≠ .enterChild name labels site) ∧
    ∀ target labels site, e ≠ .enterReference target labels site

theorem Enters.mono {heads more : List ChildHead} {e : Edit} (h : Enters heads e)
    (hsub : ∀ head ∈ heads, head ∈ more) : Enters more e := by
  obtain ⟨head, hmem, he⟩ := h
  exact ⟨head, hsub head hmem, he⟩

mutual

/-- Within a body, what is entered is a child that is written there. -/
theorem edit_of_item {file : FileId} {index : Nat} {e : Edit} :
    (item : Item) → e ∈ Edit.ofItem file index item → Enters (headsOfItem item) e ∨ Inner e
  | .child head body, h => by
    simp only [Edit.ofItem, List.mem_cons, List.mem_append, List.not_mem_nil, or_false] at h
    rcases h with rfl | hbody | rfl
    · exact Or.inl ⟨head, List.mem_cons_self, file, _, rfl⟩
    · exact (edit_of_items body hbody).imp_left fun he =>
        he.mono fun _ hm => List.mem_cons_of_mem _ hm
    · exact Or.inr ⟨rfl, by simp, by simp⟩
  | .property d, h => by
    obtain rfl := List.mem_singleton.mp h
    exact Or.inr ⟨rfl, by simp, by simp⟩
  | .deleteNode d, h => by
    obtain rfl := List.mem_singleton.mp h
    exact Or.inr ⟨rfl, by simp, by simp⟩
  | .deleteProperty d, h => by
    obtain rfl := List.mem_singleton.mp h
    exact Or.inr ⟨rfl, by simp, by simp⟩

theorem edit_of_items {file : FileId} {index : Nat} {e : Edit} :
    (items : List Item) → e ∈ Edit.ofItems file index items → Enters (headsOfItems items) e ∨ Inner e
  | [], h => by cases h
  | item :: items, h => by
    rcases List.mem_append.mp h with hitem | hrest
    · exact (edit_of_item item hitem).imp_left fun he =>
        he.mono fun _ hm => List.mem_append_left _ hm
    · exact (edit_of_items items hrest).imp_left fun he =>
        he.mono fun _ hm => List.mem_append_right _ hm

end

theorem Enters.attached {heads : List ChildHead} {e : Edit} (h : Enters heads e) {l : String}
    (hl : l ∈ attached e) : l ∈ heads.flatMap fun head => namesOfLabels head.labels := by
  obtain ⟨head, hmem, file, site, rfl⟩ := h
  rw [Proofs.attached, marked, names_of_marks] at hl
  exact List.mem_flatMap.mpr ⟨head, hmem, hl⟩

theorem attached_inside {file : FileId} {index : Nat} {items : List Item} {e : Edit}
    (h : e ∈ Edit.ofItems file index items) {l : String} (hl : l ∈ attached e) :
    l ∈ labelsInside items := by
  rcases edit_of_items items h with henter | hinner
  · exact henter.attached hl
  · rw [hinner.1] at hl
    cases hl

/-- The edits of a fragment: one that opens it, those of its body, and the end of the body. -/
theorem edit_of_fragment {index : Nat} {f : Fragment} {e : Edit} (h : e ∈ Edit.ofFragment index f) :
    e ∈ Edit.ofItems f.file index (bodyOf f) ∨
      (attached e = namesOfLabels (frontLabels f) ∨ attached e = []) ∧
        ∀ name labels site, e ≠ .enterChild name labels site := by
  obtain ⟨file, content⟩ := f
  cases content with
  | root labels body span =>
    simp only [Edit.ofFragment, List.mem_cons, List.mem_append, List.not_mem_nil, or_false] at h
    rcases h with rfl | hbody | rfl
    · exact Or.inr ⟨Or.inl (names_of_marks file labels), by simp⟩
    · exact Or.inl hbody
    · exact Or.inr ⟨Or.inr rfl, by simp⟩
  | reference target labels body targetSpan span =>
    simp only [Edit.ofFragment, List.mem_cons, List.mem_append, List.not_mem_nil, or_false] at h
    rcases h with rfl | hbody | rfl
    · exact Or.inr ⟨Or.inl (names_of_marks file labels), by simp⟩
    · exact Or.inl hbody
    · exact Or.inr ⟨Or.inr rfl, by simp⟩
  | delete d =>
    obtain rfl := List.mem_singleton.mp h
    exact Or.inr ⟨Or.inr rfl, by simp⟩

theorem edit_of_fragments {index : Nat} {fragments : List Fragment} {e : Edit}
    (h : e ∈ Edit.ofFragments index fragments) :
    ∃ f ∈ fragments, ∃ i, e ∈ Edit.ofFragment i f := by
  induction fragments generalizing index with
  | nil => cases h
  | cons f fs ih =>
    rcases List.mem_append.mp h with hfirst | hrest
    · exact ⟨f, List.mem_cons_self, index, hfirst⟩
    · obtain ⟨f', hf', he⟩ := ih hrest
      exact ⟨f', List.mem_cons_of_mem _ hf', he⟩

/-- A label that is attached is written on a node. -/
theorem attached_of_fragment {index : Nat} {f : Fragment} {e : Edit} (h : e ∈ Edit.ofFragment index f)
    {l : String} (hl : l ∈ attached e) : l ∈ labelsOf f := by
  rcases edit_of_fragment h with hbody | ⟨hfront | hnone, _⟩
  · exact List.mem_append_right _ (attached_inside hbody hl)
  · exact List.mem_append_left _ (hfront ▸ hl)
  · rw [hnone] at hl
    cases hl

/-- A child that is entered is written in some body. -/
theorem entered_written {index : Nat} {fragments : List Fragment} {name : NodeName}
    {labels : List LabelMark} {site : Site}
    (h : .enterChild name labels site ∈ Edit.ofFragments index fragments) :
    ∃ head ∈ headsIn fragments, head.name = name := by
  obtain ⟨f, hf, i, he⟩ := edit_of_fragments h
  rcases edit_of_fragment he with hbody | ⟨_, hnot⟩
  · rcases edit_of_items (bodyOf f) hbody with ⟨head, hmem, _, _, heq⟩ | hinner
    · obtain ⟨hname, _, _⟩ := Edit.enterChild.inj heq
      exact ⟨head, List.mem_flatMap.mpr ⟨f, hf, hmem⟩, hname.symm⟩
    · exact absurd rfl (hinner.2.1 name labels site)
  · exact absurd rfl (hnot name labels site)

end Sources

section Names
variable {g g' : Graph}

def Named (g : Graph) : Prop := ∀ id parent, g.parent? id = some parent → Readable (g.node id).name

/-- Where no node is new, no name is. -/
theorem Named.keep (hn : Named g) (hs : Since g g') (size : g'.nodes.size = g.nodes.size) : Named g' := by
  intro id parent hp
  have has : HasNode g id := by simpa [HasNode, size] using has_node_of_parent hp
  have hsame := hs.node id has
  rw [hsame.name]
  exact hn id parent (hsame.parent.symm.trans hp)

theorem Named.quiet (hn : Named g) (h : Quiet g g') : Named g' := by
  intro id parent hp
  have hparent : g'.parent? id = g.parent? id := congrArg Outline.parent (h.outline id)
  rw [h.name]
  exact hn id parent (hparent ▸ hp)

theorem Named.addChild (hn : Named g) {parent : NodeId} (hp : HasNode g parent) {name : NodeName}
    (hname : Readable name) : Named (g.addChild name parent) := by
  intro id p h
  rw [parent_addChild name hp] at h
  rw [name_addChild name hp]
  split
  · exact hname
  · rename_i hne
    rw [if_neg hne] at h
    exact hn id p h

theorem Named.ensure (hn : Named g) (hs : Sound g) {id : NodeId} (hk : Kept g id)
    {names : List NodeName} (hnames : ∀ name ∈ names, Readable name) : Named (g.ensure id names).1 := by
  induction names generalizing g id with
  | nil => exact hn
  | cons name names ih =>
    have hrest : ∀ name ∈ names, Readable name := fun m hm => hnames m (List.mem_cons_of_mem _ hm)
    unfold Graph.ensure
    split
    · rename_i c hc
      exact ih hn hs (hs.child_kept (child_by_name_mem hc)) hrest
    · rename_i hnone
      have hnew := add_child_arrives hk.has (pick_none hnone)
      exact ih (hn.addChild hk.has (hnames name List.mem_cons_self)) (hs.changes hnew.changes) hnew.kept
        hrest

/-- What a reference creates on its way is named by the segments of a path. -/
theorem Named.reach (hn : Named g) (hs : Sound g) (target : NodeRef) (site : Site) :
    Named (g.reach target site).1 := by
  have hpath : ∀ p r, g.ensurePath? p = some r → Named r.1 := by
    intro p r hr
    unfold Graph.ensurePath? at hr
    split at hr
    · exact Option.some.inj hr ▸ hn.ensure hs hs.root_kept fun _ hm => readable_of_mem_pathNames hm
    · cases hr
  have hfound : ∀ r, g.ensureTarget? target = some r → Named r.1 := by
    intro r hr
    cases target with
    | path p => exact hpath p r hr
    | label l =>
      simp only [Graph.ensureTarget?] at hr
      split at hr
      · split at hr
        · exact Option.some.inj hr ▸ hn
        · cases hr
      · obtain ⟨p, _, hp⟩ := Option.bind_eq_some_iff.mp hr
        exact hpath p r hp
  unfold Graph.reach
  split
  · rename_i r hr
    exact hfound r hr
  · intro id parent hp
    rw [parent_addOrphan] at hp
    rw [node_addOrphan]
    split at hp
    · cases hp
    · rename_i hne
      rw [if_neg hne]
      exact hn id parent hp

theorem quiet_addReference (g : Graph) (id : NodeId) (site : Site) : Quiet g (g.addReference id site) :=
  quiet_modifyNode g id _ fun _ => rfl

theorem Named.ensureChild (hn : Named g) {parent : NodeId} (hp : HasNode g parent) {name : NodeName}
    (hname : Readable name) : Named (g.ensureChild parent name).1 := by
  unfold Graph.ensureChild
  split
  · exact hn
  · exact hn.addChild hp hname

theorem nodes_size_deleteNode {options : BuildOptions} {scope : Option NodeId} {target : DeleteTarget}
    {site : Site} (h : g.deleteNode options scope target site = .ok g') :
    g'.nodes.size = g.nodes.size := by
  rcases delete_node_cases h with ⟨x, rfl⟩ | ⟨x, parent, id, what, location, locations, rfl⟩
  · exact nodes_size_addDirective g x
  · exact (quiet_reportDeleted _ _ _ _ _).size.trans (by simp)

theorem nodes_size_deleteProperty (options : BuildOptions) (owner : NodeId) (name : String) (site : Site) :
    (g.deleteProperty options owner name site).nodes.size = g.nodes.size := by
  rcases delete_property_cases g options owner name site with ⟨_, hq⟩ | ⟨p, g₁, d, _, hq₁, hq₂⟩
  · exact hq.size
  · rw [hq₂.size, ← hq₁.size]
    simp [Graph.dropProperty, Graph.modifyProperty]

end Names

/-- An edit gives new nodes names from paths, or the name of the child that it enters. -/
theorem step_named {options : BuildOptions} {s s' : Merge.State} (hs : Settled s) (hn : Named s.graph)
    {e : Edit} (hname : ∀ name labels site, e = .enterChild name labels site → Readable name)
    (h : Merge.step options s e = .ok s') : Named s'.graph := by
  have hsince := hs.step_since h
  obtain ⟨g, frames⟩ := s
  have hsound : Sound g := hs.ready.sound
  cases e with
  | enterRoot labels site =>
    obtain rfl := Except.ok.inj h
    exact hn.quiet ((quiet_addDefinition g Graph.root .root site).trans
      (quiet_attachLabels _ Graph.root labels false))
  | enterReference target labels site =>
    obtain rfl := Except.ok.inj h
    exact (hn.reach hsound target site).quiet ((quiet_addReference _ _ site).trans
      (quiet_attachLabels _ _ labels true))
  | enterChild name labels site =>
    cases frames with
    | nil =>
      obtain rfl := Except.ok.inj h
      exact hn
    | cons f fs =>
      obtain rfl := Except.ok.inj h
      have hreport := quiet_report_if g (name ∈ f.children)
        (.ofFault (.duplicateNodeName name) site.nameLocation)
      have hhas := hs.has
      rw [HasNode, ← hreport.size] at hhas
      have hchild := (hn.quiet hreport).ensureChild hhas (hname name labels site rfl)
      exact hchild.quiet ((quiet_addDefinition _ _ .child site).trans (quiet_attachLabels _ _ labels false))
  | leave =>
    obtain rfl := Except.ok.inj h
    exact hn
  | property name values labels site =>
    cases frames with
    | nil =>
      obtain rfl := Except.ok.inj h
      exact hn
    | cons f fs =>
      obtain rfl := Except.ok.inj h
      exact hn.keep hsince ((nodes_size_setProperty _ _ _ _ _ _).trans (quiet_report_if g _ _).size)
  | deleteNode target site =>
    simp only [Merge.step] at h
    cases hdelete : g.deleteNode options (frames.head?.map Merge.Frame.node) target site with
    | error err =>
      rw [hdelete] at h
      cases h
    | ok g' =>
      rw [hdelete] at h
      obtain rfl := Except.ok.inj h
      exact hn.keep hsince (nodes_size_deleteNode hdelete)
  | deleteProperty name site =>
    cases frames with
    | nil =>
      obtain rfl := Except.ok.inj h
      exact hn
    | cons f fs =>
      obtain rfl := Except.ok.inj h
      exact hn.keep hsince (nodes_size_deleteProperty options f.node name site)

theorem start_named (config : BuildConfig) (fragments : List Fragment) :
    Named (Build.start config fragments).graph := by
  intro id parent h
  rw [Graph.parent?, node_start] at h
  cases h

/-- While children have names that can be read, every node below another has. -/
theorem moment_named {config : BuildConfig} {fragments : List Fragment} {n : Nat} {s : Merge.State}
    (hnames : ∀ head ∈ headsIn fragments, Readable head.name)
    (hm : moment config fragments n = .ok s) : Named s.graph := by
  refine run_keeps ?_ (start_settled config fragments) (start_named config fragments) hm
  intro e he t t' ht hn hstep
  refine step_named ht hn ?_ hstep
  rintro name labels site rfl
  obtain ⟨head, hmem, rfl⟩ := entered_written (List.mem_of_mem_take he)
  exact hnames head hmem

end Devicetree.Proofs
