import Mathlib.Data.List.Induction
import Devicetree.Proofs.ReferenceFragments
import Devicetree.Proofs.ReportedKinds
import Devicetree.Proofs.SourceNodes

namespace Devicetree.Proofs

section Births

def Inward (b : NodeId) (g g' : Graph) : Prop :=
  ∀ n, HasNode g' n → ¬ HasNode g n → ∃ p, g'.parent? n = some p ∧ b.index ≤ p.index

variable {g g' g'' : Graph} {b c : NodeId}

theorem inward_of_size (b : NodeId) (h : g'.nodes.size = g.nodes.size) : Inward b g g' := by
  intro n hn hnot
  exact absurd (by simpa [HasNode, h] using hn) hnot

theorem Inward.trans (h : Inward b g g') (h' : Inward b g' g'') (hs : Since g' g'') : Inward b g g'' := by
  intro n hn hnot
  by_cases hmid : HasNode g' n
  · obtain ⟨p, hp, hle⟩ := h n hmid hnot
    exact ⟨p, (hs.node n hmid).parent.trans hp, hle⟩
  · exact h' n hn hmid

theorem Inward.older (h : Inward c g g') (hle : b.index ≤ c.index) : Inward b g g' := by
  intro n hn hnot
  obtain ⟨p, hp, hpc⟩ := h n hn hnot
  exact ⟨p, hp, Nat.le_trans hle hpc⟩

/-- A child that was there before was a child before. -/
theorem Since.child_before (hs : Since g g') (hl : Linked g) (hl' : Linked g') {n parent : NodeId}
    (hn : HasNode g n) (h : n ∈ g'.children parent) : n ∈ g.children parent := by
  have hparent : g.parent? n = some parent := (hs.node n hn).parent.symm.trans (hl'.child parent n h)
  refine hl.mem_children hparent ?_
  cases hd : (g.node n).deletedBy with
  | none => rfl
  | some d => cases ((hs.node n hn).deletedBy d hd).symm.trans (hl'.child_kept h)

/-- Where new nodes come inward, an older node gets no new children. -/
theorem Inward.child_before (h : Inward c g g') (hs : Since g g') (hl : Linked g) (hl' : Linked g')
    (hlt : b.index < c.index) {n : NodeId} (hn : HasNode g' n) (hmem : n ∈ g'.children b) : n ∈ g.children b := by
  by_cases hold : HasNode g n
  · exact hs.child_before hl hl' hold hmem
  · obtain ⟨p, hp, hle⟩ := h n hn hold
    obtain rfl : b = p := Option.some.inj ((hl'.child b n hmem).symm.trans hp)
    exact absurd hle (Nat.not_le_of_lt hlt)

/-- What opening the body of a child comes to: the child of that name is there, and it is the one new node if there is
any. -/
structure Entered (g : Graph) (parent : NodeId) (name : NodeName) (g' : Graph) (c : NodeId) : Prop where
  listed : c ∈ g'.children parent
  name : (g'.node c).name = name
  births : ∀ n, HasNode g' n → HasNode g n ∨ n = c

theorem Settled.enters {f : Merge.Frame} {fs : List Merge.Frame} (hs : Settled ⟨g, f :: fs⟩)
    (options : BuildOptions) (name : NodeName) (labels : List LabelMark) (site : Site) :
    ∃ g' c, Merge.step options ⟨g, f :: fs⟩ (.enterChild name labels site) =
        .ok ⟨g', { node := c } :: { f with children := name :: f.children } :: fs⟩ ∧
      Entered g f.node name g' c := by
  have hquiet : Quiet g (beforeChild g f name site) := quiet_report_if g _ _
  have hmarks : ∀ r : Graph × NodeId,
      Quiet r.1 ((r.1.addDefinition r.2 .child site).attachLabels r.2 labels false) :=
    fun r => (quiet_addDefinition r.1 r.2 .child site).trans (quiet_attachLabels _ r.2 labels false)
  have hlookup : (beforeChild g f name site).childByName? f.node name true = g.childByName? f.node name true := by
    unfold beforeChild
    split <;> rfl
  refine ⟨_, _, enter_child_eq options g f fs name labels site, ?_⟩
  unfold Graph.ensureChild
  rw [hlookup]
  cases hfound : g.childByName? f.node name true with
  | some c =>
    have hall := hquiet.trans (hmarks (beforeChild g f name site, c))
    refine ⟨?_, ?_, fun n hn => .inl ?_⟩
    · rw [hall.children]
      exact child_by_name_mem hfound
    · rw [hall.name]
      exact child_by_name_strict hfound
    · simpa [HasNode, hall.size] using hn
  | none =>
    have hnext : (beforeChild g f name site).nextNode = g.nextNode := by simp [Graph.nextNode, hquiet.size]
    have hhas : HasNode (beforeChild g f name site) f.node := by simpa [HasNode, hquiet.size] using hs.has
    have hall := hmarks ((beforeChild g f name site).addChild name f.node, (beforeChild g f name site).nextNode)
    refine ⟨?_, ?_, fun n hn => ?_⟩
    · rw [hall.children, children_addChild name hhas, if_neg hhas.ne_next, if_pos rfl]
      exact List.mem_append_right _ (List.mem_singleton_self _)
    · rw [hall.name, name_addChild name hhas, if_pos rfl]
    · have hlt : n.index < g.nodes.size + 1 := by
        simpa [HasNode, hall.size, hquiet.size] using hn
      rw [hnext]
      by_cases heq : n.index = g.nodes.size
      · exact .inr (by cases n; cases heq; rfl)
      · exact .inl (show n.index < g.nodes.size by omega)

theorem Entered.inward {parent : NodeId} {name : NodeName} (h : Entered g parent name g' c) (hl : Linked g') :
    Inward parent g g' := by
  intro n hn hnot
  obtain rfl := (h.births n hn).resolve_left hnot
  exact ⟨parent, hl.child parent n h.listed, Nat.le_refl _⟩

end Births

section Names

def declaring : Item → List NodeName → List NodeName
  | .child head _, names => head.name :: names
  | .deleteNode ⟨.name wanted, _, _⟩, names => names.filter fun m => !decide (m = wanted)
  | _, names => names

def declaredBy (items : List Item) : List NodeName := items.foldl (fun names item => declaring item names) []

/-- A list that ends in `y` is split at `y`, or before it. -/
theorem concat_eq_split {α : Type} {xs a c : List α} {x y : α} :
    xs ++ [y] = a ++ x :: c ↔ (c = [] ∧ xs = a ∧ y = x) ∨ ∃ c', c = c' ++ [y] ∧ xs = a ++ x :: c' := by
  rcases List.eq_nil_or_concat c with rfl | ⟨c', z, rfl⟩
  · simp
  · have hassoc : a ++ x :: (c' ++ [z]) = (a ++ x :: c') ++ [z] := by simp
    rw [List.concat_eq_append, hassoc, List.append_singleton_inj]
    constructor
    · rintro ⟨hxs, rfl⟩
      exact .inr ⟨c', rfl, hxs⟩
    · rintro (⟨hnil, _⟩ | ⟨d, hd, hxs⟩)
      · simp at hnil
      · obtain ⟨rfl, rfl⟩ := List.append_singleton_inj.mp hd
        exact ⟨hxs, rfl⟩

/-- The body has a child of this name, and no directive further on in it deletes the child by name. -/
def StillDeclared (items : List Item) (name : NodeName) : Prop :=
  ∃ a head body c, items = a ++ .child head body :: c ∧ head.name = name ∧
    ∀ d, .deleteNode d ∈ c → d.target ≠ .name name

theorem still_declared_concat {items : List Item} {item : Item} {name : NodeName} :
    StillDeclared (items ++ [item]) name ↔
      (∃ head body, item = .child head body ∧ head.name = name) ∨
      (StillDeclared items name ∧ ∀ d, item = .deleteNode d → d.target ≠ .name name) := by
  constructor
  · rintro ⟨a, head, body, c, hsplit, hname, hnot⟩
    obtain ⟨rfl, rfl, rfl⟩ | ⟨c', rfl, rfl⟩ := concat_eq_split.mp hsplit
    · exact .inl ⟨head, body, rfl, hname⟩
    · refine .inr ⟨⟨a, head, body, c', rfl, hname, fun d hd => hnot d (List.mem_append_left _ hd)⟩, ?_⟩
      rintro d rfl
      exact hnot d (by simp)
  · rintro (⟨head, body, rfl, hname⟩ | ⟨⟨a, head, body, c, rfl, hname, hnot⟩, hlast⟩)
    · exact ⟨items, head, body, [], rfl, hname, by simp⟩
    · refine ⟨a, head, body, c ++ [item], by simp, hname, fun d hd => ?_⟩
      rcases List.mem_append.mp hd with hd | hd
      · exact hnot d hd
      · exact hlast d (List.mem_singleton.mp hd).symm

theorem mem_declaredBy (items : List Item) (name : NodeName) :
    name ∈ declaredBy items ↔ StillDeclared items name := by
  induction items using List.reverseRecOn with
  | nil => simp [declaredBy, StillDeclared]
  | append_singleton items item ih =>
    have hstep : declaredBy (items ++ [item]) = declaring item (declaredBy items) := by simp [declaredBy]
    rw [hstep, still_declared_concat, ← ih]
    match item with
    | .property _ | .deleteProperty _ => simp [declaring]
    | .child head _ => simp [declaring, @eq_comm _ name]
    | .deleteNode ⟨.ref _, _, _⟩ => simp [declaring]
    | .deleteNode ⟨.name wanted, _, _⟩ => simp [declaring, @eq_comm _ name]

end Names

section Bodies
variable {options : BuildOptions}

/-- Edits that, made in an open body, close the bodies that they open, have all new nodes below the body's node, and
do `names` to the names declared in the body. -/
def Carries (options : BuildOptions) (edits : List Edit) (names : List NodeName → List NodeName) : Prop :=
  ∀ g f fs, Settled ⟨g, f :: fs⟩ →
    ∃ g' f', Merge.run options ⟨g, f :: fs⟩ edits = .ok ⟨g', f' :: fs⟩ ∧ f'.node = f.node ∧
      f'.children = names f.children ∧ Inward f.node g g'

theorem Carries.append {edits more : List Edit} {names names' : List NodeName → List NodeName}
    (h : Carries options edits names) (h' : Carries options more names') :
    Carries options (edits ++ more) fun ns => names' (names ns) := by
  intro g f fs hs
  obtain ⟨g₁, f₁, hrun₁, hnode₁, hnames₁, hin₁⟩ := h g f fs hs
  have hs₁ := hs.run hrun₁
  obtain ⟨g₂, f₂, hrun₂, hnode₂, hnames₂, hin₂⟩ := h' g₁ f₁ fs hs₁
  rw [hnode₁] at hin₂
  exact ⟨g₂, f₂, (run_append hrun₁ more).trans hrun₂, hnode₂.trans hnode₁, by rw [hnames₂, hnames₁],
    hin₁.trans hin₂ (hs₁.since hrun₂)⟩

theorem Carries.property (name : String) (values : List Value) (labels : List LabelMark) (site : Site) :
    Carries options [.property name values labels site] id := by
  intro g f fs hs
  refine ⟨_, { f with properties := name :: f.properties }, rfl, rfl, rfl, inward_of_size _ ?_⟩
  rw [nodes_size_setProperty]
  exact (quiet_report_if g _ _).size

theorem Carries.deleteProperty (name : String) (site : Site) : Carries options [.deleteProperty name site] id := by
  intro g f fs hs
  exact ⟨_, { f with properties := f.properties.filter fun m => !decide (m = name) }, rfl, rfl, rfl,
    inward_of_size _ (nodes_size_deleteProperty options f.node name site)⟩

/-- What deleting a node in an open body does to the graph and to the body. -/
theorem Settled.deletes {g : Graph} {f : Merge.Frame} {fs : List Merge.Frame} (hs : Settled ⟨g, f :: fs⟩)
    (target : DeleteTarget) (site : Site) :
    ∃ g', g.deleteNode options (some f.node) target site = .ok g' ∧
      Merge.step options ⟨g, f :: fs⟩ (.deleteNode target site) =
        .ok ⟨g', { f with children := declaring (.deleteNode ⟨target, {}, {}⟩) f.children } :: fs⟩ := by
  have hscope : ∀ m, some f.node = some m → HasNode g m := fun m hm => Option.some.inj hm ▸ hs.has
  obtain ⟨g', hdelete, _⟩ := delete_node_changes hs.ready.sound options hscope target site
  refine ⟨g', hdelete, ?_⟩
  simp only [Merge.step, List.head?_cons, Option.map_some, hdelete]
  cases target <;> rfl

theorem Carries.deleteNode (target : DeleteTarget) (site : Site) :
    Carries options [.deleteNode target site] (declaring (.deleteNode ⟨target, {}, {}⟩)) := by
  intro g f fs hs
  obtain ⟨g', hdelete, hstep⟩ := hs.deletes target site
  exact ⟨g', _, run_cons hstep [], rfl, rfl, inward_of_size _ (nodes_size_deleteNode hdelete)⟩

theorem Carries.child {edits : List Edit} {names : List NodeName → List NodeName} (h : Carries options edits names)
    (name : NodeName) (labels : List LabelMark) (site : Site) :
    Carries options (.enterChild name labels site :: (edits ++ [.leave])) (name :: ·) := by
  intro g f fs hs
  obtain ⟨g₁, c, hstep, hentered⟩ := hs.enters options name labels site
  have hs₁ := hs.step hstep
  obtain ⟨g₂, inner, hrun, _, _, hin⟩ := h g₁ { node := c } _ hs₁
  have hlinked := hs₁.ready.sound.linked
  have holder := hlinked.older c f.node (hlinked.child f.node c hentered.listed)
  refine ⟨g₂, { f with children := name :: f.children }, ?_, rfl, rfl, ?_⟩
  · rw [run_cons hstep, run_append hrun]
    rfl
  · exact (hentered.inward hlinked).trans (hin.older (Nat.le_of_lt holder)) (hs₁.since hrun)

mutual

theorem item_carries (options : BuildOptions) (file : FileId) (index : Nat) :
    (item : Item) → Carries options (Edit.ofItem file index item) (declaring item)
  | .property d => Carries.property d.name d.values _ _
  | .child head body => (items_carry options file index body).child head.name _ _
  | .deleteNode ⟨.name wanted, _, _⟩ => Carries.deleteNode (.name wanted) _
  | .deleteNode ⟨.ref target, _, _⟩ => Carries.deleteNode (.ref target) _
  | .deleteProperty d => Carries.deleteProperty d.name _

/-- The items of a body are merged below its node, and the names declared in the body are those of the items. -/
theorem items_carry (options : BuildOptions) (file : FileId) (index : Nat) :
    (items : List Item) → Carries options (Edit.ofItems file index items)
      fun names => items.foldl (fun names item => declaring item names) names
  | [] => fun g f _ _ => ⟨g, f, rfl, rfl, rfl, inward_of_size _ rfl⟩
  | item :: items => (item_carries options file index item).append (items_carry options file index items)

end

def innermost? (s : Merge.State) : Option NodeId := s.frames.head?.map Merge.Frame.node

/-- A child among the items of a body, which is merged from the state `s` on, is merged into the node `n`. -/
def Contributes (options : BuildOptions) (s : Merge.State) (file : FileId) (index : Nat) (items : List Item)
    (n : NodeId) : Prop :=
  ∃ a head body c s', items = a ++ .child head body :: c ∧
    Merge.run options s (Edit.ofItems file index a ++ [entering file index head]) = .ok s' ∧ innermost? s' = some n

variable {s : Merge.State} {file : FileId} {index : Nat} {items : List Item} {item : Item} {n : NodeId}

theorem contributes_concat : Contributes options s file index (items ++ [item]) n ↔
    Contributes options s file index items n ∨ ∃ head body s', item = .child head body ∧
      Merge.run options s (Edit.ofItems file index items ++ [entering file index head]) = .ok s' ∧
      innermost? s' = some n := by
  constructor
  · rintro ⟨a, head, body, c, s', hsplit, hrun, hn⟩
    obtain ⟨rfl, rfl, rfl⟩ | ⟨c', rfl, rfl⟩ := concat_eq_split.mp hsplit
    · exact .inr ⟨head, body, s', rfl, hrun, hn⟩
    · exact .inl ⟨a, head, body, c', s', rfl, hrun, hn⟩
  · rintro (⟨a, head, body, c, s', rfl, hrun, hn⟩ | ⟨head, body, s', rfl, hrun, hn⟩)
    · exact ⟨a, head, body, c ++ [item], s', by simp, hrun, hn⟩
    · exact ⟨items, head, body, [], s', rfl, hrun, hn⟩

theorem edits_of_items_append (file : FileId) (index : Nat) (items more : List Item) :
    Edit.ofItems file index (items ++ more) = Edit.ofItems file index items ++ Edit.ofItems file index more := by
  induction items with
  | nil => rfl
  | cons item items ih => simp [Edit.ofItems, ih]

/-- After a directive that names a child, there is no such child. -/
theorem Sound.gone_by_name {g g' : Graph} (hs : Sound g) {b : NodeId} (hb : HasNode g b) {wanted : NodeName}
    {site : Site} (h : g.deleteNode options (some b) (.name wanted) site = .ok g') :
    ∀ n ∈ g'.children b, (g'.node n).name ≠ wanted := by
  obtain ⟨g'', hdelete, hcases⟩ := hs.delete_child_cases options b wanted site
  obtain rfl := Except.ok.inj (hdelete.symm.trans h)
  intro n hn
  rcases hcases with ⟨hnone, hq⟩ | ⟨c, g₁, d, hfound, hq₁, hq₂⟩
  · rw [hq.children] at hn
    rw [hq.name]
    exact pick_none hnone n hn
  · have hmem := child_by_name_mem hfound
    have hne : b ≠ c := by
      rintro rfl
      exact hs.linked.not_above_parent hmem .self
    have hb₁ : HasNode g₁ b := by simpa [HasNode, hq₁.size] using hb
    have hc₁ : HasNode g₁ c := by simpa [HasNode, hq₁.size] using (hs.bounded.node b).children c hmem
    rw [hq₂.children, children_dropChild d hb₁ hc₁ hne, if_pos rfl, hq₁.children,
      (hs.linked.nodup b).mem_erase_iff] at hn
    rw [hq₂.name, name_dropChild, hq₁.name]
    intro hname
    exact hn.1 (hs.linked.same_name hmem hn.2 (hname.trans (child_by_name_strict hfound).symm))

variable {g g' : Graph} {f f' : Merge.Frame} {fs : List Merge.Frame}

/-- An item that is no child makes no nodes, and one that deletes a child by name leaves none of that name. -/
theorem Settled.plain_item_size (hs : Settled ⟨g, f :: fs⟩) (hplain : ∀ head body, item ≠ .child head body)
    (h : Merge.run options ⟨g, f :: fs⟩ (Edit.ofItem file index item) = .ok ⟨g', f' :: fs⟩) :
    g'.nodes.size = g.nodes.size ∧ ∀ wanted targetSpan span, item = .deleteNode ⟨.name wanted, targetSpan, span⟩ →
      ∀ n ∈ g'.children f.node, (g'.node n).name ≠ wanted := by
  cases item with
  | property d =>
    obtain ⟨rfl, _⟩ := Merge.State.mk.inj (Except.ok.inj h)
    refine ⟨?_, by rintro _ _ _ ⟨⟩⟩
    rw [nodes_size_setProperty]
    exact (quiet_report_if g _ _).size
  | child head body => exact absurd rfl (hplain head body)
  | deleteNode d =>
    obtain ⟨target, targetSpan, span⟩ := d
    obtain ⟨g'', hdelete, hstep⟩ := hs.deletes target (Edit.site file index span targetSpan)
    obtain ⟨rfl, _⟩ := Merge.State.mk.inj (Except.ok.inj ((run_cons hstep []).symm.trans h))
    refine ⟨nodes_size_deleteNode hdelete, ?_⟩
    rintro wanted _ _ ⟨⟩
    exact hs.ready.sound.gone_by_name hs.has hdelete
  | deleteProperty d =>
    obtain ⟨rfl, _⟩ := Merge.State.mk.inj (Except.ok.inj h)
    exact ⟨nodes_size_deleteProperty options f.node d.name _, by rintro _ _ _ ⟨⟩⟩

/-- An item that is no child leaves a body with its children or fewer, and the body has the names of those that are
left as it had them before. -/
theorem Settled.plain_item (hs : Settled ⟨g, f :: fs⟩) (hplain : ∀ head body, item ≠ .child head body)
    (h : Merge.run options ⟨g, f :: fs⟩ (Edit.ofItem file index item) = .ok ⟨g', f' :: fs⟩)
    (hn : n ∈ g'.children f.node) :
    n ∈ g.children f.node ∧ ((g'.node n).name ∈ f'.children ↔ (g.node n).name ∈ f.children) := by
  have hs' := hs.run h
  have hsince := hs.since h
  obtain ⟨hsize, hgone⟩ := hs.plain_item_size hplain h
  have hhas : HasNode g n := by
    simpa [HasNode, hsize] using (hs'.ready.sound.bounded.node f.node).children n hn
  have hname : (g'.node n).name = (g.node n).name := (hsince.node n hhas).name
  refine ⟨hsince.child_before hs.ready.sound.linked hs'.ready.sound.linked hhas hn, ?_⟩
  obtain ⟨g'', f'', hrun, _, hnames, _⟩ := item_carries options file index item g f fs hs
  obtain ⟨rfl, hframes⟩ := Merge.State.mk.inj (Except.ok.inj (hrun.symm.trans h))
  obtain ⟨rfl, _⟩ := List.cons.inj hframes
  rw [hnames, hname]
  cases item with
  | property d | deleteProperty d => rfl
  | child head body => exact absurd rfl (hplain head body)
  | deleteNode d =>
    obtain ⟨target, targetSpan, span⟩ := d
    cases target with
    | ref target => rfl
    | name wanted =>
      have hother := hgone wanted targetSpan span rfl n hn
      rw [hname] at hother
      simp [declaring, hother]

/-- A child item of a body adds no child but the one that it is merged into. -/
theorem Settled.child_item (hs : Settled ⟨g, f :: fs⟩) {head : ChildHead} {body : List Item}
    (h : Merge.run options ⟨g, f :: fs⟩ (Edit.ofItem file index (.child head body)) = .ok ⟨g', f' :: fs⟩)
    (hn : n ∈ g'.children f.node) :
    ∃ s' c, Merge.run options ⟨g, f :: fs⟩ [entering file index head] = .ok s' ∧ innermost? s' = some c ∧
      ((n = c ∧ (g'.node n).name ∈ f'.children) ∨
        (n ≠ c ∧ n ∈ g.children f.node ∧ ((g'.node n).name ∈ f'.children ↔ (g.node n).name ∈ f.children))) := by
  obtain ⟨g₁, c, hstep, hentered⟩ := hs.enters options head.name (Edit.marks file head.labels)
    (Edit.site file index head.span head.nameSpan)
  have hs₁ := hs.step hstep
  obtain ⟨g₂, inner, hbody, _, _, hin⟩ := items_carry options file index body g₁ { node := c } _ hs₁
  have hs₂ := hs₁.run hbody
  have hrun : Merge.run options ⟨g, f :: fs⟩ (Edit.ofItem file index (.child head body)) =
      .ok ⟨g₂, { f with children := head.name :: f.children } :: fs⟩ := by
    rw [Edit.ofItem, run_cons hstep, run_append hbody]
    rfl
  obtain ⟨rfl, hframes⟩ := Merge.State.mk.inj (Except.ok.inj (hrun.symm.trans h))
  obtain ⟨rfl, _⟩ := List.cons.inj hframes
  have hlinked₁ := hs₁.ready.sound.linked
  have hsince := hs₁.since hbody
  have holder := hlinked₁.older c f.node (hlinked₁.child f.node c hentered.listed)
  have hn₁ := hin.child_before hsince hlinked₁ hs₂.ready.sound.linked holder
    ((hs₂.ready.sound.bounded.node f.node).children n hn) hn
  have hhas₁ : HasNode g₁ n := (hs₁.ready.sound.bounded.node f.node).children n hn₁
  have hname₁ : (g₂.node n).name = (g₁.node n).name := (hsince.node n hhas₁).name
  refine ⟨_, c, run_cons hstep [], rfl, ?_⟩
  by_cases hc : n = c
  · subst hc
    exact .inl ⟨rfl, by rw [hname₁, hentered.name]; exact List.mem_cons_self⟩
  · have hhas : HasNode g n := (hentered.births n hhas₁).resolve_right hc
    have hname : (g₁.node n).name = (g.node n).name := ((hs.step_since hstep).node n hhas).name
    have hother : (g.node n).name ≠ head.name := by
      intro heq
      exact hc (hlinked₁.same_name hentered.listed hn₁ ((hname.trans heq).trans hentered.name.symm))
    refine .inr ⟨hc, (hs.step_since hstep).child_before hs.ready.sound.linked hlinked₁ hhas hn₁, ?_⟩
    rw [hname₁, hname, List.mem_cons]
    exact ⟨fun h => h.resolve_left hother, .inr⟩

/-- While the items of a body are merged, the names that the body has declared tell which of the children it has
contributed to. -/
theorem Settled.contributes_iff {b : NodeId} {s₀ : Merge.State} (hs₀ : Settled s₀)
    (hframes : s₀.frames = { node := b } :: fs) (items : List Item) :
    ∀ {g : Graph} {f : Merge.Frame}, Merge.run options s₀ (Edit.ofItems file index items) = .ok ⟨g, f :: fs⟩ →
      ∀ {n}, n ∈ g.children b →
        (Contributes options s₀ file index items n ↔ (g.node n).name ∈ f.children) := by
  obtain ⟨g₀, frames⟩ := s₀
  obtain rfl : frames = { node := b } :: fs := hframes
  -- From the end of the body: an item can take back what those before it have declared, never the other way.
  induction items using List.reverseRecOn with
  | nil =>
    intro g f hrun n _
    obtain ⟨rfl, hframes⟩ := Merge.State.mk.inj (Except.ok.inj hrun)
    obtain ⟨rfl, _⟩ := List.cons.inj hframes
    simp [Contributes]
  | append_singleton items item ih =>
    intro g' f' hrun n hn
    obtain ⟨g, f, hrun₁, hnode, _, _⟩ := items_carry options file index items g₀ { node := b } fs hs₀
    have hs := hs₀.run hrun₁
    have hitem : Merge.run options ⟨g, f :: fs⟩ (Edit.ofItem file index item) = .ok ⟨g', f' :: fs⟩ := by
      rw [edits_of_items_append, run_append hrun₁] at hrun
      simpa [Edit.ofItems] using hrun
    obtain rfl : f.node = b := hnode
    rw [contributes_concat]
    by_cases hplain : ∀ head body, item ≠ .child head body
    · obtain ⟨hmem, hnames⟩ := hs.plain_item hplain hitem hn
      rw [hnames, ← ih hrun₁ hmem]
      refine or_iff_left ?_
      rintro ⟨head, body, _, hchild, _⟩
      exact hplain head body hchild
    · obtain ⟨head, body, rfl⟩ : ∃ head body, item = .child head body := by simpa using hplain
      obtain ⟨s', c, hopen, hc, hcases⟩ := hs.child_item hitem hn
      have hrun' := (run_append hrun₁ [entering file index head]).trans hopen
      have hlast : (∃ head' body' s'', Item.child head body = .child head' body' ∧
          Merge.run options ⟨g₀, { node := f.node } :: fs⟩
            (Edit.ofItems file index items ++ [entering file index head']) = .ok s'' ∧
          innermost? s'' = some n) ↔ n = c := by
        constructor
        · rintro ⟨_, _, s'', ⟨rfl, rfl⟩, hrun'', hn''⟩
          obtain rfl := Except.ok.inj (hrun'.symm.trans hrun'')
          exact Option.some.inj (hn''.symm.trans hc)
        · rintro rfl
          exact ⟨head, body, s', rfl, hrun', hc⟩
      rw [hlast]
      rcases hcases with ⟨rfl, hname⟩ | ⟨hne, hmem, hnames⟩
      · exact iff_of_true (.inr rfl) hname
      · rw [hnames, ← ih hrun₁ hmem]
        exact or_iff_left hne

end Bodies

section Documents

/-- After the edits `before` of a document the body of a fragment or of a child has just been opened, and `items` are
what is written in it. -/
inductive Opens (fragments : List Fragment) : List Edit → FileId → Nat → List Item → Prop
  | root {earlier later : List Fragment} {file : FileId} {labels : List LabelDecl} {items : List Item} {span : Span}
      (h : fragments = earlier ++ ⟨file, .root labels items span⟩ :: later) :
      Opens fragments
        (Edit.ofFragments 0 earlier ++
          [.enterRoot (Edit.marks file labels) (Edit.site file earlier.length span span)])
        file earlier.length items
  | reference {earlier later : List Fragment} {file : FileId} {target : NodeRef} {labels : List LabelDecl}
      {items : List Item} {targetSpan span : Span}
      (h : fragments = earlier ++ ⟨file, .reference target labels items targetSpan span⟩ :: later) :
      Opens fragments
        (Edit.ofFragments 0 earlier ++
          [.enterReference target (Edit.marks file labels) (Edit.site file earlier.length span targetSpan)])
        file earlier.length items
  | child {before : List Edit} {file : FileId} {index : Nat} {earlier later items : List Item} {head : ChildHead}
      (h : Opens fragments before file index (earlier ++ .child head items :: later)) :
      Opens fragments (before ++ (Edit.ofItems file index earlier ++ [entering file index head])) file index items

variable {fragments : List Fragment} {before : List Edit} {file : FileId} {index : Nat}
  {items : List Item}

/-- What is written in a body comes right after it was opened. -/
theorem Opens.edits (h : Opens fragments before file index items) :
    ∃ after, Edit.ofFragments 0 fragments = before ++ (Edit.ofItems file index items ++ after) := by
  induction h with
  | @root earlier later _ _ _ _ h | @reference earlier later _ _ _ _ _ _ h =>
    subst h
    refine ⟨.leave :: Edit.ofFragments (earlier.length + 1) later, ?_⟩
    simp only [edits_append, Edit.ofFragments, Edit.ofFragment, Nat.zero_add, List.append_assoc, List.cons_append,
      List.nil_append]
  | @child before file index earlier later items head _ ih =>
    obtain ⟨after, hafter⟩ := ih
    refine ⟨.leave :: (Edit.ofItems file index later ++ after), hafter.trans ?_⟩
    simp only [edits_of_items_append, Edit.ofItems, Edit.ofItem, entering, List.append_assoc, List.cons_append,
      List.nil_append]

/-- A body that was just opened is open, and nothing is declared in it. -/
theorem Opens.frames (h : Opens fragments before file index items) (config : BuildConfig) :
    ∃ s b fs, Merge.run config.options (Build.start config fragments) before = .ok s ∧ Settled s ∧
      s.frames = { node := b } :: fs := by
  have hstart := start_settled config fragments
  induction h with
  | @root earlier later file labels items span h =>
    obtain ⟨s, hrun, _, _⟩ := run_advances config.options hstart.ready (Edit.ofFragments 0 earlier)
    have hstep : Merge.step config.options s
        (.enterRoot (Edit.marks file labels) (Edit.site file earlier.length span span)) = .ok _ := rfl
    have hopen := (run_append hrun [_]).trans (run_cons hstep [])
    exact ⟨_, _, _, hopen, hstart.run hopen, rfl⟩
  | @reference earlier later file target labels items targetSpan span h =>
    obtain ⟨s, hrun, _, _⟩ := run_advances config.options hstart.ready (Edit.ofFragments 0 earlier)
    have hstep : Merge.step config.options s (.enterReference target (Edit.marks file labels)
        (Edit.site file earlier.length span targetSpan)) = .ok _ := rfl
    have hopen := (run_append hrun [_]).trans (run_cons hstep [])
    exact ⟨_, _, _, hopen, hstart.run hopen, rfl⟩
  | @child before file index earlier later items head h ih =>
    obtain ⟨⟨g, frames⟩, b, fs, hrun, hs, rfl⟩ := ih
    obtain ⟨g', f, hitems, _, _, _⟩ := items_carry config.options file index earlier g _ fs hs
    obtain ⟨g'', c, hstep, _⟩ := (hs.run hitems).enters config.options head.name (Edit.marks file head.labels)
      (Edit.site file index head.span head.nameSpan)
    have hopen := (run_append hrun _).trans ((run_append hitems [entering file index head]).trans (run_cons hstep []))
    exact ⟨_, c, _, hopen, hstart.run hopen, rfl⟩

def repeats (s s' : Merge.State) : List Issue :=
  (s'.graph.issues.drop s.graph.issues.length).filter fun i => decide (i.kind = .duplicateNodeName)

/-- Opening the body of a child tells once that its name is declared already, or not at all. -/
theorem repeats_entering {s s' : Merge.State} {f : Merge.Frame} {fs : List Merge.Frame} {options : BuildOptions}
    {head : ChildHead} (hframes : s.frames = f :: fs)
    (h : Merge.step options s (entering file index head) = .ok s') :
    (repeats s s' = [.ofFault (.duplicateNodeName head.name) ⟨file, head.nameSpan⟩] ∨ repeats s s' = []) ∧
      (repeats s s' ≠ [] ↔ head.name ∈ f.children) := by
  obtain ⟨more, hmore, hkinds⟩ := enter_child_issues hframes h
  have hnone : more.filter (fun i => decide (i.kind = .duplicateNodeName)) = [] := by
    refine List.filter_eq_nil_iff.mpr fun i hi hkind => ?_
    have hlabel := hkinds i hi
    rw [of_decide_eq_true hkind] at hlabel
    simp [labelKinds] at hlabel
  rw [repeats, hmore, List.append_assoc, List.drop_left, List.filter_append, hnone, List.append_nil]
  split
  · rename_i hmem
    exact ⟨.inl rfl, iff_of_true (by simp [Issue.ofFault, Issue.new, Fault.kind]) hmem⟩
  · rename_i hmem
    exact ⟨.inr rfl, iff_of_false (by simp) hmem⟩

/-- A body that is opened anywhere in a document, and a child `head` in it, with `earlier` written before it. The
child is merged into a node `n`. If the node existed, then the child is reported as repeated exactly if a child among
the earlier ones was merged into `n` as well. If the node is new, then it is reported exactly if an earlier child has
its name and no directive between them in the body deletes that one by name. What is reported stays reported. -/
theorem repeated_child_reported (config : BuildConfig) {fragments : List Fragment} {before : List Edit} {file : FileId}
    {index : Nat} {earlier later body : List Item} {head : ChildHead}
    (hopen : Opens fragments before file index (earlier ++ .child head body :: later)) :
    ∃ s₀ s₁ s₂ n,
      Merge.run config.options (Build.start config fragments) before = .ok s₀ ∧
      Merge.run config.options s₀ (Edit.ofItems file index earlier) = .ok s₁ ∧
      Merge.step config.options s₁ (entering file index head) = .ok s₂ ∧ innermost? s₂ = some n ∧
      (repeats s₁ s₂ = [.ofFault (.duplicateNodeName head.name) ⟨file, head.nameSpan⟩] ∨ repeats s₁ s₂ = []) ∧
      (HasNode s₁.graph n → (repeats s₁ s₂ ≠ [] ↔ Contributes config.options s₀ file index earlier n)) ∧
      (¬ HasNode s₁.graph n → (repeats s₁ s₂ ≠ [] ↔ StillDeclared earlier head.name)) ∧
      ∀ isCancelled g, Build.build config fragments isCancelled = .ok g → s₂.graph.issues <+: g.issues := by
  obtain ⟨⟨g₀, frames⟩, b, fs, hrun₀, hs₀, rfl⟩ := hopen.frames config
  obtain ⟨g₁, f, hrun₁, hnode, hnames, _⟩ := items_carry config.options file index earlier g₀ { node := b } fs hs₀
  have hs₁ := hs₀.run hrun₁
  obtain ⟨g₂, n, hstep, hentered⟩ := hs₁.enters config.options head.name (Edit.marks file head.labels)
    (Edit.site file index head.span head.nameSpan)
  have hopened : Merge.step config.options ⟨g₁, f :: fs⟩ (entering file index head) = .ok _ := hstep
  obtain ⟨honce, hreported⟩ := repeats_entering rfl hopened
  refine ⟨_, _, _, n, hrun₀, hrun₁, hstep, rfl, honce, fun hold => ?_, fun _ => ?_, fun isCancelled g hbuild => ?_⟩
  · obtain rfl : f.node = b := hnode
    have hold' := (hs₁.step_since hstep).child_before hs₁.ready.sound.linked
      (hs₁.step hstep).ready.sound.linked hold hentered.listed
    have hname : (g₁.node n).name = head.name :=
      ((hs₁.step_since hstep).node n hold).name.symm.trans hentered.name
    rw [hreported, hs₀.contributes_iff rfl earlier hrun₁ hold', hname]
  · rw [hreported, hnames]
    exact mem_declaredBy earlier head.name
  · obtain ⟨after, hedits⟩ := hopen.edits
    obtain ⟨s, hall, _, _, rfl⟩ := built_of_run hbuild
    have hrest : Merge.run config.options ⟨g₁, f :: fs⟩ (entering file index head ::
        (Edit.ofItems file index body ++ .leave :: (Edit.ofItems file index later ++ after))) = .ok s := by
      rw [← hall, hedits, run_append hrun₀, edits_of_items_append, List.append_assoc, run_append hrun₁]
      simp [Edit.ofItems, Edit.ofItem, entering]
    rw [run_cons hopened] at hrest
    exact (run_reports hrest).extends.trans (reports_finish s.graph config.options).extends

/-- What can be checked of the states before and after the last of some edits. -/
theorem exists_stages {options : BuildOptions} {s : Merge.State} {opening earlier : List Edit} {e : Edit}
    {p : Merge.State → Merge.State → Prop} [∀ s₁ s₂, Decidable (p s₁ s₂)]
    (h : (do
      let s₀ ← Merge.run options s opening
      let s₁ ← Merge.run options s₀ earlier
      let s₂ ← Merge.step options s₁ e
      return decide (p s₁ s₂)).toOption = some true) :
    ∃ s₀ s₁ s₂, Merge.run options s opening = .ok s₀ ∧ Merge.run options s₀ earlier = .ok s₁ ∧
      Merge.step options s₁ e = .ok s₂ ∧ p s₁ s₂ := by
  cases h₀ : Merge.run options s opening with
  | error =>
    rw [h₀] at h
    cases h
  | ok s₀ =>
    cases h₁ : Merge.run options s₀ earlier with
    | error =>
      simp only [h₀, h₁, bind, Except.bind] at h
      cases h
    | ok s₁ =>
      cases h₂ : Merge.step options s₁ e with
      | error =>
        simp only [h₀, h₁, h₂, bind, Except.bind] at h
        cases h
      | ok s₂ =>
        simp only [h₀, h₁, h₂, bind, Except.bind] at h
        exact ⟨s₀, s₁, s₂, rfl, h₁, h₂, of_decide_eq_true (Option.some.inj h)⟩

def buses : List Item := [.child { name := { name := "uart" } } [], .child { name := { name := "spi" } } []]

def redeclared : List Fragment :=
  [⟨⟨0⟩, .root [] [.child { name := { name := "soc" } }
    (buses ++ [.child { name := { name := "uart" }, nameSpan := ⟨⟨4, 2⟩, ⟨4, 6⟩⟩ } []])] {}⟩]

/-- The child is merged into the node of its first declaration, and reported. -/
theorem repeated_child_reported_redeclared :
    ∃ s₀ s₁ s₂,
      Merge.run {} (Build.start {} redeclared)
        [.enterRoot [] (Edit.site ⟨0⟩ 0 {} {}), entering ⟨0⟩ 0 { name := { name := "soc" } }] = .ok s₀ ∧
      Merge.run {} s₀ (Edit.ofItems ⟨0⟩ 0 buses) = .ok s₁ ∧
      Merge.step {} s₁ (entering ⟨0⟩ 0 { name := { name := "uart" }, nameSpan := ⟨⟨4, 2⟩, ⟨4, 6⟩⟩ }) = .ok s₂ ∧
      innermost? s₂ = some ⟨2⟩ ∧ repeats s₁ s₂ ≠ [] ∧ Contributes {} s₀ ⟨0⟩ 0 buses ⟨2⟩ := by
  have hroot : Opens redeclared _ ⟨0⟩ 0 ([] ++ .child _ _ :: []) :=
    .root (show redeclared = [] ++ ⟨_, .root _ _ _⟩ :: [] from rfl)
  obtain ⟨s₀, s₁, s₂, n, h₀, h₁, h₂, hn, _, hexisting, _⟩ :=
    repeated_child_reported {} (show Opens redeclared _ ⟨0⟩ 0 (buses ++ .child _ _ :: []) from hroot.child)
  obtain ⟨t₀, t₁, t₂, ht₀, ht₁, ht₂, hn', hsize, hrepeats⟩ : ∃ s₀ s₁ s₂,
      Merge.run {} (Build.start {} redeclared)
        [.enterRoot [] (Edit.site ⟨0⟩ 0 {} {}), entering ⟨0⟩ 0 { name := { name := "soc" } }] = .ok s₀ ∧
      Merge.run {} s₀ (Edit.ofItems ⟨0⟩ 0 buses) = .ok s₁ ∧
      Merge.step {} s₁ (entering ⟨0⟩ 0 { name := { name := "uart" }, nameSpan := ⟨⟨4, 2⟩, ⟨4, 6⟩⟩ }) = .ok s₂ ∧
      innermost? s₂ = some ⟨2⟩ ∧ 2 < s₁.graph.nodes.size ∧ repeats s₁ s₂ ≠ [] := exists_stages (by decide +kernel)
  obtain rfl := Except.ok.inj (h₀.symm.trans ht₀)
  obtain rfl := Except.ok.inj (h₁.symm.trans ht₁)
  obtain rfl := Except.ok.inj (h₂.symm.trans ht₂)
  obtain rfl := Option.some.inj (hn.symm.trans hn')
  exact ⟨s₀, s₁, s₂, ht₀, h₁, h₂, hn, hrepeats, (hexisting hsize).mp hrepeats⟩

def withdrawnByLabel : List Item :=
  [.child { name := { name := "uart" }, labels := [{ name := "console" }] } [],
    .deleteNode { target := .ref (.label "console") }]

def revived : List Fragment :=
  [⟨⟨0⟩, .root [] (withdrawnByLabel ++ [.child { name := { name := "uart" } } []]) {}⟩]

/-- Declared anew in the same body, the child makes a new node, and is reported as repeated all the same. -/
theorem repeated_child_reported_revived :
    Opens revived [.enterRoot [] (Edit.site ⟨0⟩ 0 {} {})] ⟨0⟩ 0
      (withdrawnByLabel ++ [.child { name := { name := "uart" } } []]) ∧
    ∃ s₀ s₁ s₂,
      Merge.run {} (Build.start {} revived) [.enterRoot [] (Edit.site ⟨0⟩ 0 {} {})] = .ok s₀ ∧
      Merge.run {} s₀ (Edit.ofItems ⟨0⟩ 0 withdrawnByLabel) = .ok s₁ ∧
      Merge.step {} s₁ (entering ⟨0⟩ 0 { name := { name := "uart" } }) = .ok s₂ ∧
      innermost? s₂ = some ⟨2⟩ ∧ s₁.graph.nodes.size = 2 ∧
      repeats s₁ s₂ = [.ofFault (.duplicateNodeName { name := "uart" }) ⟨⟨0⟩, {}⟩] :=
  ⟨.root (show revived = [] ++ ⟨_, .root _ _ _⟩ :: [] from rfl), exists_stages (by decide +kernel)⟩

end Documents

end Devicetree.Proofs
