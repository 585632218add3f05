import Devicetree.Proofs.Ledger
import Devicetree.Proofs.LiveTree

namespace Devicetree.Proofs

/-- The way from `g` to `g'` changes the tree at `n`, by `change`, and nothing outside it. -/
structure Reshapes (g g' : Graph) (n : NodeId) (change : Tree → Tree) : Prop where
  sound : Sound g'
  within : Within g g' n
  tree : liveTree g' n = change (liveTree g n)

theorem Reshapes.trans {g g' g'' : Graph} {n : NodeId} {f h : Tree → Tree} (hs : Sound g)
    (hf : Reshapes g g' n f) (hh : Reshapes g' g'' n h) : Reshapes g g'' n fun t => h (f t) :=
  ⟨hh.sound, hf.within.trans hs.bounded hh.within, hh.tree.trans (congrArg h hf.tree)⟩

section Quiet

structure Outline where
  name : NodeName
  parent : Option NodeId
  children : List NodeId
  properties : Table String PropertyId

def Outline.of (n : Node) : Outline := ⟨n.name, n.parent, n.children, n.properties⟩

structure Quiet (g g' : Graph) : Prop where
  size : g'.nodes.size = g.nodes.size
  properties : g'.properties = g.properties
  outline : ∀ n, Outline.of (g'.node n) = Outline.of (g.node n)

theorem Quiet.refl (g : Graph) : Quiet g g := ⟨rfl, rfl, fun _ => rfl⟩

theorem Quiet.trans {g g' g'' : Graph} (h : Quiet g g') (h' : Quiet g' g'') : Quiet g g'' :=
  ⟨h'.size.trans h.size, h'.properties.trans h.properties,
    fun n => (h'.outline n).trans (h.outline n)⟩

theorem Quiet.name {g g' : Graph} (h : Quiet g g') (n : NodeId) :
    (g'.node n).name = (g.node n).name :=
  congrArg Outline.name (h.outline n)

theorem Quiet.children {g g' : Graph} (h : Quiet g g') (n : NodeId) : g'.children n = g.children n :=
  congrArg Outline.children (h.outline n)

theorem Quiet.shown {g g' : Graph} (h : Quiet g g') (n : NodeId) : shown g' n = shown g n := by
  have htable : (g'.node n).properties = (g.node n).properties :=
    congrArg Outline.properties (h.outline n)
  simp [Proofs.shown, htable, Graph.property, h.properties]

theorem Quiet.facet {g g' : Graph} (h : Quiet g g') (n : NodeId) : facet g' n = facet g n := by
  rw [Proofs.facet, h.name, h.shown, h.children]
  rfl

theorem Quiet.live_tree {g g' : Graph} (h : Quiet g g') (hs : Sound g) (hs' : Sound g') (n : NodeId) :
    liveTree g' n = liveTree g n :=
  hs.live_tree_congr hs' n fun m _ => h.facet m

/-- An update of a node that its tree does not show. -/
theorem quiet_modifyNode (g : Graph) (id : NodeId) (f : Node → Node)
    (hf : ∀ n, Outline.of (f n) = Outline.of n) : Quiet g (g.modifyNode id f) :=
  ⟨by simp, rfl, view_modifyNode g Outline.of id f hf⟩

theorem quiet_report (g : Graph) (issue : Issue) : Quiet g (g.report issue) := ⟨rfl, rfl, fun _ => rfl⟩

theorem quiet_report_if (g : Graph) (p : Prop) [Decidable p] (issue : Issue) :
    Quiet g (if p then g.report issue else g) := by
  split
  · exact quiet_report g issue
  · exact .refl g

theorem quiet_reportDeleted (g : Graph) (options : BuildOptions) (what : String) (directive : Location)
    (locations : List Location) : Quiet g (g.reportDeleted options what directive locations) := by
  unfold Graph.reportDeleted
  split
  · exact ⟨rfl, rfl, fun _ => rfl⟩
  · exact .refl g

theorem quiet_addDefinition (g : Graph) (id : NodeId) (kind : DefinitionKind) (site : Site) :
    Quiet g (g.addDefinition id kind site) :=
  quiet_modifyNode g id _ fun _ => rfl

theorem quiet_addDirective (g : Graph) (x : Directive) : Quiet g (g.addDirective x) :=
  ⟨by simp, by simp, view_addDirective g Outline.of x fun _ _ => rfl⟩

theorem quiet_addLabel (g : Graph) (id : NodeId) (m : LabelMark) : Quiet g (g.addLabel id m) :=
  quiet_modifyNode g id _ fun _ => rfl

theorem quiet_attachLabel (fromReference : Bool) (id : NodeId) (g : Graph) (m : LabelMark) :
    Quiet g (Graph.attachLabel fromReference id g m) := by
  have hbind : Quiet g (g.bindLabel id m) := ⟨rfl, rfl, fun _ => rfl⟩
  unfold Graph.attachLabel
  split
  · exact hbind.trans (quiet_addLabel _ id m)
  · split
    · cases fromReference with
      | true => exact quiet_addLabel g id m
      | false => exact (quiet_report g _).trans (quiet_addLabel _ id m)
    · split
      · exact quiet_report g _
      · exact hbind.trans (quiet_addLabel _ id m)

theorem quiet_attachLabels (g : Graph) (id : NodeId) (labels : List LabelMark) (fromReference : Bool) :
    Quiet g (g.attachLabels id labels fromReference) := by
  unfold Graph.attachLabels
  induction labels generalizing g with
  | nil => exact .refl g
  | cons m ms ih => exact (quiet_attachLabel fromReference id g m).trans (ih _)

end Quiet

section Touch

/-- The tree shows a change of the node `n` itself, and of no other. -/
structure Touches (g g' : Graph) (n : NodeId) : Prop where
  has : ∀ m, HasNode g m → HasNode g' m
  parent : ∀ m, HasNode g m → g'.parent? m = g.parent? m
  facet : ∀ m, HasNode g m → m ≠ n → facet g' m = facet g m
  name : (g'.node n).name = (g.node n).name

theorem Quiet.touches {g g' : Graph} (h : Quiet g g') (n : NodeId) : Touches g g' n := by
  refine ⟨?_, ?_, fun m _ _ => h.facet m, h.name n⟩
  · intro m hm
    simpa [HasNode, h.size] using hm
  · intro m _
    exact congrArg Outline.parent (h.outline m)

theorem Touches.trans {g g' g'' : Graph} {n : NodeId} (h : Touches g g' n) (h' : Touches g' g'' n) :
    Touches g g'' n :=
  ⟨fun m hm => h'.has m (h.has m hm),
    fun m hm => (h'.parent m (h.has m hm)).trans (h.parent m hm),
    fun m hm hne => (h'.facet m (h.has m hm) hne).trans (h.facet m hm hne),
    h'.name.trans h.name⟩

theorem Touches.within {g g' : Graph} {n : NodeId} (h : Touches g g' n) : Within g g' n := by
  refine ⟨h.has, h.parent, ?_⟩
  intro m hm hn
  refine h.facet m hm ?_
  rintro rfl
  exact hn .self

/-- Where no child is new, the tree afterwards has the trees of the children as they were before. -/
theorem Touches.reshapes {g g' : Graph} {n : NodeId} {change : Tree → Tree} (h : Touches g g' n)
    (hs : Sound g) (hs' : Sound g') (hc : ∀ c ∈ g'.children n, c ∈ g.children n)
    (ht : .node (g.node n).name (shown g' n) ((g'.children n).map (liveTree g)) = change (liveTree g n)) :
    Reshapes g g' n change := by
  refine ⟨hs', h.within, ?_⟩
  have hmap : (g'.children n).map (liveTree g') = (g'.children n).map (liveTree g) := by
    apply List.map_congr_left
    intro c hm
    exact hs.child_tree hs' h.facet (hc c hm)
  rw [← ht, hs'.live_tree, h.name, hmap]

theorem Quiet.reshapes {g g' : Graph} (h : Quiet g g') (hs : Sound g) (hs' : Sound g') (n : NodeId) :
    Reshapes g g' n id :=
  ⟨hs', (h.touches n).within, h.live_tree hs hs' n⟩

/-- Properties show the same where neither the table nor the values in it change. -/
theorem shown_congr {g g' : Graph} (hb : Bounded g) {m : NodeId}
    (htable : (g'.node m).properties = (g.node m).properties)
    (hvalues : ∀ p, HasProperty g p → (g'.property p).values = (g.property p).values) :
    shown g' m = shown g m := by
  unfold shown
  rw [htable]
  apply List.map_congr_left
  intro e he
  rw [hvalues e.2 ((hb.node m).properties e he)]

end Touch

section Write
variable {g : Graph} {n : NodeId} (name : String) (values : List Value) (labels : List LabelMark)
  (site : Site)

theorem values_setProperty (hb : Bounded g) (p : PropertyId) (hp : HasProperty g p) :
    ((g.setProperty n name values labels site).property p).values = (g.property p).values :=
  view_property_setProperty name values labels site Property.values (fun _ _ => rfl) hb hp.ne_next

theorem shown_setProperty (hl : Ledger g) (hb : Bounded g) (hn : HasNode g n) :
    shown (g.setProperty n name values labels site) n =
      if (shown g n).any fun e => decide (e.1 = name) then
        (shown g n).map fun e => if e.1 = name then (name, values) else e
      else shown g n ++ [(name, values)] := by
  have hnew : ((g.setProperty n name values labels site).property g.nextProperty).values = values := by
    rw [property_setProperty g n name values labels site (fun p hp => hb.live_property hp), if_pos rfl]
  have hold : ∀ e ∈ (g.node n).properties.entries,
      ((g.setProperty n name values labels site).property e.2).values = (g.property e.2).values :=
    fun e he => values_setProperty name values labels site hb e.2 ((hb.node n).properties e he)
  have hentries : ((g.setProperty n name values labels site).node n).properties.entries =
      Table.put name g.nextProperty (g.node n).properties.entries := by
    rw [node_setProperty g n name values labels site hn, if_pos rfl]
    rfl
  have hany : (shown g n).any (fun e => decide (e.1 = name)) =
      (g.node n).properties.entries.any fun e => decide (e.1 = name) := by
    rw [shown, List.any_map]
    rfl
  rw [shown, hentries, Table.put_eq (hl.keys n), hany]
  split
  · rw [shown, List.map_map, List.map_map]
    apply List.map_congr_left
    intro e he
    by_cases hk : e.1 = name
    · simp [hk, hnew]
    · simp [hk, hold e he]
  · rw [List.map_append, List.map_singleton, hnew, shown]
    congr 1
    apply List.map_congr_left
    intro e he
    rw [hold e he]

/-- Declaring a property writes it. -/
theorem Sound.write_reshapes (hs : Sound g) (hl : Ledger g) (hn : HasNode g n) :
    Reshapes g (g.setProperty n name values labels site) n (Tree.write name values) := by
  have hview {α : Type} (view : Node → α)
      (hv : ∀ n ps hs, view { n with properties := ps, history := hs } = view n) (m : NodeId) :
      view ((g.setProperty n name values labels site).node m) = view (g.node m) :=
    view_setProperty g n name values labels site view hn hv m
  have htouch : Touches g (g.setProperty n name values labels site) n := by
    refine ⟨?_, ?_, ?_, ?_⟩
    · intro m hm
      simpa [HasNode] using hm
    · intro m _
      exact hview Node.parent (fun _ _ _ => rfl) m
    · intro m _ hne
      have he : (g.setProperty n name values labels site).node m = g.node m := by
        rw [node_setProperty g n name values labels site hn, if_neg hne]
      have hshown := shown_congr hs.bounded (congrArg Node.properties he)
        (values_setProperty name values labels site hs.bounded)
      simp [facet, Graph.children, he, hshown]
    · exact hview Node.name (fun _ _ _ => rfl) n
  have hchildren : (g.setProperty n name values labels site).children n = g.children n :=
    hview Node.children (fun _ _ _ => rfl) n
  refine htouch.reshapes hs (hs.change (.property g n name values labels site hn))
    (fun c hc => hchildren ▸ hc) ?_
  rw [hchildren, hs.live_tree, shown_setProperty name values labels site hl hs.bounded hn]
  rfl

end Write

section Erase
variable {g : Graph} {n : NodeId} {p : PropertyId} (name : String) (d : DirectiveId)

theorem values_dropProperty (hp : HasProperty g p) (q : PropertyId) :
    ((g.dropProperty n name p d).property q).values = (g.property q).values :=
  view_property_dropProperty Property.values (fun _ _ => rfl) n name d hp q

theorem touches_dropProperty (hn : HasNode g n) (hp : HasProperty g p) :
    Touches g (g.dropProperty n name p d) n := by
  have hnode := node_dropProperty g name p d hn
  refine ⟨?_, ?_, ?_, ?_⟩
  · intro m hm
    simpa [HasNode, Graph.dropProperty, Graph.modifyProperty] using hm
  · intro m _
    simp only [Graph.parent?, hnode, apply_ite Node.parent, ite_self]
  · intro m _ hne
    have he : (g.dropProperty n name p d).node m = g.node m := by rw [hnode, if_neg hne]
    simp only [facet, shown, Graph.children, he, values_dropProperty name d hp]
  · simp only [hnode, apply_ite Node.name, ite_self]

theorem shown_dropProperty (hn : HasNode g n) (hp : HasProperty g p) :
    shown (g.dropProperty n name p d) n = (shown g n).filter fun e => !decide (e.1 = name) := by
  have hentries : ((g.dropProperty n name p d).node n).properties.entries =
      (g.node n).properties.entries.filter fun e => !decide (e.1 = name) := by
    rw [node_dropProperty g name p d hn, if_pos rfl]
    rfl
  simp only [shown, hentries, values_dropProperty name d hp, List.filter_map]
  rfl

theorem children_dropProperty (hn : HasNode g n) (m : NodeId) :
    (g.dropProperty n name p d).children m = g.children m := by
  simp only [Graph.children, node_dropProperty g name p d hn, apply_ite Node.children, ite_self]

/-- Deleting a property does one of two things that a tree can show. -/
theorem delete_property_cases (g : Graph) (options : BuildOptions) (n : NodeId) (name : String)
    (site : Site) :
    (g.liveProperty? n name = none ∧ Quiet g (g.deleteProperty options n name site)) ∨
      ∃ p g₁ d, g.liveProperty? n name = some p ∧ Quiet g g₁ ∧
        Quiet (g₁.dropProperty n name p d) (g.deleteProperty options n name site) := by
  unfold Graph.deleteProperty
  cases hlive : g.liveProperty? n name with
  | none => exact Or.inl ⟨rfl, (quiet_addDirective g _).trans (quiet_report _ _)⟩
  | some p =>
    exact Or.inr ⟨p, _, g.nextDirective, rfl, quiet_addDirective g _, quiet_reportDeleted _ _ _ _ _⟩

/-- Deleting a property erases it; one that is not there is erased already. -/
theorem Sound.erase_reshapes (hs : Sound g) (hn : HasNode g n) (options : BuildOptions) (site : Site) :
    Reshapes g (g.deleteProperty options n name site) n (Tree.erase name) := by
  have hs' := hs.changes (delete_property_changes hs.bounded options hn name site)
  rcases delete_property_cases g options n name site with
    ⟨hnone, hq⟩ | ⟨p, g₁, d, hlive, hq₁, hq₂⟩
  · have habsent : (shown g n).filter (fun e => !decide (e.1 = name)) = shown g n := by
      apply List.filter_eq_self.mpr
      intro e he
      obtain ⟨x, hx, rfl⟩ := List.mem_map.mp he
      simpa using Table.ne_of_find_none hnone x hx
    refine ⟨hs', (hq.touches n).within, ?_⟩
    rw [hq.live_tree hs hs', hs.live_tree, Tree.erase, habsent]
  · have hn₁ : HasNode g₁ n := by simpa [HasNode, hq₁.size] using hn
    have hp₁ : HasProperty g₁ p := by
      simpa [HasProperty, hq₁.properties] using hs.bounded.live_property hlive
    have hchildren : (g.deleteProperty options n name site).children n = g.children n :=
      ((hq₂.children n).trans (children_dropProperty name d hn₁ n)).trans (hq₁.children n)
    have hshown : shown (g.deleteProperty options n name site) n =
        (shown g n).filter fun e => !decide (e.1 = name) := by
      rw [hq₂.shown, shown_dropProperty name d hn₁ hp₁, hq₁.shown]
    have htouch := ((hq₁.touches n).trans (touches_dropProperty name d hn₁ hp₁)).trans (hq₂.touches n)
    refine htouch.reshapes hs hs' (fun c hc => hchildren ▸ hc) ?_
    rw [hchildren, hs.live_tree, hshown, Tree.erase]

end Erase

section Remove
variable {g : Graph} {n c : NodeId} (d : DirectiveId)

theorem shown_dropChild (g : Graph) (n c : NodeId) (d : DirectiveId) (m : NodeId) :
    shown (g.dropChild n c d) m = shown g m := by
  have htable := view_dropChild g Node.properties (fun _ _ _ => rfl) (fun _ _ => rfl) n c d m
  rw [shown, htable]
  rfl

theorem touches_dropChild (hp : HasNode g n) (hc : HasNode g c) (hne : n ≠ c) :
    Touches g (g.dropChild n c d) n := by
  refine ⟨?_, ?_, ?_, name_dropChild d g n c n⟩
  · intro m hm
    simpa [HasNode] using hm
  · intro m _
    exact parent_dropChild d g n c m
  · intro m _ hm
    rw [facet, name_dropChild, shown_dropChild, children_dropChild d hp hc hne, if_neg hm]
    rfl

/-- Deleting a child by name does one of two things that a tree can show. -/
theorem Sound.delete_child_cases (hs : Sound g) (options : BuildOptions) (n : NodeId) (wanted : NodeName)
    (site : Site) :
    ∃ g', g.deleteNode options (some n) (.name wanted) site = .ok g' ∧
      ((g.childByName? n wanted true = none ∧ Quiet g g') ∨
        ∃ c g₁ d, g.childByName? n wanted true = some c ∧ Quiet g g₁ ∧
          Quiet (g₁.dropChild n c d) g') := by
  unfold Graph.deleteNode
  rw [hs.linked.deletion_target_child]
  cases hfound : g.childByName? n wanted true with
  | none => exact ⟨_, rfl, Or.inl ⟨rfl, (quiet_addDirective g _).trans (quiet_report _ _)⟩⟩
  | some c =>
    have hc := child_by_name_mem hfound
    simp only [Graph.detach, parent_addDirective, children_addDirective, hs.linked.child n c hc, if_pos hc]
    exact ⟨_, rfl, Or.inr ⟨c, _, g.nextDirective, rfl, quiet_addDirective g _,
      quiet_reportDeleted _ _ _ _ _⟩⟩

/-- Deleting a child by name removes it; one that is not there is removed already. -/
theorem Sound.remove_reshapes (hs : Sound g) (hn : HasNode g n) (options : BuildOptions)
    (wanted : NodeName) (site : Site) :
    ∃ g', g.deleteNode options (some n) (.name wanted) site = .ok g' ∧
      Reshapes g g' n (Tree.remove wanted) := by
  obtain ⟨g', hok, hcases⟩ := hs.delete_child_cases options n wanted site
  have hscope : ∀ m, some n = some m → HasNode g m := fun m hm => Option.some.inj hm ▸ hn
  obtain ⟨_, hok', hc⟩ := delete_node_changes hs options hscope (.name wanted) site
  obtain rfl := Except.ok.inj (hok.symm.trans hok')
  have hs' := hs.changes hc
  refine ⟨g', hok, ?_⟩
  rcases hcases with ⟨hnone, hq⟩ | ⟨c, g₁, d, hfound, hq₁, hq₂⟩
  · have habsent : ((g.children n).map (liveTree g)).filter (fun t => !decide (t.name = wanted)) =
        (g.children n).map (liveTree g) := by
      apply List.filter_eq_self.mpr
      intro t ht
      obtain ⟨x, hx, rfl⟩ := List.mem_map.mp ht
      simpa [name_liveTree] using pick_none hnone x hx
    refine ⟨hs', (hq.touches n).within, ?_⟩
    rw [hq.live_tree hs hs', hs.live_tree, Tree.remove, habsent]
  · have hmem := child_by_name_mem hfound
    have hname := child_by_name_strict hfound
    have hne : n ≠ c := by
      rintro rfl
      exact hs.linked.not_above_parent hmem .self
    have hn₁ : HasNode g₁ n := by simpa [HasNode, hq₁.size] using hn
    have hc₁ : HasNode g₁ c := by
      simpa [HasNode, hq₁.size] using (hs.bounded.node n).children c hmem
    have hchildren : g'.children n = (g.children n).erase c := by
      rw [hq₂.children, children_dropChild d hn₁ hc₁ hne, if_pos rfl, hq₁.children]
    have hshown : shown g' n = shown g n := by
      rw [hq₂.shown, shown_dropChild, hq₁.shown]
    have htouch := ((hq₁.touches n).trans (touches_dropChild d hn₁ hc₁ hne)).trans (hq₂.touches n)
    refine htouch.reshapes hs hs' (fun x hx => List.mem_of_mem_erase (hchildren ▸ hx)) ?_
    rw [hchildren, hshown, hs.live_tree, Tree.remove, (hs.linked.nodup n).erase_eq_filter,
      List.filter_map]
    congr 2
    apply List.filter_congr
    intro x hx
    by_cases he : x = c
    · simp [he, name_liveTree, hname]
    · have hother : (g.node x).name ≠ wanted := fun h =>
        he (hs.linked.same_name hmem hx (h.trans hname.symm))
      simp [he, name_liveTree, hother]

end Remove

section Child
variable {g : Graph} {n : NodeId}

theorem touches_addChild (wanted : NodeName) (hn : HasNode g n) : Touches g (g.addChild wanted n) n := by
  refine ⟨?_, ?_, ?_, ?_⟩
  · intro m hm
    simpa [HasNode] using Nat.lt_succ_of_lt hm
  · intro m hm
    rw [parent_addChild wanted hn, if_neg hm.ne_next]
  · intro m hm hne
    have he : (g.addChild wanted n).node m = g.node m := by
      rw [node_addChild g wanted hn, if_neg hm.ne_next, if_neg hne]
    simp only [facet, shown, Graph.children, he]
    rfl
  · rw [name_addChild wanted hn, if_neg hn.ne_next]

/-- A new child stands behind the others, without properties and children. -/
theorem Sound.add_child_reshapes (hs : Sound g) (hn : HasNode g n) {wanted : NodeName}
    (fresh : ∀ c ∈ g.children n, (g.node c).name ≠ wanted) :
    Reshapes g (g.addChild wanted n) n (Tree.merge wanted id) := by
  have hs' := hs.change (.child g wanted n hn fresh)
  have htouch := touches_addChild wanted hn
  have hnode := node_addChild g wanted hn
  have hshown : shown (g.addChild wanted n) n = shown g n := by
    have htable : ((g.addChild wanted n).node n).properties = (g.node n).properties := by
      rw [hnode, if_neg hn.ne_next, if_pos rfl]
    rw [shown, htable]
    rfl
  have hchildren : (g.addChild wanted n).children n = g.children n ++ [g.nextNode] := by
    rw [children_addChild wanted hn, if_neg hn.ne_next, if_pos rfl]
  have hnew : liveTree (g.addChild wanted n) g.nextNode = .leaf wanted := by
    rw [hs'.live_tree, shown, Graph.children, hnode, if_pos rfl]
    rfl
  have hold : (g.children n).map (liveTree (g.addChild wanted n)) = (g.children n).map (liveTree g) := by
    apply List.map_congr_left
    intro c hc
    exact hs.child_tree hs' htouch.facet hc
  have hnone : ((g.children n).map (liveTree g)).any (fun t => decide (t.name = wanted)) = false := by
    simpa [name_liveTree] using fresh
  refine ⟨hs', htouch.within, ?_⟩
  rw [hs'.live_tree, htouch.name, hshown, hchildren, List.map_append, hold, List.map_singleton, hnew,
    hs.live_tree, Tree.merge, hnone]
  rfl

/-- What is done to the tree of a child is merged into the tree of its parent. -/
theorem Reshapes.of_child {g' : Graph} {c : NodeId} {change : Tree → Tree} (hs : Sound g)
    (h : Reshapes g g' c change) (hn : HasNode g n) (hc : c ∈ g.children n) :
    Reshapes g g' n (Tree.merge (g.node c).name change) := by
  refine ⟨h.sound, h.within.of_child (hs.linked.child n c hc), ?_⟩
  have hany : ((g.children n).map (liveTree g)).any (fun t => decide (t.name = (g.node c).name)) = true := by
    simpa [name_liveTree] using ⟨c, hc, rfl⟩
  rw [h.within.parent_tree hs h.sound hn hc, hs.live_tree, Tree.merge, hany, if_pos rfl, List.map_map]
  congr 1
  apply List.map_congr_left
  intro x hx
  by_cases he : x = c
  · simp [he, name_liveTree, h.tree]
  · have hother : (g.node x).name ≠ (g.node c).name := fun hsame =>
      he (hs.linked.same_name hc hx hsame)
    simp [he, name_liveTree, hother]

/-- The child that is looked for is there afterwards, and it is the only one that may be new. -/
theorem Sound.ensure_child_reshapes (hs : Sound g) (hn : HasNode g n) (wanted : NodeName) :
    Reshapes g (g.ensureChild n wanted).1 n (Tree.merge wanted id) ∧
      (g.ensureChild n wanted).2 ∈ (g.ensureChild n wanted).1.children n ∧
      ((g.ensureChild n wanted).1.node (g.ensureChild n wanted).2).name = wanted := by
  unfold Graph.ensureChild
  split
  · rename_i c hfound
    have hmem := child_by_name_mem hfound
    have hname := child_by_name_strict hfound
    have hself := ((Quiet.refl g).reshapes hs hs c).of_child hs hn hmem
    exact ⟨hname ▸ hself, hmem, hname⟩
  · rename_i hnone
    refine ⟨hs.add_child_reshapes hn (pick_none hnone), ?_, ?_⟩
    · rw [children_addChild wanted hn, if_neg hn.ne_next, if_pos rfl]
      exact List.mem_append_right _ (List.mem_singleton.mpr rfl)
    · rw [name_addChild wanted hn, if_pos rfl]

end Child

end Devicetree.Proofs
