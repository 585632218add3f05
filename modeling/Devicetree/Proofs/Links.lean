import Devicetree.Proofs.Change
import Mathlib.Data.List.Nodup

namespace Devicetree.Proofs

/-- The links of a graph are those of a forest: a node without a parent is the root or stands in for a
reference to nowhere, and every other node is listed once with an older parent. -/
structure Linked (g : Graph) : Prop where
  top : ∀ id, HasNode g id → (g.parent? id = none ↔ id = Graph.root ∨ id ∈ g.orphans)
  top_kept : ∀ id, g.parent? id = none → (g.node id).deletedBy = none
  older : ∀ id parent, g.parent? id = some parent → parent.index < id.index
  kept : ∀ id parent, g.parent? id = some parent → (g.node id).deletedBy = none →
    (g.children parent).count id = 1 ∧ ∀ r ∈ (g.node parent).deletedChildren, r.node ≠ id
  deleted : ∀ id parent d, g.parent? id = some parent → (g.node id).deletedBy = some d →
    id ∉ g.children parent ∧
      (g.node parent).deletedChildren.filter (fun r => decide (r.node = id)) = [⟨id, d⟩] ∧
      (g.directive d).removed = some (.node id)
  child : ∀ parent, ∀ c ∈ g.children parent, g.parent? c = some parent
  distinct : ∀ parent, ((g.children parent).map fun c => (g.node c).name).Nodup

theorem Linked.nodup {g : Graph} (hl : Linked g) (parent : NodeId) : (g.children parent).Nodup :=
  (hl.distinct parent).of_map _

theorem Linked.mem_children {g : Graph} (hl : Linked g) {id parent : NodeId}
    (hp : g.parent? id = some parent) (hk : (g.node id).deletedBy = none) : id ∈ g.children parent := by
  apply List.count_pos_iff.mp
  rw [(hl.kept id parent hp hk).1]
  exact Nat.one_pos

/-- A child that is still listed as such is not deleted. -/
theorem Linked.child_kept {g : Graph} (hl : Linked g) {id parent : NodeId}
    (hc : id ∈ g.children parent) : (g.node id).deletedBy = none := by
  have hp := hl.child parent id hc
  cases hd : (g.node id).deletedBy with
  | none => rfl
  | some d => exact absurd hc (hl.deleted id parent d hp hd).1

/-- A child is known by its name. -/
theorem Linked.same_name {g : Graph} (hl : Linked g) {parent c d : NodeId} (hc : c ∈ g.children parent)
    (hd : d ∈ g.children parent) (h : (g.node d).name = (g.node c).name) : d = c :=
  List.inj_on_of_nodup_map (hl.distinct parent) hd hc h

structure Place where
  name : NodeName
  parent : Option NodeId
  children : List NodeId
  deletedChildren : List DeletedChild
  deletedBy : Option DirectiveId

def Place.of (n : Node) : Place := ⟨n.name, n.parent, n.children, n.deletedChildren, n.deletedBy⟩

/-- A change that leaves every node in its place leaves the links as they are. -/
theorem Linked.congr {g g' : Graph} (hl : Linked g) (hb : Bounded g)
    (size : g'.nodes.size = g.nodes.size) (orphans : g'.orphans = g.orphans)
    (place : ∀ n, Place.of (g'.node n) = Place.of (g.node n))
    (removed : ∀ d, HasDirective g d → (g'.directive d).removed = (g.directive d).removed) :
    Linked g' := by
  have hname : ∀ n, (g'.node n).name = (g.node n).name := fun n => congrArg Place.name (place n)
  have hparent : ∀ n, g'.parent? n = g.parent? n := fun n => congrArg Place.parent (place n)
  have hchildren : ∀ n, g'.children n = g.children n := fun n => congrArg Place.children (place n)
  have hrecords : ∀ n, (g'.node n).deletedChildren = (g.node n).deletedChildren :=
    fun n => congrArg Place.deletedChildren (place n)
  have hdeleted : ∀ n, (g'.node n).deletedBy = (g.node n).deletedBy :=
    fun n => congrArg Place.deletedBy (place n)
  refine ⟨?_, ?_, ?_, ?_, ?_, ?_, ?_⟩
  · simpa only [HasNode, size, hparent, orphans] using hl.top
  · simpa only [hparent, hdeleted] using hl.top_kept
  · simpa only [hparent] using hl.older
  · simpa only [hparent, hdeleted, hchildren, hrecords] using hl.kept
  · intro id parent d hp hd
    rw [hparent] at hp
    rw [hdeleted] at hd
    rw [hchildren, hrecords, removed d ((hb.node id).deletedBy d hd)]
    exact hl.deleted id parent d hp hd
  · simpa only [hparent, hchildren] using hl.child
  · simpa only [hchildren, hname] using hl.distinct

section AddChild
variable {g : Graph} {parent : NodeId} (name : NodeName)

theorem parent_addChild (hp : HasNode g parent) (n : NodeId) :
    (g.addChild name parent).parent? n = if n = g.nextNode then some parent else g.parent? n := by
  simp only [Graph.parent?, node_addChild g name hp, apply_ite Node.parent, ite_self]

theorem children_addChild (hp : HasNode g parent) (n : NodeId) :
    (g.addChild name parent).children n =
      if n = g.nextNode then [] else if n = parent then g.children n ++ [g.nextNode] else g.children n := by
  simp only [Graph.children, node_addChild g name hp, apply_ite Node.children]

theorem name_addChild (hp : HasNode g parent) (n : NodeId) :
    ((g.addChild name parent).node n).name = if n = g.nextNode then name else (g.node n).name := by
  simp only [node_addChild g name hp, apply_ite Node.name, ite_self]

theorem deletedBy_addChild (hp : HasNode g parent) (n : NodeId) :
    ((g.addChild name parent).node n).deletedBy =
      if n = g.nextNode then none else (g.node n).deletedBy := by
  simp only [node_addChild g name hp, apply_ite Node.deletedBy, ite_self]

theorem deletedChildren_addChild (hp : HasNode g parent) (n : NodeId) :
    ((g.addChild name parent).node n).deletedChildren =
      if n = g.nextNode then [] else (g.node n).deletedChildren := by
  simp only [node_addChild g name hp, apply_ite Node.deletedChildren, ite_self]

/-- A new child is the only node whose links change, apart from its being listed with its parent. -/
theorem Linked.addChild (hl : Linked g) (hb : Bounded g) (hp : HasNode g parent)
    (fresh : ∀ c ∈ g.children parent, (g.node c).name ≠ name) : Linked (g.addChild name parent) := by
  have hold : ∀ {n p}, g.parent? n = some p → n ≠ g.nextNode ∧ p ≠ g.nextNode := by
    intro n p h
    exact ⟨(has_node_of_parent h).ne_next, ((hb.node n).parent p h).ne_next⟩
  have hlisted : ∀ p, ∀ c ∈ g.children p, c ≠ g.nextNode :=
    fun p c hc => ((hb.node p).children c hc).ne_next
  refine ⟨?_, ?_, ?_, ?_, ?_, ?_, ?_⟩
  · intro id hid
    rw [parent_addChild name hp]
    split
    · rename_i hn
      have hroot : g.nextNode ≠ Graph.root := hb.root.ne_next.symm
      have horphan : g.nextNode ∉ g.orphans := fun hm => (hb.orphans _ hm).ne_next rfl
      simpa [hn, hroot, Graph.addChild, Graph.modifyNode] using horphan
    · rename_i hn
      exact hl.top id (has_node_of_ne_next (by simpa [HasNode] using hid) hn)
  · intro id h
    rw [parent_addChild name hp] at h
    rw [deletedBy_addChild name hp]
    split
    · rfl
    · rename_i hn
      exact hl.top_kept id (by simpa [hn] using h)
  · intro id p h
    rw [parent_addChild name hp] at h
    split at h
    · rename_i hn
      rw [hn, ← Option.some.inj h]
      exact hp
    · exact hl.older id p h
  · intro id p h hk
    rw [parent_addChild name hp] at h
    rw [deletedBy_addChild name hp] at hk
    rw [children_addChild name hp, deletedChildren_addChild name hp]
    by_cases hn : id = g.nextNode
    · subst hn
      obtain rfl : parent = p := by simpa using h
      have hnot : g.nextNode ∉ g.children parent := fun hm => hlisted parent _ hm rfl
      simp only [if_neg hp.ne_next, if_true, List.count_append, List.count_eq_zero.mpr hnot]
      refine ⟨by simp, fun r hr => ((hb.node parent).deletedChildren r hr).1.ne_next⟩
    · simp only [if_neg hn] at h hk
      obtain ⟨hcount, hrecords⟩ := hl.kept id p h hk
      simp only [if_neg (hold h).2]
      refine ⟨?_, hrecords⟩
      split
      · simpa [List.count_append, Ne.symm hn] using hcount
      · exact hcount
  · intro id p d h hd
    rw [parent_addChild name hp] at h
    rw [deletedBy_addChild name hp] at hd
    rw [children_addChild name hp, deletedChildren_addChild name hp]
    by_cases hn : id = g.nextNode
    · simp [hn] at hd
    · simp only [if_neg hn] at h hd
      obtain ⟨hnot, hrecord, hremoved⟩ := hl.deleted id p d h hd
      simp only [if_neg (hold h).2]
      refine ⟨?_, hrecord, hremoved⟩
      split
      · simp [hnot, hn]
      · exact hnot
  · intro p c hc
    rw [children_addChild name hp] at hc
    rw [parent_addChild name hp]
    split at hc
    · simp at hc
    · split at hc
      · rename_i he
        rcases List.mem_append.mp hc with hm | hlast
        · rw [if_neg (hlisted p c hm)]
          exact hl.child p c hm
        · rw [if_pos (List.mem_singleton.mp hlast), he]
      · rw [if_neg (hlisted p c hc)]
        exact hl.child p c hc
  · intro p
    have hnames : (g.children p).map (fun c => ((g.addChild name parent).node c).name) =
        (g.children p).map fun c => (g.node c).name := by
      apply List.map_congr_left
      intro c hc
      rw [name_addChild name hp, if_neg (hlisted p c hc)]
    rw [children_addChild name hp]
    split
    · simp
    · split
      · rename_i he
        rw [List.map_append, hnames]
        refine List.nodup_append.mpr ⟨hl.distinct p, by simp, ?_⟩
        intro x hx y hy hxy
        obtain ⟨c, hc, rfl⟩ := List.mem_map.mp hx
        rw [List.map_singleton, List.mem_singleton, name_addChild name hp, if_pos rfl] at hy
        exact fresh c (he ▸ hc) (hxy.trans hy)
      · rw [hnames]
        exact hl.distinct p

end AddChild

theorem parent_addOrphan (g : Graph) (n : NodeId) :
    g.addOrphan.parent? n = if n = g.nextNode then none else g.parent? n := by
  simp only [Graph.parent?, node_addOrphan, apply_ite Node.parent]

theorem children_addOrphan (g : Graph) (n : NodeId) :
    g.addOrphan.children n = if n = g.nextNode then [] else g.children n := by
  simp only [Graph.children, node_addOrphan, apply_ite Node.children]

/-- A stand-in is a node without links. -/
theorem Linked.addOrphan {g : Graph} (hl : Linked g) (hb : Bounded g) : Linked g.addOrphan := by
  have hold : ∀ {n p}, g.addOrphan.parent? n = some p →
      g.parent? n = some p ∧ g.addOrphan.node n = g.node n ∧ g.addOrphan.node p = g.node p := by
    intro n p h
    rw [parent_addOrphan] at h
    split at h
    · cases h
    · rename_i hn
      have hp := ((hb.node n).parent p h).ne_next
      exact ⟨h, by rw [node_addOrphan, if_neg hn], by rw [node_addOrphan, if_neg hp]⟩
  refine ⟨?_, ?_, ?_, ?_, ?_, ?_, ?_⟩
  · intro id hid
    rw [parent_addOrphan]
    split
    · rename_i hn
      simp [hn, Graph.addOrphan]
    · rename_i hn
      have hhas := has_node_of_ne_next (by simpa [HasNode] using hid) hn
      simpa [Graph.addOrphan, hn] using hl.top id hhas
  · intro id h
    rw [parent_addOrphan] at h
    rw [node_addOrphan]
    split
    · rfl
    · rename_i hn
      exact hl.top_kept id (by simpa [hn] using h)
  · intro id p h
    exact hl.older id p (hold h).1
  · intro id p h hk
    obtain ⟨h, hid, hp⟩ := hold h
    rw [hid] at hk
    rw [Graph.children, hp]
    exact hl.kept id p h hk
  · intro id p d h hd
    obtain ⟨h, hid, hp⟩ := hold h
    rw [hid] at hd
    rw [Graph.children, hp]
    exact hl.deleted id p d h hd
  · intro p c hc
    rw [children_addOrphan] at hc
    split at hc
    · simp at hc
    · rw [parent_addOrphan, if_neg ((hb.node p).children c hc).ne_next]
      exact hl.child p c hc
  · intro p
    rw [children_addOrphan]
    split
    · simp
    · have hnames : (g.children p).map (fun c => (g.addOrphan.node c).name) =
          (g.children p).map fun c => (g.node c).name := by
        apply List.map_congr_left
        intro c hc
        rw [node_addOrphan, if_neg ((hb.node p).children c hc).ne_next]
      rw [hnames]
      exact hl.distinct p

section DropChild
variable {g : Graph} {parent id : NodeId} (d : DirectiveId)

theorem name_dropChild (g : Graph) (parent id n : NodeId) :
    ((g.dropChild parent id d).node n).name = (g.node n).name :=
  view_dropChild g Node.name (fun _ _ _ => rfl) (fun _ _ => rfl) parent id d n

theorem parent_dropChild (g : Graph) (parent id n : NodeId) :
    (g.dropChild parent id d).parent? n = g.parent? n :=
  view_dropChild g Node.parent (fun _ _ _ => rfl) (fun _ _ => rfl) parent id d n

theorem deletedBy_dropChild (hp : HasNode g parent) (hi : HasNode g id) (hne : parent ≠ id)
    (n : NodeId) : ((g.dropChild parent id d).node n).deletedBy =
      if n = id then some d else (g.node n).deletedBy := by
  simp only [node_dropChild g d hp hi hne, apply_ite Node.deletedBy, ite_self]

theorem children_dropChild (hp : HasNode g parent) (hi : HasNode g id) (hne : parent ≠ id)
    (n : NodeId) : (g.dropChild parent id d).children n =
      if n = parent then (g.children n).erase id else g.children n := by
  simp only [Graph.children, node_dropChild g d hp hi hne, apply_ite Node.children]
  by_cases hn : n = id
  · simp [hn, Ne.symm hne]
  · simp [hn]

theorem deletedChildren_dropChild (hp : HasNode g parent) (hi : HasNode g id) (hne : parent ≠ id)
    (n : NodeId) : ((g.dropChild parent id d).node n).deletedChildren =
      if n = parent then (g.node n).deletedChildren ++ [⟨id, d⟩] else (g.node n).deletedChildren := by
  simp only [node_dropChild g d hp hi hne, apply_ite Node.deletedChildren]
  by_cases hn : n = id
  · simp [hn, Ne.symm hne]
  · simp [hn]

/-- Taking a child away moves it from the children to the records of its parent, and nothing else. -/
theorem Linked.dropChild (hl : Linked g) (hb : Bounded g) (hp : g.parent? id = some parent)
    (hc : id ∈ g.children parent) (hr : (g.directive d).removed = some (.node id)) :
    Linked (g.dropChild parent id d) := by
  have hhas : HasNode g parent := (hb.node id).parent parent hp
  have hid : HasNode g id := has_node_of_parent hp
  have hne : parent ≠ id := by
    rintro rfl
    exact Nat.lt_irrefl _ (hl.older _ _ hp)
  have hname := name_dropChild d g parent id
  have hparent := parent_dropChild d g parent id
  have hdeleted := deletedBy_dropChild d hhas hid hne
  have hchildren := children_dropChild d hhas hid hne
  have hrecords := deletedChildren_dropChild d hhas hid hne
  refine ⟨?_, ?_, ?_, ?_, ?_, ?_, ?_⟩
  · intro n hn
    rw [hparent]
    exact hl.top n (by simpa [HasNode] using hn)
  · intro n h
    rw [hparent] at h
    rw [hdeleted, if_neg]
    · exact hl.top_kept n h
    · rintro rfl
      simp [hp] at h
  · intro n p h
    rw [hparent] at h
    exact hl.older n p h
  · intro n p h hk
    rw [hparent] at h
    rw [hdeleted] at hk
    split at hk
    · cases hk
    · rename_i hn
      obtain ⟨hcount, hnone⟩ := hl.kept n p h hk
      rw [hchildren, hrecords]
      split
      · refine ⟨by rw [List.count_erase_of_ne hn, hcount], ?_⟩
        intro r hr
        rcases List.mem_append.mp hr with hold | hlast
        · exact hnone r hold
        · rw [List.mem_singleton.mp hlast]
          exact Ne.symm hn
      · exact ⟨hcount, hnone⟩
  · intro n p e h hd
    rw [hparent] at h
    rw [hdeleted] at hd
    rw [hchildren, hrecords]
    split at hd
    · rename_i hn
      subst hn
      obtain rfl : parent = p := Option.some.inj (hp.symm.trans h)
      obtain rfl : d = e := Option.some.inj hd
      have hnone := (hl.kept n parent hp (hl.child_kept hc)).2
      have hempty : (g.node parent).deletedChildren.filter (fun r => decide (r.node = n)) = [] := by
        apply List.filter_eq_nil_iff.mpr
        intro r hr
        simpa using hnone r hr
      rw [if_pos rfl, if_pos rfl, List.filter_append, hempty]
      exact ⟨(hl.nodup parent).not_mem_erase, by simp, hr⟩
    · rename_i hn
      obtain ⟨hnot, hrecord, hremoved⟩ := hl.deleted n p e h hd
      split
      · refine ⟨fun hm => hnot (List.mem_of_mem_erase hm), ?_, hremoved⟩
        rw [List.filter_append, hrecord]
        simp [Ne.symm hn]
      · exact ⟨hnot, hrecord, hremoved⟩
  · intro p c h
    rw [hchildren] at h
    rw [hparent]
    split at h
    · exact hl.child p c (List.mem_of_mem_erase h)
    · exact hl.child p c h
  · intro p
    simp only [hname]
    rw [hchildren]
    split
    · exact (hl.distinct p).sublist (List.Sublist.map _ List.erase_sublist)
    · exact hl.distinct p

end DropChild

/-- Each elementary change keeps the links those of a forest. -/
theorem Linked.change {g g' : Graph} (hl : Linked g) (hb : Bounded g) (h : Change g g') : Linked g' := by
  cases h with
  | report log => exact hl.congr hb rfl rfl (fun _ => rfl) (fun _ _ => rfl)
  | define | refer | again =>
    exact hl.congr hb (by simp [Graph.addDefinition, Graph.addReference, Graph.addLabel]) rfl
      (view_modifyNode g Place.of _ _ fun _ => rfl) (fun _ _ => rfl)
  | hold id m =>
    exact hl.congr hb (by simp [Graph.addLabel, Graph.bindLabel]) rfl
      (view_modifyNode (g.bindLabel id m) Place.of _ _ fun _ => rfl) (fun _ _ => rfl)
  | child name _ has fresh => exact hl.addChild name hb has fresh
  | orphan => exact hl.addOrphan hb
  | property owner name values labels site has =>
    exact hl.congr hb (by simp) (by simp)
      (view_setProperty g owner name values labels site Place.of has fun _ _ _ => rfl)
      (fun d _ => by simp [Graph.directive])
  | directive x =>
    refine hl.congr hb (by simp) (by simp) (view_addDirective g Place.of x fun _ _ => rfl) ?_
    intro d hd
    rw [directive_addDirective, if_neg hd.ne_next]
  | dropChild _ _ _ isParent isChild _ removed => exact hl.dropChild _ hb isParent isChild removed
  | dropProperty owner name p d =>
    exact hl.congr hb (by simp [Graph.dropProperty, Graph.modifyProperty]) rfl
      (view_modifyNode g Place.of owner _ fun _ => rfl) (fun _ _ => rfl)

end Devicetree.Proofs
