import Devicetree.Proofs.Targets
import Devicetree.Proofs.Tree

namespace Devicetree.Proofs

def shown (g : Graph) (id : NodeId) : List (String × List Value) :=
  (g.node id).properties.entries.map fun e => (e.1, (g.property e.2).values)

/-- The live tree at a node. The walk down follows numbers upwards, as all links do. -/
def liveTree (g : Graph) (id : NodeId) : Tree :=
  .node (g.node id).name (shown g id) ((g.children id).filterMap fun c =>
    if _h : id.index < c.index ∧ c.index < g.nodes.size then some (liveTree g c) else none)
termination_by g.nodes.size - id.index
decreasing_by omega

structure Facet where
  name : NodeName
  shown : List (String × List Value)
  children : List NodeId

def facet (g : Graph) (id : NodeId) : Facet := ⟨(g.node id).name, shown g id, g.children id⟩

/-- Where the links are in order, the walk down follows all of them. -/
theorem Sound.live_tree {g : Graph} (hs : Sound g) (id : NodeId) :
    liveTree g id = .node (g.node id).name (shown g id) ((g.children id).map (liveTree g)) := by
  have hall : ∀ c ∈ g.children id,
      (if _h : id.index < c.index ∧ c.index < g.nodes.size then some (liveTree g c) else none) =
        some (liveTree g c) := by
    intro c hc
    have hlink : id.index < c.index ∧ c.index < g.nodes.size :=
      ⟨hs.linked.older c id (hs.linked.child id c hc), (hs.bounded.node id).children c hc⟩
    rw [dif_pos hlink]
  rw [liveTree, List.filterMap_congr hall, ← List.filterMap_eq_map]
  rfl

theorem name_liveTree (g : Graph) (id : NodeId) : (liveTree g id).name = (g.node id).name := by
  rw [liveTree, Tree.name]

/-- The node `n` is `a` or stands below it, deleted or not. -/
inductive Under (g : Graph) (a : NodeId) : NodeId → Prop where
  | self : Under g a a
  | down {n p : NodeId} (h : g.parent? n = some p) (hp : Under g a p) : Under g a n

theorem Under.trans {g : Graph} {a b n : NodeId} (h : Under g a b) (hn : Under g b n) : Under g a n := by
  induction hn with
  | self => exact h
  | down hp _ ih => exact .down hp ih

theorem Under.le {g : Graph} (hl : Linked g) {a n : NodeId} (h : Under g a n) : a.index ≤ n.index := by
  induction h with
  | self => exact Nat.le_refl _
  | down hp _ ih => exact Nat.le_trans ih (Nat.le_of_lt (hl.older _ _ hp))

theorem Under.has {g : Graph} {a n : NodeId} (h : Under g a n) (ha : HasNode g a) : HasNode g n := by
  cases h with
  | self => exact ha
  | down hp _ => exact has_node_of_parent hp

/-- Of two nodes above the same node one is above the other. -/
theorem Under.comparable {g : Graph} {a b n : NodeId} (ha : Under g a n) (hb : Under g b n) :
    Under g a b ∨ Under g b a := by
  induction ha with
  | self => exact Or.inr hb
  | down hp ha ih =>
    cases hb with
    | self => exact Or.inl (.down hp ha)
    | down hp' hb =>
      obtain rfl := Option.some.inj (hp.symm.trans hp')
      exact ih hb

theorem Linked.not_above_parent {g : Graph} (hl : Linked g) {n c : NodeId} (hc : c ∈ g.children n) :
    ¬ Under g c n := by
  intro hu
  exact Nat.not_lt.mpr (hu.le hl) (hl.older c n (hl.child n c hc))

/-- Nothing stands below two children of one node. -/
theorem Linked.apart {g : Graph} (hl : Linked g) {n c d m : NodeId} (hc : c ∈ g.children n)
    (hd : d ∈ g.children n) (hne : d ≠ c) (hm : Under g d m) : ¬ Under g c m := by
  have hfar : ∀ {a b : NodeId}, a ∈ g.children n → b ∈ g.children n → b ≠ a → ¬ Under g a b := by
    intro a b ha hb hab hu
    cases hu with
    | self => exact hab rfl
    | down hp hu =>
      obtain rfl := Option.some.inj ((hl.child n b hb).symm.trans hp)
      exact hl.not_above_parent ha hu
  intro hu
  rcases hu.comparable hm with h | h
  · exact hfar hc hd hne h
  · exact hfar hd hc hne.symm h

/-- A tree is made of the facets of the nodes below its top. -/
theorem Sound.live_tree_congr {g g' : Graph} (hs : Sound g) (hs' : Sound g') (id : NodeId)
    (h : ∀ m, Under g id m → facet g' m = facet g m) : liveTree g' id = liveTree g id := by
  -- Children have larger numbers, and there are finitely many.
  induction hi : g.nodes.size - id.index using Nat.strongRecOn generalizing id with
  | ind i ih =>
    have hself := h id .self
    have hname : (g'.node id).name = (g.node id).name := congrArg Facet.name hself
    have hshown : shown g' id = shown g id := congrArg Facet.shown hself
    have hchildren : g'.children id = g.children id := congrArg Facet.children hself
    have hmap : (g.children id).map (liveTree g') = (g.children id).map (liveTree g) := by
      apply List.map_congr_left
      intro c hc
      have hp := hs.linked.child id c hc
      have hlt := hs.linked.older c id hp
      have hc' : c.index < g.nodes.size := (hs.bounded.node id).children c hc
      refine ih (g.nodes.size - c.index) (by omega) c ?_ rfl
      intro m hm
      exact h m ((Under.down hp .self).trans hm)
    rw [hs'.live_tree, hs.live_tree, hname, hshown, hchildren, hmap]

/-- From `g` to `g'` nothing of the tree changes outside the nodes below `n`. -/
structure Within (g g' : Graph) (n : NodeId) : Prop where
  has : ∀ m, HasNode g m → HasNode g' m
  parent : ∀ m, HasNode g m → g'.parent? m = g.parent? m
  facet : ∀ m, HasNode g m → ¬ Under g n m → facet g' m = facet g m

theorem Within.under {g g' : Graph} {n m : NodeId} (hw : Within g g' n) (hb : Bounded g)
    (hm : HasNode g m) (h : Under g' n m) : Under g n m := by
  induction h with
  | self => exact .self
  | down hp _ ih =>
    rw [hw.parent _ hm] at hp
    exact .down hp (ih ((hb.node _).parent _ hp))

theorem Within.trans {g g' g'' : Graph} {n : NodeId} (hb : Bounded g) (h : Within g g' n)
    (h' : Within g' g'' n) : Within g g'' n := by
  refine ⟨?_, ?_, ?_⟩
  · intro m hm
    exact h'.has m (h.has m hm)
  · intro m hm
    exact (h'.parent m (h.has m hm)).trans (h.parent m hm)
  · intro m hm hn
    have hn' : ¬ Under g' n m := fun hu => hn (h.under hb hm hu)
    exact (h'.facet m (h.has m hm) hn').trans (h.facet m hm hn)

/-- What stays below a child stays below its parent. -/
theorem Within.of_child {g g' : Graph} {n c : NodeId} (hp : g.parent? c = some n)
    (h : Within g g' c) : Within g g' n := by
  refine ⟨h.has, h.parent, ?_⟩
  intro m hm hn
  exact h.facet m hm fun hu => hn ((Under.down hp .self).trans hu)

/-- What is done below one child shows in the tree of its parent in that child's place only. -/
theorem Within.parent_tree {g g' : Graph} (hs : Sound g) (hs' : Sound g') {n c : NodeId}
    (h : Within g g' c) (hn : HasNode g n) (hc : c ∈ g.children n) :
    liveTree g' n = .node (g.node n).name (shown g n)
      ((g.children n).map fun d => if d = c then liveTree g' c else liveTree g d) := by
  have hself := h.facet n hn (hs.linked.not_above_parent hc)
  have hname : (g'.node n).name = (g.node n).name := congrArg Facet.name hself
  have hshown : shown g' n = shown g n := congrArg Facet.shown hself
  have hchildren : g'.children n = g.children n := congrArg Facet.children hself
  rw [hs'.live_tree, hname, hshown, hchildren]
  congr 1
  apply List.map_congr_left
  intro d hd
  split
  · rename_i he
    rw [he]
  · rename_i hne
    apply hs.live_tree_congr hs'
    intro m hm
    exact h.facet m (hm.has ((hs.bounded.node n).children d hd)) (hs.linked.apart hc hd hne hm)

/-- Where only the record of a node changes, the trees of its children do not. -/
theorem Sound.child_tree {g g' : Graph} (hs : Sound g) (hs' : Sound g') {n c : NodeId}
    (h : ∀ m, HasNode g m → m ≠ n → facet g' m = facet g m) (hc : c ∈ g.children n) :
    liveTree g' c = liveTree g c := by
  apply hs.live_tree_congr hs'
  intro m hm
  refine h m (hm.has ((hs.bounded.node n).children c hc)) ?_
  rintro rfl
  exact hs.linked.not_above_parent hc hm

end Devicetree.Proofs
