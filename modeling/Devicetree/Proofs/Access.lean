import Devicetree.Build

namespace Devicetree.Proofs

/-- The number is that of a node of the graph. -/
def HasNode (g : Graph) (id : NodeId) : Prop := id.index < g.nodes.size

def HasProperty (g : Graph) (id : PropertyId) : Prop := id.index < g.properties.size

def HasDirective (g : Graph) (id : DirectiveId) : Prop := id.index < g.directives.size

instance (g : Graph) (id : PropertyId) : Decidable (HasProperty g id) :=
  inferInstanceAs (Decidable (id.index < g.properties.size))

/-- No entity goes away from `g` to `g'`. -/
structure Grown (g g' : Graph) : Prop where
  nodes : g.nodes.size ≤ g'.nodes.size
  properties : g.properties.size ≤ g'.properties.size
  directives : g.directives.size ≤ g'.directives.size

theorem Grown.refl (g : Graph) : Grown g g := ⟨Nat.le_refl _, Nat.le_refl _, Nat.le_refl _⟩

theorem Grown.trans {g g' g'' : Graph} (h : Grown g g') (h' : Grown g' g'') : Grown g g'' :=
  ⟨Nat.le_trans h.nodes h'.nodes, Nat.le_trans h.properties h'.properties,
    Nat.le_trans h.directives h'.directives⟩

theorem Grown.has_node {g g' : Graph} (h : Grown g g') {id : NodeId} (hn : HasNode g id) :
    HasNode g' id :=
  Nat.lt_of_lt_of_le hn h.nodes

theorem Grown.has_property {g g' : Graph} (h : Grown g g') {id : PropertyId}
    (hp : HasProperty g id) : HasProperty g' id :=
  Nat.lt_of_lt_of_le hp h.properties

theorem Grown.has_directive {g g' : Graph} (h : Grown g g') {id : DirectiveId}
    (hd : HasDirective g id) : HasDirective g' id :=
  Nat.lt_of_lt_of_le hd h.directives

theorem HasNode.ne_next {g : Graph} {id : NodeId} (h : HasNode g id) : id ≠ g.nextNode := by
  rintro rfl
  exact Nat.lt_irrefl _ h

theorem HasProperty.ne_next {g : Graph} {id : PropertyId} (h : HasProperty g id) :
    id ≠ g.nextProperty := by
  rintro rfl
  exact Nat.lt_irrefl _ h

theorem HasDirective.ne_next {g : Graph} {id : DirectiveId} (h : HasDirective g id) :
    id ≠ g.nextDirective := by
  rintro rfl
  exact Nat.lt_irrefl _ h

theorem has_node_of_ne_next {g : Graph} {id : NodeId} (h : id.index < g.nodes.size + 1)
    (hn : id ≠ g.nextNode) : HasNode g id :=
  Nat.lt_of_le_of_ne (Nat.le_of_lt_succ h) fun he => hn (congrArg NodeId.mk he)

theorem has_property_of_ne_next {g : Graph} {id : PropertyId} (h : id.index < g.properties.size + 1)
    (hn : id ≠ g.nextProperty) : HasProperty g id :=
  Nat.lt_of_le_of_ne (Nat.le_of_lt_succ h) fun he => hn (congrArg PropertyId.mk he)

/-- An unknown number reads as an empty node. -/
theorem node_of_not_has {g : Graph} {id : NodeId} (h : ¬ HasNode g id) : g.node id = default := by
  have hs : g.nodes.size ≤ id.index := Nat.le_of_not_lt h
  simp [Graph.node, Array.getD_eq_getD_getElem?, hs]

theorem node_next (g : Graph) : g.node g.nextNode = default :=
  node_of_not_has (Nat.lt_irrefl g.nextNode.index)

theorem has_node_of_parent {g : Graph} {id parent : NodeId} (h : g.parent? id = some parent) :
    HasNode g id := by
  apply Classical.byContradiction
  intro hn
  rw [Graph.parent?, node_of_not_has hn] at h
  cases h

theorem property_of_not_has {g : Graph} {id : PropertyId} (h : ¬ HasProperty g id) :
    g.property id = default := by
  have hs : g.properties.size ≤ id.index := Nat.le_of_not_lt h
  simp [Graph.property, Array.getD_eq_getD_getElem?, hs]

/-- A version with a link to another entity is one of the graph. -/
theorem has_property_of_link {α : Type} {g : Graph} {id : PropertyId} (link : Property → Option α)
    (hd : link default = none) {x : α} (h : link (g.property id) = some x) : HasProperty g id := by
  apply Classical.byContradiction
  intro hn
  rw [property_of_not_has hn, hd] at h
  cases h

theorem getD_modify {α : Type} (xs : Array α) (i j : Nat) (f : α → α) (d : α) (h : i < xs.size) :
    (xs.modify i f).getD j d = if j = i then f (xs.getD j d) else xs.getD j d := by
  simp only [Array.getD_eq_getD_getElem?, Array.getElem?_modify]
  by_cases hj : i = j
  · subst hj
    simp [h]
  · simp [hj, Ne.symm hj]

theorem getD_push {α : Type} (xs : Array α) (x : α) (j : Nat) (d : α) :
    (xs.push x).getD j d = if j = xs.size then x else xs.getD j d := by
  simp only [Array.getD_eq_getD_getElem?, Array.getElem?_push]
  split <;> rfl

section Elementary
variable (g : Graph)

theorem node_modifyNode (id : NodeId) (f : Node → Node) (h : HasNode g id) (n : NodeId) :
    (g.modifyNode id f).node n = if n = id then f (g.node n) else g.node n := by
  obtain ⟨i⟩ := id
  obtain ⟨j⟩ := n
  simpa [Graph.node, Graph.modifyNode] using getD_modify g.nodes i j f default h

theorem property_modifyProperty (id : PropertyId) (f : Property → Property) (h : HasProperty g id)
    (p : PropertyId) :
    (g.modifyProperty id f).property p = if p = id then f (g.property p) else g.property p := by
  obtain ⟨i⟩ := id
  obtain ⟨j⟩ := p
  simpa [Graph.property, Graph.modifyProperty] using getD_modify g.properties i j f default h

theorem node_push (x : Node) (n : NodeId) :
    ({ g with nodes := g.nodes.push x } : Graph).node n =
      if n = g.nextNode then x else g.node n := by
  obtain ⟨i⟩ := n
  simpa [Graph.node, Graph.nextNode] using getD_push g.nodes x i default

theorem property_push (x : Property) (p : PropertyId) :
    ({ g with properties := g.properties.push x } : Graph).property p =
      if p = g.nextProperty then x else g.property p := by
  obtain ⟨i⟩ := p
  simpa [Graph.property, Graph.nextProperty] using getD_push g.properties x i default

theorem directive_push (x : Directive) (d : DirectiveId) :
    ({ g with directives := g.directives.push x } : Graph).directive d =
      if d = g.nextDirective then x else g.directive d := by
  obtain ⟨i⟩ := d
  simpa [Graph.directive, Graph.nextDirective] using getD_push g.directives x i default

/-- What a node update does not touch reads as before, at known and unknown numbers alike. -/
theorem view_modifyNode {α : Type} (view : Node → α) (id : NodeId) (f : Node → Node)
    (hf : ∀ n, view (f n) = view n) (n : NodeId) :
    view ((g.modifyNode id f).node n) = view (g.node n) := by
  by_cases h : HasNode g id
  · rw [node_modifyNode g id f h]
    split
    · exact hf _
    · rfl
  · have hs : g.nodes.size ≤ id.index := Nat.le_of_not_lt h
    have he : g.nodes.modify id.index f = g.nodes := by
      apply Array.ext_getElem?
      intro i
      rw [Array.getElem?_modify]
      split
      · rename_i hi
        subst hi
        simp [hs]
      · rfl
    simp [Graph.node, Graph.modifyNode, he]

@[simp] theorem size_modifyNode (id : NodeId) (f : Node → Node) :
    (g.modifyNode id f).nodes.size = g.nodes.size := by
  simp [Graph.modifyNode]

@[simp] theorem size_modifyProperty (id : PropertyId) (f : Property → Property) :
    (g.modifyProperty id f).properties.size = g.properties.size := by
  simp [Graph.modifyProperty]

end Elementary

section Updates
variable (g : Graph)

theorem node_addChild (name : NodeName) {parent : NodeId} (h : HasNode g parent) (n : NodeId) :
    (g.addChild name parent).node n =
      if n = g.nextNode then { name, parent := some parent }
      else if n = parent then { g.node n with children := (g.node n).children ++ [g.nextNode] }
      else g.node n := by
  have hp : HasNode { g with nodes := g.nodes.push { name, parent := some parent } } parent := by
    simpa [HasNode] using Nat.lt_succ_of_lt h
  rw [Graph.addChild, node_modifyNode _ _ _ hp]
  simp only [node_push]
  by_cases hn : n = parent
  · subst hn
    simp [h.ne_next]
  · simp [hn]

@[simp] theorem size_addChild (name : NodeName) (parent : NodeId) :
    (g.addChild name parent).nodes.size = g.nodes.size + 1 := by
  simp [Graph.addChild]

theorem node_addOrphan (n : NodeId) :
    g.addOrphan.node n = if n = g.nextNode then {} else g.node n :=
  node_push g {} n

@[simp] theorem size_addOrphan : g.addOrphan.nodes.size = g.nodes.size + 1 := by
  simp [Graph.addOrphan]

theorem directive_addDirective (x : Directive) (d : DirectiveId) :
    (g.addDirective x).directive d = if d = g.nextDirective then x else g.directive d := by
  rw [← directive_push]
  unfold Graph.addDirective
  split <;> rfl

@[simp] theorem size_addDirective (x : Directive) :
    (g.addDirective x).directives.size = g.directives.size + 1 := by
  unfold Graph.addDirective
  split <;> simp [Graph.modifyNode]

@[simp] theorem nodes_size_addDirective (x : Directive) :
    (g.addDirective x).nodes.size = g.nodes.size := by
  unfold Graph.addDirective
  split <;> simp [Graph.modifyNode]

@[simp] theorem properties_addDirective (x : Directive) :
    (g.addDirective x).properties = g.properties := by
  unfold Graph.addDirective
  split <;> rfl

@[simp] theorem orphans_addDirective (x : Directive) : (g.addDirective x).orphans = g.orphans := by
  unfold Graph.addDirective
  split <;> rfl

/-- A new directive shows in a node's list of directives only. -/
theorem view_addDirective {α : Type} (view : Node → α) (x : Directive)
    (hv : ∀ n ds, view { n with directives := ds } = view n) (n : NodeId) :
    view ((g.addDirective x).node n) = view (g.node n) := by
  unfold Graph.addDirective
  split
  · exact view_modifyNode _ view _ _ (fun n => hv n _) n
  · rfl

@[simp] theorem parent_addDirective (x : Directive) (n : NodeId) :
    (g.addDirective x).parent? n = g.parent? n :=
  view_addDirective g Node.parent x (fun _ _ => rfl) n

@[simp] theorem children_addDirective (x : Directive) (n : NodeId) :
    (g.addDirective x).children n = g.children n :=
  view_addDirective g Node.children x (fun _ _ => rfl) n

@[simp] theorem live_property_addDirective (x : Directive) (n : NodeId) (name : String) :
    (g.addDirective x).liveProperty? n name = g.liveProperty? n name :=
  congrArg (Table.get? · name) (view_addDirective g Node.properties x (fun _ _ => rfl) n)

theorem node_dropChild {parent id : NodeId} (d : DirectiveId) (hp : HasNode g parent)
    (hi : HasNode g id) (hne : parent ≠ id) (n : NodeId) :
    (g.dropChild parent id d).node n =
      if n = id then { g.node n with deletedBy := some d }
      else if n = parent then
        { g.node n with
          children := (g.node n).children.erase id
          deletedChildren := (g.node n).deletedChildren ++ [⟨id, d⟩] }
      else g.node n := by
  rw [Graph.dropChild, node_modifyNode _ _ _ (by simpa [HasNode] using hi),
    node_modifyNode _ _ _ hp]
  by_cases hn : n = id
  · subst hn
    simp [Ne.symm hne]
  · simp [hn]

@[simp] theorem size_dropChild (parent id : NodeId) (d : DirectiveId) :
    (g.dropChild parent id d).nodes.size = g.nodes.size := by
  simp [Graph.dropChild]

/-- Taking a child away shows in its deletion mark and in two lists of its parent only. -/
theorem view_dropChild {α : Type} (view : Node → α)
    (hp : ∀ n cs rs, view { n with children := cs, deletedChildren := rs } = view n)
    (hc : ∀ n d, view { n with deletedBy := d } = view n) (parent id : NodeId) (d : DirectiveId)
    (n : NodeId) : view ((g.dropChild parent id d).node n) = view (g.node n) := by
  unfold Graph.dropChild
  rw [view_modifyNode _ view id _ (fun n => hc n (some d)),
    view_modifyNode g view parent _ (fun n => hp n _ _)]

theorem node_dropProperty {owner : NodeId} (name : String) (p : PropertyId) (d : DirectiveId)
    (ho : HasNode g owner) (n : NodeId) :
    (g.dropProperty owner name p d).node n =
      if n = owner then
        { g.node n with
          properties := (g.node n).properties.erase name
          deletedProperties := (g.node n).deletedProperties ++ [⟨p, d⟩] }
      else g.node n :=
  node_modifyNode g owner _ ho n

theorem property_dropProperty (owner : NodeId) (name : String) {p : PropertyId} (d : DirectiveId)
    (hp : HasProperty g p) (q : PropertyId) :
    (g.dropProperty owner name p d).property q =
      if q = p then { g.property q with deletedBy := some d } else g.property q :=
  property_modifyProperty _ p _ hp q

@[simp] theorem size_dropProperty (owner : NodeId) (name : String) (p : PropertyId)
    (d : DirectiveId) : (g.dropProperty owner name p d).properties.size = g.properties.size := by
  simp [Graph.dropProperty, Graph.modifyNode]

end Updates

section SetProperty
variable (g : Graph) (owner : NodeId) (name : String) (values : List Value)
  (labels : List LabelMark) (site : Site)

theorem property_addProperty (x : Property) (q : PropertyId) :
    (g.addProperty x).property q = if q = g.nextProperty then x else g.property q :=
  property_push g x q

theorem node_addProperty (x : Property) (h : HasNode g x.owner) (n : NodeId) :
    (g.addProperty x).node n =
      if n = x.owner then { g.node n with history := (g.node n).history ++ [g.nextProperty] }
      else g.node n :=
  node_modifyNode { g with properties := g.properties.push x } x.owner _ h n

theorem node_setProperty (h : HasNode g owner) (n : NodeId) :
    (g.setProperty owner name values labels site).node n =
      if n = owner then
        { g.node n with
          history := (g.node n).history ++ [g.nextProperty]
          properties := (g.node n).properties.insert name g.nextProperty }
      else g.node n := by
  have he : (g.setProperty owner name values labels site).node n =
      ((g.addProperty
          { name, owner, values, labels, site,
            replaces := g.liveProperty? owner name }).modifyNode owner fun m =>
        { m with properties := m.properties.insert name g.nextProperty }).node n := by
    unfold Graph.setProperty
    cases g.liveProperty? owner name <;> rfl
  rw [he, node_modifyNode _ _ _ (by simpa [HasNode, Graph.addProperty] using h),
    node_addProperty g _ h]
  split <;> rfl

@[simp] theorem size_setProperty : (g.setProperty owner name values labels site).properties.size =
    g.properties.size + 1 := by
  unfold Graph.setProperty
  cases g.liveProperty? owner name <;>
    simp [Graph.addProperty, Graph.modifyNode, Graph.modifyProperty]

@[simp] theorem nodes_size_setProperty :
    (g.setProperty owner name values labels site).nodes.size = g.nodes.size := by
  unfold Graph.setProperty
  cases g.liveProperty? owner name <;>
    simp [Graph.addProperty, Graph.modifyNode, Graph.modifyProperty]

@[simp] theorem directives_setProperty :
    (g.setProperty owner name values labels site).directives = g.directives := by
  unfold Graph.setProperty
  cases g.liveProperty? owner name <;> rfl

@[simp] theorem orphans_setProperty :
    (g.setProperty owner name values labels site).orphans = g.orphans := by
  unfold Graph.setProperty
  cases g.liveProperty? owner name <;> rfl

@[simp] theorem labels_setProperty :
    (g.setProperty owner name values labels site).labels = g.labels := by
  unfold Graph.setProperty
  cases g.liveProperty? owner name <;> rfl

/-- A new property version shows in the owner's properties and history only. -/
theorem view_setProperty {α : Type} (view : Node → α) (h : HasNode g owner)
    (hv : ∀ n ps hs, view { n with properties := ps, history := hs } = view n) (n : NodeId) :
    view ((g.setProperty owner name values labels site).node n) = view (g.node n) := by
  rw [node_setProperty g owner name values labels site h]
  split
  · exact hv _ _ _
  · rfl

theorem property_setProperty (h : ∀ p, g.liveProperty? owner name = some p → HasProperty g p)
    (q : PropertyId) :
    (g.setProperty owner name values labels site).property q =
      if q = g.nextProperty then
        { name, owner, values, labels, site, replaces := g.liveProperty? owner name }
      else if g.liveProperty? owner name = some q then
        { g.property q with replacedBy := some g.nextProperty }
      else g.property q := by
  unfold Graph.setProperty
  cases hp : g.liveProperty? owner name with
  | none =>
    simp only [reduceCtorEq, if_false]
    exact property_addProperty g _ q
  | some p =>
    have hprev : HasProperty g p := h p hp
    have hadd : ∀ x : Property, HasProperty (g.addProperty x) p := by
      intro x
      simpa [HasProperty, Graph.addProperty, Graph.modifyNode] using Nat.lt_succ_of_lt hprev
    change ((g.addProperty _).modifyProperty p _).property q = _
    rw [property_modifyProperty _ _ _ (hadd _), property_addProperty]
    by_cases hq : q = p
    · subst hq
      simp [hprev.ne_next]
    · simp [hq, Ne.symm hq]

end SetProperty

end Devicetree.Proofs
