import Devicetree.Proofs.Access

namespace Devicetree.Proofs

structure NodeBounded (g : Graph) (n : Node) : Prop where
  parent : ∀ p, n.parent = some p → HasNode g p
  children : ∀ c ∈ n.children, HasNode g c
  properties : ∀ e ∈ n.properties.entries, HasProperty g e.2
  deletedChildren : ∀ r ∈ n.deletedChildren, HasNode g r.node ∧ HasDirective g r.directive
  deletedProperties : ∀ r ∈ n.deletedProperties, HasProperty g r.property ∧ HasDirective g r.directive
  history : ∀ p ∈ n.history, HasProperty g p
  directives : ∀ d ∈ n.directives, HasDirective g d
  deletedBy : ∀ d, n.deletedBy = some d → HasDirective g d

structure PropertyBounded (g : Graph) (p : Property) : Prop where
  owner : HasNode g p.owner
  replaces : ∀ q, p.replaces = some q → HasProperty g q
  replacedBy : ∀ q, p.replacedBy = some q → HasProperty g q
  deletedBy : ∀ d, p.deletedBy = some d → HasDirective g d

structure DirectiveBounded (g : Graph) (d : Directive) : Prop where
  scope : ∀ n, d.scope = some n → HasNode g n
  node : ∀ n, d.removed = some (.node n) → HasNode g n
  property : ∀ p, d.removed = some (.property p) → HasProperty g p

/-- Every number stored anywhere in the graph is that of one of its entities. -/
structure Bounded (g : Graph) : Prop where
  root : HasNode g Graph.root
  node : ∀ id, NodeBounded g (g.node id)
  property : ∀ id, HasProperty g id → PropertyBounded g (g.property id)
  directive : ∀ id, DirectiveBounded g (g.directive id)
  orphans : ∀ id ∈ g.orphans, HasNode g id
  labels : ∀ e ∈ g.labels.bound.entries, HasNode g e.2

theorem NodeBounded.mono {g g' : Graph} {n : Node} (h : NodeBounded g n) (hg : Grown g g') :
    NodeBounded g' n where
  parent p hp := hg.has_node (h.parent p hp)
  children c hc := hg.has_node (h.children c hc)
  properties e he := hg.has_property (h.properties e he)
  deletedChildren r hr := (h.deletedChildren r hr).imp hg.has_node hg.has_directive
  deletedProperties r hr := (h.deletedProperties r hr).imp hg.has_property hg.has_directive
  history p hp := hg.has_property (h.history p hp)
  directives d hd := hg.has_directive (h.directives d hd)
  deletedBy d hd := hg.has_directive (h.deletedBy d hd)

theorem PropertyBounded.mono {g g' : Graph} {p : Property} (h : PropertyBounded g p)
    (hg : Grown g g') : PropertyBounded g' p where
  owner := hg.has_node h.owner
  replaces q hq := hg.has_property (h.replaces q hq)
  replacedBy q hq := hg.has_property (h.replacedBy q hq)
  deletedBy d hd := hg.has_directive (h.deletedBy d hd)

theorem DirectiveBounded.mono {g g' : Graph} {d : Directive} (h : DirectiveBounded g d)
    (hg : Grown g g') : DirectiveBounded g' d where
  scope n hn := hg.has_node (h.scope n hn)
  node n hn := hg.has_node (h.node n hn)
  property p hp := hg.has_property (h.property p hp)

theorem Bounded.live_property {g : Graph} (hb : Bounded g) {n : NodeId} {name : String}
    {p : PropertyId} (h : g.liveProperty? n name = some p) : HasProperty g p :=
  (hb.node n).properties _ (Table.mem_of_find h)

theorem Bounded.bound_label {g : Graph} (hb : Bounded g) {name : String} {n : NodeId}
    (h : g.labels.nodeOf? name = some n) : HasNode g n :=
  hb.labels _ (Table.mem_of_find h)

/-- A graph that grew stays bounded when each record of it that is new or rewritten is bounded. -/
theorem Bounded.extend {g g' : Graph} (hb : Bounded g) (hg : Grown g g')
    (node : ∀ id, g'.node id = g.node id ∨ NodeBounded g' (g'.node id))
    (property : ∀ id, HasProperty g' id →
      (HasProperty g id ∧ g'.property id = g.property id) ∨ PropertyBounded g' (g'.property id))
    (directive : ∀ id, g'.directive id = g.directive id ∨ DirectiveBounded g' (g'.directive id))
    (orphans : ∀ id ∈ g'.orphans, id ∈ g.orphans ∨ HasNode g' id)
    (labels : ∀ e ∈ g'.labels.bound.entries, e ∈ g.labels.bound.entries ∨ HasNode g' e.2) :
    Bounded g' where
  root := hg.has_node hb.root
  node id := by
    rcases node id with he | h
    · exact he ▸ (hb.node id).mono hg
    · exact h
  property id hp := by
    rcases property id hp with ⟨hold, he⟩ | h
    · exact he ▸ (hb.property id hold).mono hg
    · exact h
  directive id := by
    rcases directive id with he | h
    · exact he ▸ (hb.directive id).mono hg
    · exact h
  orphans n hm := (orphans n hm).elim (fun h => hg.has_node (hb.orphans n h)) id
  labels e hm := (labels e hm).elim (fun h => hg.has_node (hb.labels e h)) id

section Preserved
variable {g : Graph}

theorem grown_modifyNode (g : Graph) (id : NodeId) (f : Node → Node) : Grown g (g.modifyNode id f) :=
  ⟨by simp, Nat.le_refl _, Nat.le_refl _⟩

theorem grown_modifyProperty (g : Graph) (id : PropertyId) (f : Property → Property) :
    Grown g (g.modifyProperty id f) :=
  ⟨Nat.le_refl _, by simp, Nat.le_refl _⟩

theorem grown_push_node (g : Graph) (x : Node) : Grown g { g with nodes := g.nodes.push x } :=
  ⟨by simp, Nat.le_refl _, Nat.le_refl _⟩

theorem grown_push_directive (g : Graph) (x : Directive) :
    Grown g { g with directives := g.directives.push x } :=
  ⟨Nat.le_refl _, Nat.le_refl _, by simp⟩

theorem Bounded.modifyNode (hb : Bounded g) {id : NodeId} {f : Node → Node} (has : HasNode g id)
    (hf : NodeBounded g (f (g.node id))) : Bounded (g.modifyNode id f) := by
  refine hb.extend (grown_modifyNode g id f) ?_ (fun _ hp => .inl ⟨hp, rfl⟩) (fun _ => .inl rfl)
    (fun _ hm => .inl hm) (fun _ hm => .inl hm)
  intro n
  rw [node_modifyNode g id f has]
  split
  · rename_i hn
    exact .inr (hn ▸ hf.mono (grown_modifyNode g id f))
  · exact .inl rfl

theorem Bounded.modifyProperty (hb : Bounded g) {id : PropertyId} {f : Property → Property}
    (has : HasProperty g id) (hf : PropertyBounded g (f (g.property id))) :
    Bounded (g.modifyProperty id f) := by
  refine hb.extend (grown_modifyProperty g id f) (fun _ => .inl rfl) ?_ (fun _ => .inl rfl)
    (fun _ hm => .inl hm) (fun _ hm => .inl hm)
  intro p hp
  rw [property_modifyProperty g id f has]
  split
  · rename_i hq
    exact .inr (hq ▸ hf.mono (grown_modifyProperty g id f))
  · exact .inl ⟨by simpa [HasProperty] using hp, rfl⟩

theorem Bounded.push_node (hb : Bounded g) {x : Node} (hx : NodeBounded g x) :
    Bounded { g with nodes := g.nodes.push x } := by
  refine hb.extend (grown_push_node g x) ?_ (fun _ hp => .inl ⟨hp, rfl⟩) (fun _ => .inl rfl)
    (fun _ hm => .inl hm) (fun _ hm => .inl hm)
  intro n
  rw [node_push]
  split
  · exact .inr (hx.mono (grown_push_node g x))
  · exact .inl rfl

theorem Bounded.push_directive (hb : Bounded g) {x : Directive} (hx : DirectiveBounded g x) :
    Bounded { g with directives := g.directives.push x } := by
  refine hb.extend (grown_push_directive g x) (fun _ => .inl rfl) (fun _ hp => .inl ⟨hp, rfl⟩) ?_
    (fun _ hm => .inl hm) (fun _ hm => .inl hm)
  intro d
  rw [directive_push]
  split
  · exact .inr (hx.mono (grown_push_directive g x))
  · exact .inl rfl

theorem Bounded.addChild (hb : Bounded g) (name : NodeName) {parent : NodeId} (hp : HasNode g parent) :
    Bounded (g.addChild name parent) := by
  have hnew : NodeBounded g { name, parent := some parent } := by
    constructor <;> simp [hp]
  have hpush := hb.push_node hnew
  refine hpush.modifyNode ((grown_push_node g _).has_node hp) { hpush.node parent with children := ?_ }
  intro c hc
  rcases List.mem_append.mp hc with hold | hlast
  · exact (hpush.node parent).children c hold
  · rw [List.mem_singleton.mp hlast]
    simp [HasNode, Graph.nextNode]

theorem Bounded.addOrphan (hb : Bounded g) : Bounded g.addOrphan := by
  have hpush := hb.push_node (x := {}) (by constructor <;> simp)
  refine hpush.extend ⟨Nat.le_refl _, Nat.le_refl _, Nat.le_refl _⟩ (fun _ => .inl rfl) (fun _ hp => .inl ⟨hp, rfl⟩)
    (fun _ => .inl rfl) ?_ (fun _ hm => .inl hm)
  intro n hn
  rcases List.mem_append.mp hn with hold | hlast
  · exact .inl hold
  · rw [List.mem_singleton.mp hlast]
    exact .inr (by simp [HasNode, Graph.nextNode])

theorem Bounded.bindLabel (hb : Bounded g) {id : NodeId} (m : LabelMark) (has : HasNode g id) :
    Bounded (g.bindLabel id m) := by
  refine hb.extend ⟨Nat.le_refl _, Nat.le_refl _, Nat.le_refl _⟩ (fun _ => .inl rfl) (fun _ hp => .inl ⟨hp, rfl⟩)
    (fun _ => .inl rfl) (fun _ hm => .inl hm) ?_
  intro e he
  rcases Table.mem_put he with rfl | hold
  · exact .inr has
  · exact .inl hold

theorem Bounded.addDirective (hb : Bounded g) {x : Directive} (hx : DirectiveBounded g x) :
    Bounded (g.addDirective x) := by
  have hpush := hb.push_directive hx
  unfold Graph.addDirective
  split
  · rename_i n hn
    refine hpush.modifyNode (hx.scope n hn) { hpush.node n with directives := ?_ }
    intro d hd
    rcases List.mem_append.mp hd with hold | hlast
    · exact (hpush.node n).directives d hold
    · rw [List.mem_singleton.mp hlast]
      simp [HasDirective, Graph.nextDirective]
  · exact hpush

theorem Bounded.dropChild (hb : Bounded g) {parent id : NodeId} {d : DirectiveId}
    (hp : HasNode g parent) (hi : HasNode g id) (hd : HasDirective g d) :
    Bounded (g.dropChild parent id d) := by
  have hfirst : Bounded (g.modifyNode parent fun n =>
      { n with
        children := n.children.erase id
        deletedChildren := n.deletedChildren ++ [⟨id, d⟩] }) := by
    refine hb.modifyNode hp { hb.node parent with
      children := fun c hc => (hb.node parent).children c (List.mem_of_mem_erase hc)
      deletedChildren := ?_ }
    intro r hr
    rcases List.mem_append.mp hr with hold | hlast
    · exact (hb.node parent).deletedChildren r hold
    · rw [List.mem_singleton.mp hlast]
      exact ⟨hi, hd⟩
  refine hfirst.modifyNode ((grown_modifyNode g parent _).has_node hi)
    { hfirst.node id with deletedBy := ?_ }
  intro e he
  rw [← Option.some.inj he]
  exact hd

theorem Bounded.dropProperty (hb : Bounded g) {owner : NodeId} (name : String) {p : PropertyId}
    {d : DirectiveId} (ho : HasNode g owner) (hp : HasProperty g p) (hd : HasDirective g d) :
    Bounded (g.dropProperty owner name p d) := by
  have hfirst : Bounded (g.modifyNode owner fun n =>
      { n with
        properties := n.properties.erase name
        deletedProperties := n.deletedProperties ++ [⟨p, d⟩] }) := by
    refine hb.modifyNode ho { hb.node owner with
      properties := fun e he => (hb.node owner).properties e (List.mem_filter.mp he).1
      deletedProperties := ?_ }
    intro r hr
    rcases List.mem_append.mp hr with hold | hlast
    · exact (hb.node owner).deletedProperties r hold
    · rw [List.mem_singleton.mp hlast]
      exact ⟨hp, hd⟩
  refine hfirst.modifyProperty hp { hfirst.property p hp with deletedBy := ?_ }
  intro e he
  rw [← Option.some.inj he]
  exact hd

theorem grown_setProperty (g : Graph) (owner : NodeId) (name : String) (values : List Value)
    (labels : List LabelMark) (site : Site) : Grown g (g.setProperty owner name values labels site) := by
  constructor <;> simp

theorem Bounded.setProperty (hb : Bounded g) {owner : NodeId} (name : String) (values : List Value)
    (labels : List LabelMark) (site : Site) (ho : HasNode g owner) :
    Bounded (g.setProperty owner name values labels site) := by
  have hg := grown_setProperty g owner name values labels site
  have hnext : HasProperty (g.setProperty owner name values labels site) g.nextProperty := by
    simp [HasProperty, Graph.nextProperty]
  refine hb.extend hg ?_ ?_ (fun d => .inl (by simp [Graph.directive]))
    (fun _ hm => .inl (by simpa using hm)) (fun _ hm => .inl (by simpa using hm))
  · intro n
    rw [node_setProperty g owner name values labels site ho]
    split
    · refine .inr { (hb.node n).mono hg with properties := ?_, history := ?_ }
      · intro e he
        rcases Table.mem_put he with rfl | hold
        · exact hnext
        · exact hg.has_property ((hb.node n).properties e hold)
      · intro p hp
        rcases List.mem_append.mp hp with hold | hlast
        · exact hg.has_property ((hb.node n).history p hold)
        · exact List.mem_singleton.mp hlast ▸ hnext
    · exact .inl rfl
  · intro q hq
    rw [property_setProperty g owner name values labels site (fun p hp => hb.live_property hp)]
    split
    · refine .inr ⟨hg.has_node ho, ?_, by simp, by simp⟩
      intro p hp
      exact hg.has_property (hb.live_property hp)
    · split
      · rename_i hlive
        refine .inr { (hb.property q (hb.live_property hlive)).mono hg with replacedBy := ?_ }
        intro p hp
        exact Option.some.inj hp ▸ hnext
      · rename_i hn _
        exact .inl ⟨has_property_of_ne_next (by simpa [HasProperty] using hq) hn, rfl⟩

end Preserved

end Devicetree.Proofs
