import Devicetree.Proofs.Access

namespace Devicetree.Proofs

def bareMark (m : LabelMark) : LabelMark := { m with location := {} }

def bareDefinition (d : Definition) : Definition := { d with site := {} }

def bareEntry (e : LabelEntry) : LabelEntry := { e with location := {} }

def bareProperty (p : Property) : Property := { p with labels := p.labels.map bareMark, site := {} }

def bareDirective (d : Directive) : Directive := { d with site := {} }

/-- Also leaves out what contributed to the node if `anonymous`. -/
def bareNode (anonymous : Bool) (n : Node) : Node :=
  { n with
    definitions := if anonymous then [] else n.definitions.map bareDefinition
    referencedBy := if anonymous then [] else n.referencedBy.map bareDefinition
    labels := n.labels.map bareMark }

/-- The graph without locations, orders and issues, and without what contributed to the nodes in `anonymous`. -/
def bareGraph (anonymous : NodeId → Bool) (g : Graph) : Graph :=
  { g with
    nodes := g.nodes.mapIdx fun i n => bareNode (anonymous ⟨i⟩) n
    properties := g.properties.map bareProperty
    directives := g.directives.map bareDirective
    labels := { g.labels with declared := g.labels.declared.map bareEntry }
    issues := []
    fragments := [] }

section Reads
variable (anonymous : NodeId → Bool) (g : Graph)

theorem node_bare (id : NodeId) : (bareGraph anonymous g).node id = bareNode (anonymous id) (g.node id) := by
  obtain ⟨i⟩ := id
  simp only [Graph.node, bareGraph, Array.getD_eq_getD_getElem?, Array.getElem?_mapIdx]
  cases g.nodes[i]? with
  | none => cases anonymous ⟨i⟩ <;> rfl
  | some n => rfl

theorem property_bare (id : PropertyId) : (bareGraph anonymous g).property id = bareProperty (g.property id) := by
  simp only [Graph.property, bareGraph, Array.getD_eq_getD_getElem?, Array.getElem?_map]
  cases g.properties[id.index]? <;> rfl

/-- What contributed to a node and the places of its labels apart, the bare form reads as the node does. -/
theorem view_bare {α : Type} (view : Node → α) (hv : ∀ b n, view (bareNode b n) = view n) (id : NodeId) :
    view ((bareGraph anonymous g).node id) = view (g.node id) := by
  rw [node_bare, hv]

@[simp] theorem name_bare (id : NodeId) : ((bareGraph anonymous g).node id).name = (g.node id).name :=
  view_bare anonymous g Node.name (fun _ _ => rfl) id

@[simp] theorem parent_bare (id : NodeId) : (bareGraph anonymous g).parent? id = g.parent? id :=
  view_bare anonymous g Node.parent (fun _ _ => rfl) id

@[simp] theorem children_bare (id : NodeId) : (bareGraph anonymous g).children id = g.children id :=
  view_bare anonymous g Node.children (fun _ _ => rfl) id

@[simp] theorem deletedBy_bare (id : NodeId) :
    ((bareGraph anonymous g).node id).deletedBy = (g.node id).deletedBy :=
  view_bare anonymous g Node.deletedBy (fun _ _ => rfl) id

@[simp] theorem live_property_bare (id : NodeId) (name : String) :
    (bareGraph anonymous g).liveProperty? id name = g.liveProperty? id name :=
  view_bare anonymous g (fun n => n.properties.get? name) (fun _ _ => rfl) id

@[simp] theorem flat_values_bare (id : PropertyId) :
    (bareGraph anonymous g).flatValues id = g.flatValues id := by
  rw [Graph.flatValues, property_bare]
  rfl

@[simp] theorem next_node_bare : (bareGraph anonymous g).nextNode = g.nextNode := by
  simp [Graph.nextNode, bareGraph]

@[simp] theorem next_property_bare : (bareGraph anonymous g).nextProperty = g.nextProperty := by
  simp [Graph.nextProperty, bareGraph]

@[simp] theorem next_directive_bare : (bareGraph anonymous g).nextDirective = g.nextDirective := by
  simp [Graph.nextDirective, bareGraph]

@[simp] theorem bound_bare (l : String) :
    (bareGraph anonymous g).labels.nodeOf? l = g.labels.nodeOf? l := rfl

@[simp] theorem declared_path_bare (l : String) :
    (bareGraph anonymous g).labels.pathOf? l = g.labels.pathOf? l := by
  simp only [Labels.pathOf?, bareGraph, List.findSome?_map]
  rfl

@[simp] theorem ancestors_bare (id : NodeId) : (bareGraph anonymous g).ancestors id = g.ancestors id := by
  induction hi : id.index using Nat.strongRecOn generalizing id with
  | ind i ih =>
    rw [Graph.ancestors, Graph.ancestors, parent_bare]
    cases g.parent? id with
    | none => rfl
    | some p =>
      simp only
      split
      · rename_i hlt
        rw [ih p.index (hi ▸ hlt) p rfl]
      · rfl

@[simp] theorem live_bare (id : NodeId) : (bareGraph anonymous g).isLive id = g.isLive id := by
  simp [Graph.isLive]

@[simp] theorem child_by_name_bare (parent : NodeId) (wanted : NodeName) (strict : Bool) :
    (bareGraph anonymous g).childByName? parent wanted strict = g.childByName? parent wanted strict := by
  simp [Graph.childByName?, Graph.pick]

@[simp] theorem get_node_bare (path : String) : (bareGraph anonymous g).getNode? path = g.getNode? path := by
  simp [Graph.getNode?, Graph.getChild?]

@[simp] theorem find_target_bare (target : NodeRef) :
    (bareGraph anonymous g).findTarget? target = g.findTarget? target := by
  have hget : (bareGraph anonymous g).getNode? = g.getNode? := funext (get_node_bare anonymous g)
  cases target with
  | label l => simp only [Graph.findTarget?, bound_bare, live_bare, declared_path_bare, hget]
  | path p => exact get_node_bare anonymous g p

@[simp] theorem deletion_target_bare (scope : Option NodeId) (target : DeleteTarget) :
    (bareGraph anonymous g).deletionTarget? scope target = g.deletionTarget? scope target := by
  unfold Graph.deletionTarget?
  cases target with
  | name n => cases scope <;> simp
  | ref r => simp

end Reads

section Updates
variable (anonymous : NodeId → Bool) (g : Graph)

/-- An update of a node that its bare form follows. -/
theorem bare_modifyNode (id : NodeId) (f f' : Node → Node)
    (hf : ∀ n, bareNode (anonymous id) (f n) = f' (bareNode (anonymous id) n)) :
    bareGraph anonymous (g.modifyNode id f) = (bareGraph anonymous g).modifyNode id f' := by
  have hnodes : (g.nodes.modify id.index f).mapIdx (fun i n => bareNode (anonymous ⟨i⟩) n) =
      (g.nodes.mapIdx fun i n => bareNode (anonymous ⟨i⟩) n).modify id.index f' := by
    apply Array.ext_getElem?
    intro i
    simp only [Array.getElem?_mapIdx, Array.getElem?_modify]
    split
    · rename_i hi
      subst hi
      cases g.nodes[id.index]? with
      | none => rfl
      | some n => simp [hf]
    · rfl
  simp only [bareGraph, Graph.modifyNode, hnodes]

/-- An update of a node that its bare form does not show. -/
theorem bare_modifyNode_same (id : NodeId) (f : Node → Node)
    (hf : ∀ n, bareNode (anonymous id) (f n) = bareNode (anonymous id) n) :
    bareGraph anonymous (g.modifyNode id f) = bareGraph anonymous g := by
  have hid : ∀ xs : Array Node, xs.modify id.index (fun n => n) = xs := by
    intro xs
    apply Array.ext_getElem?
    intro i
    rw [Array.getElem?_modify]
    split <;> simp
  rw [bare_modifyNode anonymous g id f (fun n => n) hf, Graph.modifyNode, hid]

theorem bare_modifyProperty (id : PropertyId) (f : Property → Property)
    (hf : ∀ p, bareProperty (f p) = f (bareProperty p)) :
    bareGraph anonymous (g.modifyProperty id f) = (bareGraph anonymous g).modifyProperty id f := by
  have hproperties : (g.properties.modify id.index f).map bareProperty =
      (g.properties.map bareProperty).modify id.index f := by
    apply Array.ext_getElem?
    intro i
    simp only [Array.getElem?_map, Array.getElem?_modify]
    split
    · cases g.properties[i]? with
      | none => rfl
      | some p => simp [hf]
    · rfl
  simp only [bareGraph, Graph.modifyProperty, hproperties]

theorem bare_reportDeleted (options : BuildOptions) (what : String) (directive : Location)
    (locations : List Location) :
    bareGraph anonymous (g.reportDeleted options what directive locations) = bareGraph anonymous g := by
  unfold Graph.reportDeleted
  split <;> rfl

theorem bare_addChild (name : NodeName) (parent : NodeId) :
    bareGraph anonymous (g.addChild name parent) = (bareGraph anonymous g).addChild name parent := by
  rw [Graph.addChild, Graph.addChild, next_node_bare]
  refine (bare_modifyNode anonymous _ parent _ _ fun n => ?_).trans
    (congrArg (Graph.modifyNode · parent _) ?_)
  · rfl
  · simp [bareGraph, Array.mapIdx_push, bareNode]

theorem bare_addOrphan : bareGraph anonymous g.addOrphan = (bareGraph anonymous g).addOrphan := by
  simp [Graph.addOrphan, bareGraph, Array.mapIdx_push, bareNode, Graph.nextNode]

/-- A definition of an anonymous node leaves the bare form as it is. -/
theorem bare_addDefinition (id : NodeId) (kind : DefinitionKind) (site : Site) :
    bareGraph anonymous (g.addDefinition id kind site) =
      if anonymous id then bareGraph anonymous g else (bareGraph anonymous g).addDefinition id kind {} := by
  split
  · rename_i hid
    exact bare_modifyNode_same anonymous g id _ fun n => by simp [bareNode, hid]
  · rename_i hid
    exact bare_modifyNode anonymous g id _ _ fun n => by simp [bareNode, hid, bareDefinition]

theorem bare_addReference (id : NodeId) (site : Site) :
    bareGraph anonymous (g.addReference id site) =
      if anonymous id then bareGraph anonymous g else (bareGraph anonymous g).addReference id {} := by
  split
  · rename_i hid
    exact bare_modifyNode_same anonymous g id _ fun n => by simp [bareNode, hid]
  · rename_i hid
    exact bare_modifyNode anonymous g id _ _ fun n => by simp [bareNode, hid, bareDefinition]

theorem bare_addLabel (id : NodeId) (m : LabelMark) :
    bareGraph anonymous (g.addLabel id m) = (bareGraph anonymous g).addLabel id (bareMark m) :=
  bare_modifyNode anonymous g id _ _ fun n => by simp [bareNode]

theorem bare_bindLabel (id : NodeId) (m : LabelMark) :
    bareGraph anonymous (g.bindLabel id m) = (bareGraph anonymous g).bindLabel id (bareMark m) := rfl

theorem bare_addProperty (p : Property) :
    bareGraph anonymous (g.addProperty p) = (bareGraph anonymous g).addProperty (bareProperty p) := by
  rw [Graph.addProperty, Graph.addProperty, next_property_bare]
  refine (bare_modifyNode anonymous _ p.owner _ _ fun n => ?_).trans
    (congrArg (Graph.modifyNode · p.owner _) ?_)
  · rfl
  · simp [bareGraph]

theorem bare_addDirective (d : Directive) :
    bareGraph anonymous (g.addDirective d) = (bareGraph anonymous g).addDirective (bareDirective d) := by
  obtain ⟨kind, target, site, scope, removed⟩ := d
  cases scope with
  | none => simp [Graph.addDirective, bareGraph, bareDirective]
  | some scope =>
    simp only [Graph.addDirective, bareDirective, next_directive_bare]
    refine (bare_modifyNode anonymous _ scope _ _ fun n => ?_).trans
      (congrArg (Graph.modifyNode · scope _) ?_)
    · rfl
    · simp [bareGraph, bareDirective]

theorem bare_setProperty (owner : NodeId) (name : String) (values : List Value) (labels : List LabelMark)
    (site : Site) :
    bareGraph anonymous (g.setProperty owner name values labels site) =
      (bareGraph anonymous g).setProperty owner name values (labels.map bareMark) {} := by
  unfold Graph.setProperty
  rw [next_property_bare, live_property_bare]
  refine (bare_modifyNode anonymous _ owner _ _ fun n => ?_).trans
    (congrArg (Graph.modifyNode · owner _) ?_)
  · rfl
  · cases g.liveProperty? owner name with
    | none => exact bare_addProperty anonymous g _
    | some p =>
      refine (bare_modifyProperty anonymous _ p _ fun q => ?_).trans
        (congrArg (Graph.modifyProperty · p _) (bare_addProperty anonymous g _))
      rfl

theorem bare_dropChild (parent id : NodeId) (directive : DirectiveId) :
    bareGraph anonymous (g.dropChild parent id directive) =
      (bareGraph anonymous g).dropChild parent id directive := by
  unfold Graph.dropChild
  refine (bare_modifyNode anonymous _ id _ _ fun n => ?_).trans
    (congrArg (Graph.modifyNode · id _) (bare_modifyNode anonymous g parent _ _ fun n => ?_))
  · rfl
  · rfl

theorem bare_dropProperty (owner : NodeId) (name : String) (id : PropertyId) (directive : DirectiveId) :
    bareGraph anonymous (g.dropProperty owner name id directive) =
      (bareGraph anonymous g).dropProperty owner name id directive := by
  unfold Graph.dropProperty
  refine (bare_modifyProperty anonymous _ id _ fun p => ?_).trans
    (congrArg (Graph.modifyProperty · id _) (bare_modifyNode anonymous g owner _ _ fun n => ?_))
  · rfl
  · rfl

/-- A walk that creates what is missing, and where it ends. -/
theorem bare_ensure (id : NodeId) (names : List NodeName) :
    (bareGraph anonymous g).ensure id names =
      (bareGraph anonymous (g.ensure id names).1, (g.ensure id names).2) := by
  induction names generalizing g id with
  | nil => rfl
  | cons name names ih =>
    simp only [Graph.ensure, child_by_name_bare]
    cases g.childByName? id name false with
    | some child => exact ih g child
    | none =>
      simp only [next_node_bare, ← bare_addChild]
      exact ih (g.addChild name id) g.nextNode

theorem bare_ensureTarget (target : NodeRef) :
    (bareGraph anonymous g).ensureTarget? target =
      (g.ensureTarget? target).map fun r => (bareGraph anonymous r.1, r.2) := by
  have hpath : ∀ p, (bareGraph anonymous g).ensurePath? p =
      (g.ensurePath? p).map fun r => (bareGraph anonymous r.1, r.2) := by
    intro p
    unfold Graph.ensurePath?
    split
    · simp [bare_ensure]
    · rfl
  cases target with
  | path p => exact hpath p
  | label l =>
    simp only [Graph.ensureTarget?, bound_bare, live_bare, declared_path_bare]
    cases g.labels.nodeOf? l with
    | some id => cases hlive : g.isLive id <;> simp [hlive]
    | none => cases g.labels.pathOf? l <;> simp [hpath]

theorem bare_ensureChild (parent : NodeId) (name : NodeName) :
    (bareGraph anonymous g).ensureChild parent name =
      (bareGraph anonymous (g.ensureChild parent name).1, (g.ensureChild parent name).2) := by
  unfold Graph.ensureChild
  rw [child_by_name_bare, next_node_bare, ← bare_addChild]
  cases g.childByName? parent name true <;> rfl

/-- Phandles are derived from the bare form. -/
theorem bare_assignPhandles :
    bareGraph anonymous g.assignPhandles = (bareGraph anonymous g).assignPhandles := by
  have hderived : ∀ b n, (bareGraph anonymous g).derivedPhandle? (bareNode b n) = g.derivedPhandle? n := by
    intro b n
    simp only [Graph.derivedPhandle?, flat_values_bare]
    rfl
  have hnodes : (g.nodes.map fun n => { n with phandle := g.derivedPhandle? n }).mapIdx
        (fun i n => bareNode (anonymous ⟨i⟩) n) =
      (g.nodes.mapIdx fun i n => bareNode (anonymous ⟨i⟩) n).map
        fun n => { n with phandle := (bareGraph anonymous g).derivedPhandle? n } := by
    apply Array.ext_getElem?
    intro i
    simp only [Array.getElem?_mapIdx, Array.getElem?_map]
    cases g.nodes[i]? with
    | none => rfl
    | some n =>
      simp only [Option.map_some, hderived]
      rfl
  exact congrArg (fun nodes => { bareGraph anonymous g with nodes }) hnodes

theorem bare_finish (options : BuildOptions) :
    bareGraph anonymous (g.finish options) = (bareGraph anonymous g).assignPhandles := by
  rw [← bare_assignPhandles]
  unfold Graph.finish
  split <;> rfl

end Updates

end Devicetree.Proofs
