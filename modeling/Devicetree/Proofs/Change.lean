import Devicetree.Proofs.Bounds
import Mathlib.Logic.Relation

namespace Devicetree.Proofs

/-- One elementary change, with what a merge makes sure of before it. -/
inductive Change : Graph → Graph → Prop
  | report (g : Graph) (log : IssueLog) : Change g { g with issues := log }
  | define (g : Graph) (id : NodeId) (kind : DefinitionKind) (site : Site)
      (has : HasNode g id) (kept : (g.node id).deletedBy = none) :
      Change g (g.addDefinition id kind site)
  | refer (g : Graph) (id : NodeId) (site : Site)
      (has : HasNode g id) (kept : (g.node id).deletedBy = none) :
      Change g (g.addReference id site)
  | hold (g : Graph) (id : NodeId) (m : LabelMark) (has : HasNode g id)
      (free : ∀ holder, g.labels.nodeOf? m.name = some holder → g.isLive holder = false) :
      Change g ((g.bindLabel id m).addLabel id m)
  | again (g : Graph) (id : NodeId) (m : LabelMark) (has : HasNode g id)
      (held : g.labels.nodeOf? m.name = some id) : Change g (g.addLabel id m)
  | child (g : Graph) (name : NodeName) (parent : NodeId) (has : HasNode g parent)
      (fresh : ∀ c ∈ g.children parent, (g.node c).name ≠ name) : Change g (g.addChild name parent)
  | orphan (g : Graph) : Change g g.addOrphan
  | property (g : Graph) (owner : NodeId) (name : String) (values : List Value)
      (labels : List LabelMark) (site : Site) (has : HasNode g owner) :
      Change g (g.setProperty owner name values labels site)
  | directive (g : Graph) (d : Directive) (bounded : DirectiveBounded g d) :
      Change g (g.addDirective d)
  | dropChild (g : Graph) (parent id : NodeId) (d : DirectiveId) (isParent : g.parent? id = some parent)
      (isChild : id ∈ g.children parent) (last : g.directives.size = d.index + 1)
      (removed : (g.directive d).removed = some (.node id)) : Change g (g.dropChild parent id d)
  | dropProperty (g : Graph) (owner : NodeId) (name : String) (p : PropertyId) (d : DirectiveId)
      (has : HasNode g owner) (current : g.liveProperty? owner name = some p)
      (last : g.directives.size = d.index + 1) (removed : (g.directive d).removed = some (.property p)) :
      Change g (g.dropProperty owner name p d)

abbrev Changes : Graph → Graph → Prop := Relation.ReflTransGen Change

theorem Change.grown {g g' : Graph} (h : Change g g') : Grown g g' := by
  cases h with
  | report | define | refer | hold | again | dropChild | dropProperty =>
    constructor <;> simp [Graph.addDefinition, Graph.addReference, Graph.addLabel, Graph.bindLabel,
      Graph.dropChild, Graph.dropProperty, Graph.modifyNode, Graph.modifyProperty]
  | child | orphan => constructor <;> simp [Graph.addChild, Graph.addOrphan, Graph.modifyNode]
  | property => exact grown_setProperty _ _ _ _ _ _
  | directive => constructor <;> simp

theorem Changes.grown {g g' : Graph} (h : Changes g g') : Grown g g' := by
  induction h with
  | refl => exact Grown.refl _
  | tail _ hc ih => exact ih.trans hc.grown

/-- Each elementary change stores only numbers of entities that are there by then. -/
theorem Bounded.change {g g' : Graph} (hb : Bounded g) (h : Change g g') : Bounded g' := by
  cases h with
  | report log =>
    exact hb.extend ⟨Nat.le_refl _, Nat.le_refl _, Nat.le_refl _⟩ (fun _ => .inl rfl)
      (fun _ hp => .inl ⟨hp, rfl⟩) (fun _ => .inl rfl) (fun _ hm => .inl hm) (fun _ hm => .inl hm)
  | define id _ _ has | refer id _ has | again id _ has =>
    exact hb.modifyNode has { hb.node id with }
  | hold id m has =>
    have hbound := hb.bindLabel m has
    exact hbound.modifyNode has { hbound.node id with }
  | child name _ has => exact hb.addChild name has
  | orphan => exact hb.addOrphan
  | property owner name values labels site has => exact hb.setProperty name values labels site has
  | directive _ bounded => exact hb.addDirective bounded
  | dropChild parent id d isParent isChild last =>
    exact hb.dropChild ((hb.node id).parent parent isParent)
      ((hb.node parent).children id isChild) (by simp [HasDirective, last])
  | dropProperty owner name p d has current last =>
    exact hb.dropProperty name has (hb.live_property current) (by simp [HasDirective, last])

end Devicetree.Proofs
