import Devicetree.Graph.Cursor
import Devicetree.Graph.Reference

namespace Devicetree

structure GotoTarget where
  location : Location
  path : String
deriving DecidableEq, Repr, Inhabited

namespace Editor

variable (g : Graph)

def nodeTargets (id : NodeId) : List GotoTarget :=
  (g.node id).contributions.map fun d => ⟨d.site.nameLocation, g.pathOf id⟩

def propertyTargets (id : PropertyId) : List GotoTarget :=
  (g.versionChain id).map fun v => ⟨(g.property v).site.nameLocation, g.pathOf (g.property id).owner⟩

/-- Where what is at a position is defined: the contributions to a node, the nodes that a property refers
to or else its versions, what a directive removed. -/
def gotoDefinition (file : FileId) (p : Position) : List GotoTarget :=
  match g.hitAt? file p with
  | none => []
  | some (.node id) => nodeTargets g id
  | some (.property id) =>
    match ((g.flatValues id).filter Value.isReference).filterMap g.resolveReference? with
    | [] => propertyTargets g id
    | nodes => nodes.flatMap (nodeTargets g)
  | some (.directive id) =>
    match (g.directive id).removed with
    | some (.node n) => nodeTargets g n
    | some (.property q) => propertyTargets g q
    | none => []

end Editor

end Devicetree
