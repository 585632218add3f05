import Devicetree.Graph

namespace Devicetree.Graph

variable (g : Graph)

def parent? (id : NodeId) : Option NodeId := (g.node id).parent

def children (id : NodeId) : List NodeId := (g.node id).children

/-- The node, its parent, and so on to the top. A parent is older than its children. -/
def ancestors (id : NodeId) : List NodeId :=
  id ::
    match g.parent? id with
    | some p => if p.index < id.index then ancestors p else []
    | none => []
termination_by id.index

def isLive (id : NodeId) : Bool := (g.ancestors id).all fun a => (g.node a).deletedBy.isNone

/-- Visits the nodes on a stack and their live descendants, at most `fuel` nodes. -/
def visit : Nat → List NodeId → List NodeId
  | 0, _ => []
  | _ + 1, [] => []
  | n + 1, id :: stack => id :: visit n (g.children id ++ stack)

/-- The node and its live descendants, each before its children. -/
def descendants (id : NodeId) : List NodeId := g.visit g.nodes.size [id]

/-- The names from the top down to the node. A node without a parent has none. -/
def segments (id : NodeId) : List String :=
  (((g.ancestors id).takeWhile fun a => (g.parent? a).isSome).map fun a => (g.node a).fullName).reverse

/-- The absolute path: `/` for the root, and empty for a node outside the tree. -/
def pathOf (id : NodeId) : String :=
  if id = root then "/"
  else
    match g.segments id with
    | [] => ""
    | names => "/" ++ "/".intercalate names

/-- A property version and all that it replaces, newest first. -/
def olderVersions (id : PropertyId) : List PropertyId :=
  id ::
    match (g.property id).replaces with
    | some p => if p.index < id.index then olderVersions p else []
    | none => []
termination_by id.index

/-- A property version and all that replace it, oldest first. -/
def newerVersions (id : PropertyId) : List PropertyId :=
  id ::
    match (g.property id).replacedBy with
    | some p => if id.index < p.index ∧ p.index < g.properties.size then newerVersions p else []
    | none => []
termination_by g.properties.size - id.index

def versionChain (id : PropertyId) : List PropertyId :=
  g.newerVersions ((g.olderVersions id).getLastD id)

end Devicetree.Graph
