import Devicetree.Edit
import Devicetree.Graph.Lookup

namespace Devicetree

/-- Which of the optional issues are reported. -/
structure BuildOptions where
  duplicatePhandles : Bool := true
  deletedEntities : Bool := true
deriving DecidableEq, Repr, Inhabited

inductive Violation where
  | detachedTop
  | notAChild (node parent : NodeId)
deriving DecidableEq, Repr, Inhabited

def Violation.message : Violation → String
  | .detachedTop => "detaching a node without parent"
  | .notAChild n p => s!"node NodeId({n.index}) is not a child of NodeId({p.index})"

inductive BuildError where
  | cancelled (processed total : Nat)
  | invariant (violation : Violation)
deriving DecidableEq, Repr, Inhabited

def BuildError.message : BuildError → String
  | .cancelled processed total => s!"rebuild cancelled after {processed} of {total} fragments"
  | .invariant v => s!"graph builder invariant violated: {v.message}"

namespace Graph

/-- The node that a reference names now. A label that is bound already names that node or none. -/
def findTarget? (g : Graph) : NodeRef → Option NodeId
  | .label l =>
    match g.labels.nodeOf? l with
    | some id => if g.isLive id then some id else none
    | none => (g.labels.pathOf? l).bind g.getNode?
  | .path p => g.getNode? p

/-- Walks down the names from a node and creates what is missing. -/
def ensure (g : Graph) (id : NodeId) : List NodeName → Graph × NodeId
  | [] => (g, id)
  | name :: names =>
    match g.childByName? id name false with
    | some child => g.ensure child names
    | none => (g.addChild name id).ensure g.nextNode names

/-- Walks down an absolute path and creates what is missing. -/
def ensurePath? (g : Graph) (path : String) : Option (Graph × NodeId) :=
  if isAbsolute path then some (g.ensure root (pathNames path)) else none

/-- The node that a reference names, created if the reference has a path. -/
def ensureTarget? (g : Graph) : NodeRef → Option (Graph × NodeId)
  | .label l =>
    match g.labels.nodeOf? l with
    | some id => if g.isLive id then some (g, id) else none
    | none => (g.labels.pathOf? l).bind g.ensurePath?
  | .path p => g.ensurePath? p

/-- The node that a reference names; an orphan, and an issue, if it names none. -/
def reach (g : Graph) (target : NodeRef) (site : Site) : Graph × NodeId :=
  match g.ensureTarget? target with
  | some found => found
  | none => ((g.report (.ofFault (.unableToResolve target) site.nameLocation)).addOrphan, g.nextNode)

def ensureChild (g : Graph) (parent : NodeId) (name : NodeName) : Graph × NodeId :=
  match g.childByName? parent name true with
  | some child => (g, child)
  | none => (g.addChild name parent, g.nextNode)

def addDefinition (g : Graph) (id : NodeId) (kind : DefinitionKind) (site : Site) : Graph :=
  g.modifyNode id fun n => { n with definitions := n.definitions ++ [⟨kind, site⟩] }

def addReference (g : Graph) (id : NodeId) (site : Site) : Graph :=
  g.modifyNode id fun n => { n with referencedBy := n.referencedBy ++ [⟨.reference, site⟩] }

def addLabel (g : Graph) (id : NodeId) (m : LabelMark) : Graph :=
  g.modifyNode id fun n => { n with labels := n.labels ++ [m] }

def bindLabel (g : Graph) (id : NodeId) (m : LabelMark) : Graph :=
  { g with labels := g.labels.bind m.name id }

/-- Puts a label on a node. A label moves away from a node that is no longer live; on another live node it
stays where it is. -/
def attachLabel (fromReference : Bool) (id : NodeId) (g : Graph) (m : LabelMark) : Graph :=
  match g.labels.nodeOf? m.name with
  | none => (g.bindLabel id m).addLabel id m
  | some holder =>
    if holder = id then
      let g := if fromReference then g else g.report (.ofFault (.labelReassigned m.name) m.location)
      g.addLabel id m
    else if g.isLive holder then
      g.report (.ofFault (.labelAlreadyInUse m.name (g.pathOf holder)) m.location)
    else (g.bindLabel id m).addLabel id m

def attachLabels (g : Graph) (id : NodeId) (labels : List LabelMark) (fromReference : Bool) : Graph :=
  labels.foldl (attachLabel fromReference id) g

/-- Declares a property; a live one of the same name is superseded and gives up its place. -/
def setProperty (g : Graph) (owner : NodeId) (name : String) (values : List Value)
    (labels : List LabelMark) (site : Site) : Graph :=
  let previous := g.liveProperty? owner name
  let id := g.nextProperty
  let g := g.addProperty { name, owner, values, labels, site, replaces := previous }
  let g := match previous with
    | some p => g.modifyProperty p fun p => { p with replacedBy := some id }
    | none => g
  g.modifyNode owner fun n => { n with properties := n.properties.insert name id }

/-- Hints on every given location that what was there is deleted. -/
def reportDeleted (g : Graph) (options : BuildOptions) (what : String) (directive : Location)
    (locations : List Location) : Graph :=
  if options.deletedEntities then
    { g with issues := g.issues ++ locations.map fun l => Issue.deleted l directive what }
  else g

/-- Moves a child of `parent` to the records of what directives took from it. -/
def dropChild (g : Graph) (parent id : NodeId) (directive : DirectiveId) : Graph :=
  (g.modifyNode parent fun n =>
    { n with
      children := n.children.erase id
      deletedChildren := n.deletedChildren ++ [⟨id, directive⟩] }).modifyNode id fun n =>
    { n with deletedBy := some directive }

/-- Takes a node away from its parent. -/
def detach (g : Graph) (options : BuildOptions) (id : NodeId) (directive : DirectiveId) :
    Except BuildError Graph :=
  match g.parent? id with
  | none => .error (.invariant .detachedTop)
  | some parent =>
    if id ∈ g.children parent then
      let g := g.dropChild parent id directive
      .ok (g.reportDeleted options s!"node '{(g.node id).fullName}'" (g.directive directive).site.location
        ((g.node id).allDefinitions.map fun d => d.site.location))
    else .error (.invariant (.notAChild id parent))

/-- The node that a directive in the body of `scope`, or at top level, names. A node without a parent
cannot be deleted. -/
def deletionTarget? (g : Graph) (scope : Option NodeId) (target : DeleteTarget) : Option NodeId :=
  let found := match target, scope with
    | .name n, some parent => g.childByName? parent n true
    | .name n, none => g.getNode? (joinPath "/" n.fullName)
    | .ref r, _ => g.findTarget? r
  found.filter fun id => (g.parent? id).isSome

def deleteNode (g : Graph) (options : BuildOptions) (scope : Option NodeId) (target : DeleteTarget)
    (site : Site) : Except BuildError Graph :=
  let found := g.deletionTarget? scope target
  let id := g.nextDirective
  let g := g.addDirective
    { kind := .node, target := target.render, site, scope, removed := found.map Removed.node }
  match found with
  | some n => g.detach options n id
  | none => .ok (g.report (.ofFault (.nodeDoesNotExist target) site.nameLocation))

/-- Moves the current version `id` of a property to the records of what directives took from its owner. -/
def dropProperty (g : Graph) (owner : NodeId) (name : String) (id : PropertyId)
    (directive : DirectiveId) : Graph :=
  (g.modifyNode owner fun n =>
    { n with
      properties := n.properties.erase name
      deletedProperties := n.deletedProperties ++ [⟨id, directive⟩] }).modifyProperty id fun p =>
    { p with deletedBy := some directive }

def deleteProperty (g : Graph) (options : BuildOptions) (owner : NodeId) (name : String) (site : Site) :
    Graph :=
  let found := g.liveProperty? owner name
  let id := g.nextDirective
  let g := g.addDirective
    { kind := .property, target := name, site, scope := some owner, removed := found.map Removed.property }
  match found with
  | none => g.report (.ofFault (.propertyDoesNotExist name) site.nameLocation)
  | some p =>
    let g := g.dropProperty owner name p id
    g.reportDeleted options s!"property '{name}'" site.location
      ((g.olderVersions p).map fun v => (g.property v).site.location)

end Graph

namespace Merge

structure Frame where
  node : NodeId
  properties : List String := []
  children : List NodeName := []
deriving Repr, Inhabited

/-- The graph so far and the open bodies, innermost first. -/
structure State where
  graph : Graph
  frames : List Frame := []
deriving Inhabited

def enter (s : State) (g : Graph) (id : NodeId) : State :=
  { s with graph := g, frames := { node := id } :: s.frames }

/-- Applies one edit. Edits that need an open body do nothing outside one. -/
def step (options : BuildOptions) (s : State) : Edit → Except BuildError State
  | .enterRoot labels site =>
    let g := s.graph.addDefinition Graph.root .root site
    .ok (enter s (g.attachLabels Graph.root labels false) Graph.root)
  | .enterReference target labels site =>
    let (g, id) := s.graph.reach target site
    .ok (enter s ((g.addReference id site).attachLabels id labels true) id)
  | .enterChild name labels site =>
    match s.frames with
    | [] => .ok s
    | f :: fs =>
      let g := if name ∈ f.children then
          s.graph.report (.ofFault (.duplicateNodeName name) site.nameLocation)
        else s.graph
      let (g, id) := g.ensureChild f.node name
      let s := { s with frames := { f with children := name :: f.children } :: fs }
      .ok (enter s ((g.addDefinition id .child site).attachLabels id labels false) id)
  | .leave => .ok { s with frames := s.frames.tail }
  | .property name values labels site =>
    match s.frames with
    | [] => .ok s
    | f :: fs =>
      let g := if name ∈ f.properties then
          s.graph.report (.ofFault (.duplicatePropertyName name) site.nameLocation)
        else s.graph
      .ok ⟨g.setProperty f.node name values labels site,
        { f with properties := name :: f.properties } :: fs⟩
  | .deleteNode target site => do
    let scope := s.frames.head?.map Frame.node
    let g ← s.graph.deleteNode options scope target site
    let frames := match target, s.frames with
      | .name n, f :: fs => { f with children := f.children.filter fun m => !decide (m = n) } :: fs
      | _, frames => frames
    return ⟨g, frames⟩
  | .deleteProperty name site =>
    match s.frames with
    | [] => .ok s
    | f :: fs =>
      .ok ⟨s.graph.deleteProperty options f.node name site,
        { f with properties := f.properties.filter fun m => !decide (m = name) } :: fs⟩

def run (options : BuildOptions) (s : State) (edits : List Edit) : Except BuildError State :=
  edits.foldlM (step options) s

end Merge

end Devicetree
