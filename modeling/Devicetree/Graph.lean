import Devicetree.Binding
import Devicetree.Expr.Eval
import Devicetree.Issue
import Devicetree.Label

namespace Devicetree

/-- The number of a property in its graph. A 32-bit word holds it as long as there are at most 2^32 properties. -/
structure PropertyId where
  index : Nat
deriving DecidableEq, Repr, Inhabited

/-- The number of a delete directive in its graph. A 32-bit word holds it as long as there are at most 2^32
directives. -/
structure DirectiveId where
  index : Nat
deriving DecidableEq, Repr, Inhabited

inductive DefinitionKind where
  | root
  | child
  | reference
deriving DecidableEq, Repr, Inhabited

structure Definition where
  kind : DefinitionKind
  site : Site
deriving DecidableEq, Repr, Inhabited

structure DeletedChild where
  node : NodeId
  directive : DirectiveId
deriving DecidableEq, Repr, Inhabited

structure DeletedProperty where
  property : PropertyId
  directive : DirectiveId
deriving DecidableEq, Repr, Inhabited

structure Node where
  name : NodeName := {}
  parent : Option NodeId := none
  /-- The children that are not deleted. -/
  children : List NodeId := []
  /-- The current version of each property that is not deleted. -/
  properties : Table String PropertyId := {}
  deletedChildren : List DeletedChild := []
  deletedProperties : List DeletedProperty := []
  definitions : List Definition := []
  referencedBy : List Definition := []
  labels : List LabelMark := []
  /-- Every version of every property ever declared on the node. -/
  history : List PropertyId := []
  /-- The directives written in the node's bodies. -/
  directives : List DirectiveId := []
  deletedBy : Option DirectiveId := none
  phandle : Option UInt64 := none
deriving Repr, Inhabited

namespace Node

def fullName (n : Node) : String := n.name.fullName

/-- Definitions, then references. -/
def allDefinitions (n : Node) : List Definition := n.definitions ++ n.referencedBy

/-- Definitions and references in processing order. -/
def contributions (n : Node) : List Definition :=
  n.allDefinitions.mergeSort fun a b => decide (a.site.order ≤ b.site.order)

end Node

structure Property where
  name : String
  owner : NodeId
  values : List Value := []
  labels : List LabelMark := []
  site : Site := {}
  replaces : Option PropertyId := none
  replacedBy : Option PropertyId := none
  deletedBy : Option DirectiveId := none
deriving Repr, Inhabited

/-- Neither superseded nor deleted. -/
def Property.isLive (p : Property) : Bool := p.replacedBy.isNone && p.deletedBy.isNone

inductive Removed where
  | node (id : NodeId)
  | property (id : PropertyId)
deriving DecidableEq, Repr, Inhabited

inductive DirectiveKind where
  | node
  | property
deriving DecidableEq, Repr, Inhabited

/-- A delete directive. Its scope is the node in whose body it stands; at top level it has none. -/
structure Directive where
  kind : DirectiveKind
  target : String
  site : Site := {}
  scope : Option NodeId := none
  removed : Option Removed := none
deriving Repr, Inhabited

def Directive.render (d : Directive) : String :=
  match d.kind with
  | .node => "/delete-node/ " ++ d.target ++ ";"
  | .property => "/delete-property/ " ++ d.target ++ ";"

/-- Nodes, properties and delete directives in the order in which they came up. Nothing is ever taken out, so that
superseded and deleted entities can still be asked about. -/
structure Graph where
  nodes : Array Node := #[{}]
  properties : Array Property := #[]
  directives : Array Directive := #[]
  /-- The nodes that stand in for references to nowhere. -/
  orphans : List NodeId := []
  labels : Labels := {}
  issues : IssueLog := []
  /-- Where each fragment is written, in processing order. -/
  fragments : List Location := []
  bindings : BindingProvider := default
  evaluator : ConstEvaluator := default
deriving Inhabited

namespace Graph

/-- The root is the first node of every graph. -/
def root : NodeId := ⟨0⟩

def node (g : Graph) (id : NodeId) : Node := g.nodes.getD id.index default

def property (g : Graph) (id : PropertyId) : Property := g.properties.getD id.index default

def directive (g : Graph) (id : DirectiveId) : Directive := g.directives.getD id.index default

def nodeIds (g : Graph) : List NodeId := (List.range g.nodes.size).map NodeId.mk

def propertyIds (g : Graph) : List PropertyId := (List.range g.properties.size).map PropertyId.mk

def directiveIds (g : Graph) : List DirectiveId := (List.range g.directives.size).map DirectiveId.mk

def modifyNode (g : Graph) (id : NodeId) (f : Node → Node) : Graph :=
  { g with nodes := g.nodes.modify id.index f }

def modifyProperty (g : Graph) (id : PropertyId) (f : Property → Property) : Graph :=
  { g with properties := g.properties.modify id.index f }

def report (g : Graph) (issue : Issue) : Graph := { g with issues := g.issues ++ [issue] }

def nextNode (g : Graph) : NodeId := ⟨g.nodes.size⟩

def nextProperty (g : Graph) : PropertyId := ⟨g.properties.size⟩

def nextDirective (g : Graph) : DirectiveId := ⟨g.directives.size⟩

/-- A new node, the last child of its parent. -/
def addChild (g : Graph) (name : NodeName) (parent : NodeId) : Graph :=
  { g with nodes := g.nodes.push { name, parent := some parent } }.modifyNode parent fun n =>
    { n with children := n.children ++ [g.nextNode] }

/-- A new nameless node outside the tree. -/
def addOrphan (g : Graph) : Graph :=
  { g with nodes := g.nodes.push {}, orphans := g.orphans ++ [g.nextNode] }

def addProperty (g : Graph) (p : Property) : Graph :=
  { g with properties := g.properties.push p }.modifyNode p.owner fun n =>
    { n with history := n.history ++ [g.nextProperty] }

def addDirective (g : Graph) (d : Directive) : Graph :=
  let g' := { g with directives := g.directives.push d }
  match d.scope with
  | some scope => g'.modifyNode scope fun n => { n with directives := n.directives ++ [g.nextDirective] }
  | none => g'

def summary (g : Graph) : String :=
  s!"Graph \x7b nodes: {g.nodes.size}, properties: {g.properties.size}, " ++
    s!"directives: {g.directives.size}, issues: {g.issues.length} \x7d"

def issuesFor (g : Graph) (file : FileId) : List Issue := IssueLog.forFile g.issues file

end Graph

end Devicetree
