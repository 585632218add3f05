import Devicetree.Graph.Lookup

namespace Devicetree.Graph

variable (g : Graph)

def evaluate? (e : Expr) : Option Int64 := g.evaluator.evaluate e

def valueOf? (v : Value) : Option Int64 := v.expr?.bind g.evaluate?

/-- The word with the value of a component that is an expression, unless it is negative. -/
def natOf? (v : Value) : Option Nat :=
  (g.valueOf? v).bind fun n => if 0 ≤ n.toInt then some n.toInt.toNat else none

def resolveLabel? (label : String) : Option NodeId := (g.labels.nodeOf? label).filter g.isLive

def labelsOf (id : NodeId) : List String := ((g.node id).labels.map LabelMark.name).eraseDups

def phandleHolders (value : UInt64) : List NodeId :=
  (g.descendants root).filter fun id => decide ((g.node id).phandle = some value)

def phandleHolder? (value : UInt64) : Option NodeId :=
  (g.descendants root).find? fun id => decide ((g.node id).phandle = some value)

/-- The node that a component refers to: by label, by path, or by phandle. An array of one cell refers to
what the cell refers to. -/
def resolveReference? : Value → Option NodeId
  | .label l => g.resolveLabel? l
  | .path p => g.getNode? p
  | .expr e => (g.natOf? (.expr e)).bind fun n => g.phandleHolder? (UInt64.ofNat n)
  | .cells [v] => resolveReference? v
  | _ => none

def subtreeLabels (id : NodeId) : List String := ((g.descendants id).flatMap g.labelsOf).eraseDups

/-- What `pick` finds in the live properties below and at `id`. -/
def collect (pick : Value → Option String) (id : NodeId) : List (PropertyId × String) :=
  (g.descendants id).flatMap fun n => (g.node n).properties.values.flatMap fun p =>
    (g.flatValues p).filterMap fun v => (pick v).map fun s => (p, s)

def labelReferences (id : NodeId) : List (PropertyId × String) :=
  g.collect (fun | .label l => some l | _ => none) id

def pathReferences (id : NodeId) : List (PropertyId × String) :=
  g.collect (fun | .path p => some p | _ => none) id

def compatibles (id : NodeId) : List String :=
  ((g.flatProperty? id "compatible").getD []).filterMap Value.str?

def isOkay (status : String) : Bool := status = "okay" || status = "ok"

/-- The node has no status, or one that says it is in use. -/
def isStatusOkay (id : NodeId) : Bool :=
  match g.stringProperty? id "status" with
  | some status => isOkay status
  | none => (g.liveProperty? id "status").isNone

def wellKnown? (holder name : String) : Option NodeId := do
  let id ← g.getNode? holder
  let p ← g.liveProperty? id name <|> g.propertyByIdent? id (Identifier.ofName name)
  match ← (g.flatValues p).head? with
  | .str path => g.getNode? path <|> g.resolveLabel? path
  | v => g.resolveReference? v

def alias? (name : String) : Option NodeId := g.wellKnown? "/aliases" name

def chosen? (name : String) : Option NodeId := g.wellKnown? "/chosen" name

def nodesWithCompatible (compatible : String) : List NodeId :=
  (g.descendants root).filter fun id => (g.compatibles id).any fun c => decide (c = compatible)

/-- The type of a node below a parent of the given type: the one that the parent's bus dictates, else the
one that the node's bindings say. -/
def typeBelow? (parentType : Option NodeType) (id : NodeId) : Option NodeType :=
  let bus := parentType.bind NodeType.bus
  let dictated := parentType.bind fun t => bus.bind t.childType?
  dictated <|> g.bindings.resolve? (g.compatibles id) bus

def resolvedType? (id : NodeId) : Option NodeType :=
  (g.ancestors id).foldr (fun a parentType => g.typeBelow? parentType a) none

end Devicetree.Graph
