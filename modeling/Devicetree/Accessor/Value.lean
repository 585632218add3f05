import Devicetree.Graph.Specifier

namespace Devicetree

inductive AccessorValue where
  | int (n : Int64)
  | bool (b : Bool)
  | str (s : String)
  /-- A bare token. -/
  | token (s : String)
  | bytes (bytes : List UInt8)
  | node (id : NodeId)
  | array (items : List AccessorValue)
  /-- A cell without a value, as written. -/
  | expr (text : String)
deriving Repr, Inhabited

namespace AccessorValue

def braced (items : List String) : String := "\x7b" ++ ", ".intercalate items ++ "\x7d"

mutual

/-- The value as C text, with nodes as `nodeText` shows them. -/
def renderWith (nodeText : NodeId → String) : AccessorValue → String
  | .int n => toString n.toInt
  | .bool b => if b then "1" else "0"
  | .str s => "\"" ++ s ++ "\""
  | .token s => s
  | .bytes bs => braced (bs.map fun b => "0x" ++ Text.hexByte b)
  | .node id => nodeText id
  | .array items => braced (renderAllWith nodeText items)
  | .expr text => text

def renderAllWith (nodeText : NodeId → String) : List AccessorValue → List String
  | [] => []
  | v :: vs => v.renderWith nodeText :: renderAllWith nodeText vs

end

def render (g : Graph) (v : AccessorValue) : String := v.renderWith g.pathOf

def display (v : AccessorValue) : String := v.renderWith fun id => s!"node#{id.index}"

def int? : AccessorValue → Option Int64
  | .int n => some n
  | .bool b => some (Word.ofBool b)
  | _ => none

def node? : AccessorValue → Option NodeId
  | .node id => some id
  | _ => none

end AccessorValue

/-- The meaning of an expression: a node, or a value and the property that it was read from. -/
inductive Resolved where
  | node (id : NodeId)
  | value (v : AccessorValue) (source : Option PropertyId)
deriving Repr, Inhabited

namespace Resolved

def ofValue (v : AccessorValue) : Resolved := .value v none

def ofProperty (v : AccessorValue) (source : PropertyId) : Resolved := .value v (some source)

def ofInt (n : Int64) : Resolved := ofValue (.int n)

def ofBool (b : Bool) : Resolved := ofValue (.bool b)

def ofCount (n : Nat) : Resolved := ofInt (Int64.ofNat n)

/-- The node meant, also when it is the value of a reference. -/
def node? : Resolved → Option NodeId
  | .node id => some id
  | .value v _ => v.node?

def int? : Resolved → Option Int64
  | .node _ => none
  | .value v _ => v.int?

def source? : Resolved → Option PropertyId
  | .node _ => none
  | .value _ source => source

end Resolved

namespace Graph

variable (g : Graph)

mutual

def accessorValue : Value → AccessorValue
  | .str s => .str s
  | .expr e =>
    match g.evaluate? e with
    | some n => .int n
    | none => .expr e.render
  | .label l =>
    match g.resolveReference? (.label l) with
    | some id => .node id
    | none => .expr (Value.label l).render
  | .path p =>
    match g.resolveReference? (.path p) with
    | some id => .node id
    | none => .expr (Value.path p).render
  | .cells cs => .array (accessorValues cs)
  | .bytes bs => .bytes bs

def accessorValues : List Value → List AccessorValue
  | [] => []
  | v :: vs => accessorValue v :: accessorValues vs

end

/-- The elements of a component; bytes are elements of their own. -/
def elementsOf : Value → List AccessorValue
  | .bytes bs => bs.map fun b => .int (Int64.ofNat b.toNat)
  | v => [g.accessorValue v]

def elements (id : PropertyId) : List AccessorValue := (g.flatValues id).flatMap g.elementsOf

def kindOf? (id : PropertyId) : Option PropertyKind := do
  let p := g.property id
  let type ← g.resolvedType? p.owner
  let spec ← type.property? p.name
  return spec.kind

/-- The property lists references with cells: so declared, or without a declaration, it starts with a
reference and holds some number. -/
def isPhandleArray (id : PropertyId) : Bool :=
  match g.kindOf? id with
  | some kind => decide (kind = .phandleArray)
  | none =>
    let flat := g.flatValues id
    (flat.head?.map Value.isReference).getD false && flat.any Value.isExpr

def propertyLength (id : PropertyId) : Nat :=
  if g.isPhandleArray id then (g.groups id).length else (g.elements id).length

/-- The value of a whole property, shaped as its declared kind says. -/
def propertyValue (id : PropertyId) : AccessorValue :=
  match (g.property id).values with
  | [] => .bool true
  | [.bytes bs] => .bytes bs
  | _ =>
    let elements := g.elements id
    let isArray := ((g.kindOf? id).map PropertyKind.isArray).getD (decide (1 < elements.length))
    match isArray, elements with
    | false, [v] => v
    | _, vs => .array vs

/-- The nodes that list a compatible with the given identifier, those in use first. -/
def instances (compatible : String) : List NodeId :=
  let nodes := (g.descendants root).filter fun id =>
    (g.compatibles id).any fun c => decide (Identifier.ofName c = compatible)
  nodes.filter g.isStatusOkay ++ nodes.filter fun id => !g.isStatusOkay id

end Graph

end Devicetree
