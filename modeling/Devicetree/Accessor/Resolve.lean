import Devicetree.Accessor.Form
import Devicetree.Accessor.Value
import Devicetree.CallExpr.Expand
import Devicetree.Graph.Register

namespace Devicetree

def unquote (text : String) : String :=
  match (Text.dropFront? ['"'] text.toList).bind (Text.dropEnd? ['"']) with
  | some inner => String.ofList inner
  | none => text

namespace Accessor

/-- What the C source around call expressions supplies: one level of expansion of the part of an expression with a
number, the numbers that texts stand for, and the texts that plain names stand for. -/
structure Surroundings where
  expand? : CallExpr → Nat → Option CallExpr
  evaluate? : String → Option Int64
  object? : String → Option String

/-- Surroundings that expand a part by what it is, whatever expression it is a part of. -/
structure Environment extends Surroundings where
  expand_part {e e' p : CallExpr} {i i' : Nat} (h : e.part? i = some p) (h' : e'.part? i' = some p) :
    expand? e i = expand? e' i'

def Surroundings.ofDefines (d : Defines) : Surroundings where
  expand? e i := (e.part? i).bind (CallExpr.expand? d)
  evaluate? := d.evaluateText
  object? := d.object?

def Environment.ofDefines (d : Defines) : Environment where
  toSurroundings := .ofDefines d
  expand_part h h' := by simp only [Surroundings.ofDefines, h, h']

instance : Coe Environment Surroundings := ⟨Environment.toSurroundings⟩

instance : Coe Defines Surroundings := ⟨Surroundings.ofDefines⟩

instance : Coe Defines Environment := ⟨Environment.ofDefines⟩

/-- The arguments of an accessor: as written, and what each of them means. -/
structure Args where
  exprs : List CallExpr
  resolve? : Nat → Option Resolved

namespace Args

variable (a : Args)

/-- An argument as written, without quotes. A call is not taken as text. -/
def raw? (i : Nat) : Option String :=
  match a.exprs[i]? with
  | some (.leaf .str text _) => some (unquote text)
  | some (.leaf _ text _) => some text
  | _ => none

def ident? (i : Nat) : Option String := (a.raw? i).map Identifier.ofName

def node? (i : Nat) : Option NodeId := (a.resolve? i).bind Resolved.node?

/-- The value of an argument as a number that counts from zero. -/
def index? (i : Nat) : Option Nat :=
  ((a.resolve? i).bind Resolved.int?).bind fun n => if 0 ≤ n.toInt then some n.toInt.toNat else none

/-- An argument to fall back on; an identifier or raw text without a meaning is a token. -/
def fallback? (i : Nat) : Option Resolved :=
  a.resolve? i <|>
    match a.exprs[i]? with
    | some (.leaf .ident text _) | some (.leaf .raw text _) => some (.ofValue (.token text))
    | _ => none

/-- The property that the second argument names on the node of the first. -/
def property? (g : Graph) : Option PropertyId := do
  let id ← a.node? 0
  let ident ← a.ident? 1
  g.propertyByIdent? id ident

/-- The number that a selector picks; names are looked up by `indexOf`. -/
def select? (indexOf : String → Option Nat) : Selector → Option Nat
  | .first => some 0
  | .index i => a.index? i
  | .name i => (a.raw? i).bind indexOf

end Args

def styled (style : TextStyle) (text : String) : AccessorValue :=
  match style with
  | .quoted => .str text
  | .unquoted => .token text
  | .token => .token (Identifier.token text)
  | .upperToken => .token (Identifier.upperToken text)

/-- The place of a name in a property that lists names. -/
def nameIndex? (g : Graph) (id : NodeId) (names wanted : String) : Option Nat :=
  (g.flatProperty? id names).bind fun vs => vs.findIdx? fun v => decide (v.str? = some wanted)

/-- The value of a property named by an identifier. A declared boolean that is absent is false. -/
def property? (g : Graph) (id : NodeId) (ident : String) : Option Resolved :=
  match g.propertyByIdent? id ident with
  | some p => some (.ofProperty (g.propertyValue p) p)
  | none => do
    let type ← g.resolvedType? id
    let (_, spec) ← type.propertyByIdent? ident
    if spec.kind = .boolean then some (.ofBool false) else none

/-- The literal of an enumeration that a component is. -/
def enumValue? (g : Graph) : Value → Option EnumValue
  | .str s => some (.str s)
  | .expr e => (g.evaluate? e).map EnumValue.int
  | _ => none

def target? (g : Graph) (p : PropertyId) (i : Nat) : Option NodeId := do
  let group ← (g.groups p)[i]?
  group.target

def groupTarget? (g : Graph) (a : Args) (pick : Selector) : Option NodeId := do
  let p ← a.property? g
  let i ← a.select? (g.groupIndex? p) pick
  target? g p i

def namedProperty? (g : Graph) (a : Args) : Option Resolved := do
  let id ← a.node? 0
  let ident ← a.ident? 1
  property? g id ident

def lengthOf (g : Graph) (p : PropertyId) : Resolved :=
  .ofProperty (.int (Int64.ofNat (g.propertyLength p))) p

def text? (g : Graph) (a : Args) (style : TextStyle) (byIndex : Bool) : Option Resolved := do
  let p ← a.property? g
  let i ← if byIndex then a.index? 2 else some 0
  let text ← ((g.flatValues p).filterMap Value.str?)[i]?
  return .ofProperty (styled style text) p

def enumIndex? (g : Graph) (a : Args) (i : Nat) : Option Resolved := do
  let id ← a.node? 0
  let p ← a.property? g
  let type ← g.resolvedType? id
  let spec ← type.property? (g.property p).name
  let v ← (g.flatValues p)[i]?
  let literal ← enumValue? g v
  let index ← spec.enumIndex? literal
  return .ofProperty (.int (Int64.ofNat index)) p

def cellOf? (g : Graph) (p : PropertyId) (i : Nat) (name : String) : Option Resolved := do
  let v ← g.specifierCell? p i name
  return .ofProperty (g.accessorValue v) p

def cell? (g : Graph) (a : Args) (group : Option Nat) (cell : Nat) : Option Resolved := do
  let p ← a.property? g
  let i ← group
  let name ← a.raw? cell
  cellOf? g p i name

def cellNamed? (g : Graph) (a : Args) : Option Resolved := do
  let p ← a.property? g
  let wanted ← a.raw? 2
  let i ← g.groupIndex? p wanted
  let name ← a.raw? 3
  cellOf? g p i name

def propertyThrough? (g : Graph) (a : Args) (group : Option Nat) (name : Nat) : Option Resolved := do
  let p ← a.property? g
  let i ← group
  let id ← target? g p i
  let ident ← a.ident? name
  let q ← g.propertyByIdent? id ident
  return .ofProperty (g.propertyValue q) q

/-- The meaning of a form applied to arguments. -/
def form? (g : Graph) (env : Surroundings) (a : Args) : Form → Option Resolved
  | .root => some (.node Graph.root)
  | .path => do
    let idents ← (List.range a.exprs.length).mapM a.ident?
    let id ← idents.foldlM g.childByIdent? Graph.root
    return .node id
  | .aliasNode => ((a.raw? 0).bind g.alias?).map .node
  | .nodeLabel => ((a.raw? 0).bind g.resolveLabel?).map .node
  | .child => do
    let id ← a.node? 0
    let ident ← a.ident? 1
    let child ← g.childByIdent? id ident
    return .node child
  | .parent => ((a.node? 0).bind g.parent?).map .node
  | .grandparent => (((a.node? 0).bind g.parent?).bind g.parent?).map .node
  | .inst => do
    let compatible ← a.ident? 1
    let i ← a.index? 0
    let id ← (g.instances compatible)[i]?
    return .node id
  | .driverInst => do
    let compatible ← env.object? "DT_DRV_COMPAT"
    let i ← a.index? 0
    let id ← (g.instances (Identifier.ofName compatible))[i]?
    return .node id
  | .anyOkay => do
    let compatible ← a.ident? 0
    let id ← (g.instances compatible).find? g.isStatusOkay
    return .node id
  | .chosen => ((a.raw? 0).bind g.chosen?).map .node
  | .bus => do
    let id ← a.node? 0
    let parent ← g.parent? id
    let type ← g.resolvedType? parent
    let _ ← type.bus
    return .node parent
  | .phandle pick => (groupTarget? g a pick).map .node
  | .sameNode => do
    let l ← a.node? 0
    let r ← a.node? 1
    return .ofBool (decide (l = r))
  | .nodeExists => some (.ofBool (a.node? 0).isSome)
  | .hasChosen => (a.raw? 0).map fun name => .ofBool (g.chosen? name).isSome
  | .onBus => do
    let id ← a.node? 0
    let parent ← g.parent? id
    let wanted ← a.ident? 1
    let bus := ((g.resolvedType? parent).bind NodeType.bus).map Identifier.ofName
    return .ofBool (decide (bus = some wanted))
  | .hasProperty => do
    let id ← a.node? 0
    let ident ← a.ident? 1
    return .ofBool (g.propertyByIdent? id ident).isSome
  | .hasCompatible => do
    let wanted ← a.ident? 1
    let id ← a.node? 0
    return .ofBool ((g.compatibles id).any fun c => decide (Identifier.ofName c = wanted))
  | .hasStatus => do
    let id ← a.node? 0
    let wanted ← a.raw? 1
    let status := (g.stringProperty? id "status").getD "okay"
    return .ofBool (decide (status = wanted) || (Graph.isOkay status && Graph.isOkay wanted))
  | .isOkay => (a.node? 0).map fun id => .ofBool (g.isStatusOkay id)
  | .hasOkay => (a.ident? 0).map fun c => .ofBool ((g.instances c).any g.isStatusOkay)
  | .countOkay => (a.ident? 0).map fun c => .ofCount ((g.instances c).filter g.isStatusOkay).length
  | .childCount => (a.node? 0).map fun id => .ofCount (g.children id).length
  | .okayChildCount =>
    (a.node? 0).map fun id => .ofCount ((g.children id).filter g.isStatusOkay).length
  | .fullName style => (a.node? 0).map fun id => .ofValue (styled style (g.node id).fullName)
  | .nodePath => (a.node? 0).map fun id => .ofValue (.str (g.pathOf id))
  | .property => namedProperty? g a
  | .propertyOr => namedProperty? g a <|> a.fallback? 2
  | .element => do
    let p ← a.property? g
    let i ← a.index? 2
    let v ← (g.elements p)[i]?
    return .ofProperty v p
  | .lastElement => do
    let p ← a.property? g
    let v ← (g.elements p).getLast?
    return .ofProperty v p
  | .length => do
    let p ← a.property? g
    return lengthOf g p
  | .lengthOr =>
    match a.property? g with
    | some p => some (lengthOf g p)
    | none => a.fallback? 2
  | .hasElement => do
    let i ← a.index? 2
    return .ofBool (decide (i < ((a.property? g).map g.propertyLength).getD 0))
  | .hasGroup => do
    let id ← a.node? 0
    let ident ← a.ident? 1
    let wanted ← a.raw? 2
    return .ofBool ((g.propertyByIdent? id ident).bind fun p => g.groupIndex? p wanted).isSome
  | .text style byIndex hasFallback =>
    let found := text? g a style byIndex
    if hasFallback then found <|> a.fallback? (2 + byIndex.toNat) else found
  | .enumIndex => enumIndex? g a 0
  | .enumIndexOr => enumIndex? g a 0 <|> a.fallback? 2
  | .enumIndexAt => do
    let i ← a.index? 2
    enumIndex? g a i
  | .enumIndexAtOr => (a.index? 2).bind (enumIndex? g a) <|> a.fallback? 3
  | .cell => cell? g a (some 0) 2
  | .cellOr => cell? g a (some 0) 2 <|> a.fallback? 3
  | .cellAt => cell? g a (a.index? 2) 3
  | .cellAtOr => cell? g a (a.index? 2) 3 <|> a.fallback? 4
  | .cellNamed => cellNamed? g a
  | .cellNamedOr => cellNamed? g a <|> a.fallback? 4
  | .propertyThrough => propertyThrough? g a (some 0) 2
  | .propertyThroughAt => propertyThrough? g a (a.index? 2) 3
  | .propertyThroughAtOr => propertyThrough? g a (a.index? 2) 3 <|> a.fallback? 4
  | .regCount => (a.node? 0).map fun id => .ofCount (g.regBlocks id).length
  | .hasReg => do
    let i ← a.index? 1
    let id ← a.node? 0
    return .ofBool (decide (i < (g.regBlocks id).length))
  | .reg part pick => do
    let id ← a.node? 0
    let i ← a.select? (nameIndex? g id "reg-names") pick
    let block ← (g.regBlocks id)[i]?
    let n ← match part with
      | .address => block.address
      | .size => block.size
    let v ← Word.ofInt? n.toNat
    let source ← g.liveProperty? id "reg"
    return .ofProperty (.int v) source
  | .irqCount => (a.node? 0).map fun id => .ofCount (g.interruptGroups id).length
  | .hasIrq => do
    let i ← a.index? 1
    let id ← a.node? 0
    return .ofBool (decide (i < (g.interruptGroups id).length))
  | .irq pick cell => do
    let id ← a.node? 0
    let i ← a.select? (nameIndex? g id "interrupt-names") pick
    let name ← match cell with
      | some arg => a.raw? arg
      | none => some "irq"
    let v ← g.interruptCell? id i name
    let source ← g.liveProperty? id "interrupts-extended" <|> g.liveProperty? id "interrupts"
    return .ofProperty (.int v) source

/-- The node that a generated identifier stands for: `DT_N`, then `_S_` and a name for each step down. -/
def nodeToken? (g : Graph) (text : String) : Option NodeId := do
  let rest ← Text.dropFront? "DT_N".toList text.toList
  if rest.isEmpty then return Graph.root
  let names ← Text.dropFront? "_S_".toList rest
  (Text.splitAtText "_S_".toList names).foldlM (fun id name => g.childByIdent? id (String.ofList name))
    Graph.root

/-- The long form of a shorthand for the instances of a driver: `DT_INST_X(i, …)` is short for
`DT_X(DT_DRV_INST(i), …)`. -/
def instanceForm? (name : String) (args : List CallExpr) : Option CallExpr := do
  let rest ← Text.dropFront? "DT_INST_".toList name.toList
  match CallExpr.texts args with
  | [] => none
  | inst :: others =>
    let long := ("DT_DRV_INST(" ++ inst ++ ")") :: others
    CallExpr.parse? ("DT_" ++ String.ofList rest ++ "(" ++ ", ".intercalate long ++ ")")

/-- The meaning of the call with the number `i` in the expression `e`, given what its arguments mean; `deeper` resolves
what it expands to. -/
def call? (g : Graph) (env : Surroundings) (deeper : CallExpr → Option Resolved) (e : CallExpr) (i : Nat)
    (name : String) (a : Args) : Option Resolved :=
  match Form.ofCall? name a.exprs.length with
  | some form => form? g env a form
  | none => (instanceForm? name a.exprs).bind deeper <|> (env.expand? e i).bind deeper

mutual

/-- The meaning of the part with the number `i` of the expression `e`; `deeper` resolves what parts expand to. -/
def resolveWith (g : Graph) (env : Surroundings) (deeper : CallExpr → Option Resolved) (e : CallExpr) (i : Nat) :
    CallExpr → Option Resolved
  | .leaf .ident name _ =>
    (nodeToken? g name).map .node <|> (env.evaluate? name).map .ofInt <|> (env.expand? e i).bind deeper
  | .leaf .number text _ => (Numeral.literal? text <|> env.evaluate? text).map .ofInt
  | .leaf .str text _ => some (.ofValue (.str (unquote text)))
  | .leaf .raw text _ => (env.evaluate? text).map .ofInt
  | .call name args _ => call? g env deeper e i name ⟨args, fun k => resolveArg g env deeper e (i + 1) args k⟩

def resolveArg (g : Graph) (env : Surroundings) (deeper : CallExpr → Option Resolved) (e : CallExpr) (next : Nat) :
    List CallExpr → Nat → Option Resolved
  | [], _ => none
  | a :: _, 0 => resolveWith g env deeper e next a
  | a :: as, k + 1 => resolveArg g env deeper e (next + a.size) as k

end

/-- The meaning of an expression when expansions may nest below the given depth. -/
def resolveWithin (g : Graph) (env : Surroundings) : Nat → CallExpr → Option Resolved
  | 0, _ => none
  | n + 1, e => resolveWith g env (resolveWithin g env n) e 0 e

/-- How deep expansions may nest unless said otherwise. -/
def defaultDepth : Nat := 32

/-- The meaning of an expression when expansions may nest to the given depth. -/
def resolve? (g : Graph) (env : Surroundings) (depth : Nat) (e : CallExpr) : Option Resolved :=
  resolveWithin g env (depth + 1) e

def resolvePart? (g : Graph) (env : Surroundings) (depth : Nat) (e : CallExpr) (i : Nat) : Option Resolved :=
  (e.part? i).bind (resolveWith g env (resolveWithin g env depth) e i)

def resolveText? (g : Graph) (env : Surroundings) (depth : Nat) (text : String) : Option Resolved :=
  (CallExpr.parse? text).bind (resolve? g env depth)

end Accessor

end Devicetree
