import Devicetree.Graph.Specifier

namespace Devicetree

structure RegBlock where
  address : Option UInt64
  size : Option UInt64
deriving DecidableEq, Repr, Inhabited

/-- Cuts a list into pieces of `n + 1` elements; the last one may be shorter. -/
def chunks {α : Type} (n : Nat) : List α → List (List α)
  | [] => []
  | a :: as => (a :: as.take n) :: chunks n (as.drop n)
termination_by as => as.length

namespace Graph

variable (g : Graph)

def appendCell? (acc : UInt64) (v : Value) : Option UInt64 :=
  (g.valueOf? v).map fun n => (acc <<< 32) ||| (n.toUInt64 &&& 0xffffffff)

/-- The number that one or two big-endian cells make up. -/
def combineCells? (cells : List Value) : Option UInt64 :=
  if cells.isEmpty || 2 < cells.length then none else cells.foldlM g.appendCell? 0

def regCells (id : NodeId) : Nat × Nat :=
  match g.parent? id with
  | some p => (g.cellCount p "#address-cells" 2, g.cellCount p "#size-cells" 1)
  | none => (2, 1)

def regBlocks (id : NodeId) : List RegBlock :=
  let (address, size) := g.regCells id
  match address + size with
  | 0 => []
  | n + 1 =>
    (chunks n ((g.flatProperty? id "reg").getD [])).map fun chunk =>
      ⟨g.combineCells? (chunk.take address), g.combineCells? (chunk.drop address)⟩

/-- The controller of a node's interrupts: the one that the nearest `interrupt-parent` refers to, else the
parent. -/
def interruptParent? (id : NodeId) : Option NodeId :=
  match (g.ancestors id).findSome? fun a => g.flatProperty? a "interrupt-parent" with
  | some values => values.head?.bind g.resolveReference?
  | none => g.parent? id

/-- The interrupts of a node: the groups of `interrupts-extended`, else `interrupts` cut into as many cells
as the controller asks for. -/
def interruptGroups (id : NodeId) : List Group :=
  match g.liveProperty? id "interrupts-extended" with
  | some extended => g.groups extended
  | none =>
    let controller := g.interruptParent? id
    let count := (controller.map fun c => g.cellCount c "#interrupt-cells" 1).getD 1
    let phandle := Value.path ((controller.map g.pathOf).getD "")
    (chunks (count - 1) ((g.flatProperty? id "interrupts").getD [])).map fun cells =>
      ⟨controller, "interrupt", phandle, cells⟩

def interruptCell? (id : NodeId) (index : Nat) (cell : String) : Option Int64 := do
  let group ← (g.interruptGroups id)[index]?
  let v ← g.groupCell? group "interrupt" cell
  g.valueOf? v

end Graph

end Devicetree
