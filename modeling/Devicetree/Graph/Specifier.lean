import Devicetree.Graph.Reference

namespace Devicetree

structure Group where
  target : Option NodeId
  space : String
  phandle : Value
  cells : List Value
deriving Repr, Inhabited

namespace Graph

variable (g : Graph)

def cellCount (id : NodeId) (property : String) (default : Nat) : Nat :=
  (((g.flatProperty? id property).bind List.head?).bind g.natOf?).getD default

/-- How many cells a reference to `id` is followed by in a specifier space. -/
def specifierCellCount (id : NodeId) (space : String) : Nat :=
  g.cellCount id ("#" ++ space ++ "-cells") 0

/-- The space that the owner's type declares for a property, else the one its name implies. -/
def specifierSpace (id : PropertyId) : String :=
  let p := g.property id
  let declared := do
    let type ← g.resolvedType? p.owner
    let spec ← type.property? p.name
    spec.specifierSpace
  declared.getD (specifierSpaceFor p.name)

/-- Splits cells into groups. A reference to nowhere ends the list, as its number of cells is unknown. -/
def splitGroups (space : String) : List Value → List Group
  | [] => []
  | v :: vs =>
    match g.resolveReference? v with
    | none => [⟨none, space, v, []⟩]
    | some target =>
      let count := g.specifierCellCount target space
      ⟨some target, space, v, vs.take count⟩ :: splitGroups space (vs.drop count)
termination_by vs => vs.length

def groups (id : PropertyId) : List Group := g.splitGroups (g.specifierSpace id) (g.flatValues id)

def groupIndex? (id : PropertyId) (name : String) : Option Nat := do
  let p := g.property id
  let names ← g.flatProperty? p.owner (namesPropertyFor p.name)
  names.findIdx? fun v => decide (v.str? = some name)

/-- The cell of a group that the target's type gives the name `cell` in the space `space`. -/
def groupCell? (group : Group) (space cell : String) : Option Value := do
  let target ← group.target
  let type ← g.resolvedType? target
  let names ← type.cellNames? space
  let index ← names.findIdx? fun n => decide (n = cell)
  group.cells[index]?

def specifierCell? (id : PropertyId) (index : Nat) (cell : String) : Option Value := do
  let group ← (g.groups id)[index]?
  g.groupCell? group group.space cell

end Graph

end Devicetree
