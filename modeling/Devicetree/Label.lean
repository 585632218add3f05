import Devicetree.Edit
import Devicetree.Table

namespace Devicetree

/-- The number of a node in its graph. A 32-bit word holds it as long as the graph has at most 2^32 nodes. -/
structure NodeId where
  index : Nat
deriving DecidableEq, Repr, Inhabited

/-- A label as declared. The path is missing when the reference it stands on is not known yet. -/
structure LabelEntry where
  name : String
  location : Location
  path : Option String
  fromReference : Bool
deriving DecidableEq, Repr, Inhabited

/-- All declarations in source order, recorded before anything is merged, and the nodes that the labels are bound to by
now. -/
structure Labels where
  declared : List LabelEntry := []
  bound : Table String NodeId := {}
deriving Repr, Inhabited

namespace Labels

def pathOf? (labels : Labels) (name : String) : Option String :=
  labels.declared.findSome? fun e => if e.name = name then e.path else none

def nodeOf? (labels : Labels) (name : String) : Option NodeId := labels.bound.get? name

def declarations (labels : Labels) (name : String) : List LabelEntry :=
  labels.declared.filter fun e => decide (e.name = name)

def contains (labels : Labels) (name : String) : Bool := labels.declared.any fun e => decide (e.name = name)

def names (labels : Labels) : List String := (labels.declared.map LabelEntry.name).eraseDups

def bind (labels : Labels) (name : String) (node : NodeId) : Labels :=
  { labels with bound := labels.bound.insert name node }

def entries (marks : List LabelMark) (path : Option String) (fromReference : Bool) : List LabelEntry :=
  marks.map fun m => ⟨m.name, m.location, path, fromReference⟩

mutual

/-- The labels declared by a body item of the node at `path`. -/
def ofItem (file : FileId) (path : String) : Item → List LabelEntry
  | .child h body =>
    let childPath := joinPath path h.name.fullName
    entries (Edit.marks file h.labels) (some childPath) false ++ ofItems file childPath body
  | _ => []

def ofItems (file : FileId) (path : String) : List Item → List LabelEntry
  | [] => []
  | item :: items => ofItem file path item ++ ofItems file path items

end

def append (labels : Labels) (entries : List LabelEntry) : Labels :=
  { labels with declared := labels.declared ++ entries }

/-- Records the labels of one more fragment. A reference by label has the path known for that label so far;
without one, the labels in its body are not recorded. -/
def declare (labels : Labels) (f : Fragment) : Labels :=
  match f.content with
  | .root marks body _ =>
    labels.append (entries (Edit.marks f.file marks) (some "/") false ++ ofItems f.file "/" body)
  | .reference target marks body _ _ =>
    let path := match target with
      | .label l => labels.pathOf? l
      | .path p => some p
    let inner := match path with
      | some p => ofItems f.file p body
      | none => []
    labels.append (entries (Edit.marks f.file marks) path true ++ inner)
  | .delete _ => labels

/-- The labels of all fragments, none of them bound. -/
def ofFragments (fragments : List Fragment) : Labels := fragments.foldl declare {}

end Labels

end Devicetree
