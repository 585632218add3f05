import Devicetree.Fragment

namespace Devicetree.Proofs

inductive Tree where
  | node (name : NodeName) (properties : List (String × List Value)) (children : List Tree)

namespace Tree

def leaf (name : NodeName) : Tree := .node name [] []

def name : Tree → NodeName
  | .node name _ _ => name

def write (key : String) (values : List Value) : Tree → Tree
  | .node name properties children =>
    let written :=
      if properties.any fun e => decide (e.1 = key) then
        properties.map fun e => if e.1 = key then (key, values) else e
      else properties ++ [(key, values)]
    .node name written children

def erase (key : String) : Tree → Tree
  | .node name properties children =>
    .node name (properties.filter fun e => !decide (e.1 = key)) children

def merge (wanted : NodeName) (change : Tree → Tree) : Tree → Tree
  | .node name properties children =>
    let merged :=
      if children.any fun t => decide (t.name = wanted) then
        children.map fun t => if t.name = wanted then change t else t
      else children ++ [change (leaf wanted)]
    .node name properties merged

/-- Adding the child first, if it is missing, makes no difference to a merge into it. -/
theorem merge_merge (wanted : NodeName) (change : Tree → Tree) (t : Tree) :
    (t.merge wanted id).merge wanted change = t.merge wanted change := by
  obtain ⟨name, properties, children⟩ := t
  have hsame : children.map (fun t => if t.name = wanted then id t else t) = children := by simp
  by_cases h : children.any fun t => decide (t.name = wanted)
  · simp only [merge, h, if_true, hsame]
  · have hother : children.map (fun t => if t.name = wanted then change t else t) = children := by
      refine (List.map_congr_left fun t ht => ?_).trans (List.map_id children)
      rw [if_neg]
      · rfl
      · intro he
        exact h (List.any_eq_true.mpr ⟨t, ht, by simpa using he⟩)
    have hlast : (children ++ [leaf wanted]).any fun t => decide (t.name = wanted) := by
      simp [leaf, Tree.name]
    simp only [merge, h, Bool.false_eq_true, if_false, id, hlast, if_true, List.map_append, hother]
    simp [leaf, Tree.name]

def remove (wanted : NodeName) : Tree → Tree
  | .node name properties children =>
    .node name properties (children.filter fun t => !decide (t.name = wanted))

mutual

/-- What an item of a node's body does to the tree of the node. References are outside its reach. -/
def apply (t : Tree) : Item → Tree
  | .property d => t.write d.name d.values
  | .child head body => t.merge head.name fun c => applyAll c body
  | .deleteNode d =>
    match d.target with
    | .name wanted => t.remove wanted
    | .ref _ => t
  | .deleteProperty d => t.erase d.name

def applyAll (t : Tree) : List Item → Tree
  | [] => t
  | item :: items => applyAll (t.apply item) items

end

theorem apply_all_eq_foldl (t : Tree) (items : List Item) : t.applyAll items = items.foldl apply t := by
  induction items generalizing t with
  | nil => simp [applyAll]
  | cons item items ih => simp [applyAll, ih]

end Tree

mutual

/-- Neither the item nor one inside it deletes a node by reference. -/
def isLocal : Item → Bool
  | .property _ => true
  | .child _ body => allLocal body
  | .deleteNode d =>
    match d.target with
    | .name _ => true
    | .ref _ => false
  | .deleteProperty _ => true

def allLocal : List Item → Bool
  | [] => true
  | item :: items => isLocal item && allLocal items

end

def bodyOf (f : Fragment) : List Item :=
  match f.content with
  | .root _ body _ => body
  | .reference _ _ body _ _ => body
  | .delete _ => []

def extendsRoot (f : Fragment) : Bool :=
  match f.content with
  | .root _ body _ => allLocal body
  | .reference _ _ _ _ _ => false
  | .delete _ => false

end Devicetree.Proofs
