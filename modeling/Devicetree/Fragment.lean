import Devicetree.NodeName
import Devicetree.Position
import Devicetree.Value

namespace Devicetree

/-- A node named from outside its parent's body. -/
inductive NodeRef where
  | label (name : String)
  | path (path : String)
deriving DecidableEq, Repr, Inhabited

def NodeRef.render : NodeRef → String
  | .label l => "&" ++ l
  | .path p => "&\x7b" ++ p ++ "\x7d"

structure LabelDecl where
  name : String
  span : Span := {}
deriving DecidableEq, Repr, Inhabited

inductive DeleteTarget where
  | name (name : NodeName)
  | ref (target : NodeRef)
deriving DecidableEq, Repr, Inhabited

def DeleteTarget.render : DeleteTarget → String
  | .name n => n.fullName
  | .ref r => r.render

structure PropertyDecl where
  name : String
  values : List Value := []
  labels : List LabelDecl := []
  nameSpan : Span := {}
  span : Span := {}
deriving Repr, Inhabited

/-- The head of a child node: all of it but its body. -/
structure ChildHead where
  name : NodeName
  labels : List LabelDecl := []
  nameSpan : Span := {}
  span : Span := {}
deriving DecidableEq, Repr, Inhabited

structure DeleteNode where
  target : DeleteTarget
  targetSpan : Span := {}
  span : Span := {}
deriving DecidableEq, Repr, Inhabited

structure DeleteProperty where
  name : String
  nameSpan : Span := {}
  span : Span := {}
deriving DecidableEq, Repr, Inhabited

inductive Item where
  | property (decl : PropertyDecl)
  | child (head : ChildHead) (body : List Item)
  | deleteNode (directive : DeleteNode)
  | deleteProperty (directive : DeleteProperty)
deriving Repr, Inhabited

/-- What a fragment does at top level: extend the root, extend a node named by reference, or delete one. -/
inductive Fragment.Content where
  | root (labels : List LabelDecl) (body : List Item) (span : Span)
  | reference (target : NodeRef) (labels : List LabelDecl) (body : List Item) (targetSpan span : Span)
  | delete (directive : DeleteNode)
deriving Repr, Inhabited

structure Fragment where
  file : FileId
  content : Fragment.Content
deriving Repr, Inhabited

namespace Fragment

def span (f : Fragment) : Span :=
  match f.content with
  | .root _ _ span => span
  | .reference _ _ _ _ span => span
  | .delete d => d.span

def location (f : Fragment) : Location := ⟨f.file, f.span⟩

end Fragment

def joinPath (parent child : String) : String :=
  if parent = "" ∨ parent = "/" then "/" ++ child else parent ++ "/" ++ child

end Devicetree
