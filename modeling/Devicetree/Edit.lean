import Devicetree.Fragment

namespace Devicetree

structure LabelMark where
  name : String
  location : Location := {}
deriving DecidableEq, Repr, Inhabited

/-- Entering a node opens its body; all edits up to the matching `leave` belong to that body. -/
inductive Edit where
  | enterRoot (labels : List LabelMark) (site : Site)
  | enterReference (target : NodeRef) (labels : List LabelMark) (site : Site)
  | enterChild (name : NodeName) (labels : List LabelMark) (site : Site)
  | leave
  | property (name : String) (values : List Value) (labels : List LabelMark) (site : Site)
  | deleteNode (target : DeleteTarget) (site : Site)
  | deleteProperty (name : String) (site : Site)
deriving Repr, Inhabited

namespace Edit

def site (file : FileId) (index : Nat) (span nameSpan : Span) : Site :=
  ⟨⟨file, span⟩, ⟨file, nameSpan⟩, ⟨index, span.start⟩⟩

def marks (file : FileId) (labels : List LabelDecl) : List LabelMark :=
  labels.map fun l => ⟨l.name, ⟨file, l.span⟩⟩

mutual

def ofItem (file : FileId) (index : Nat) : Item → List Edit
  | .property d => [.property d.name d.values (marks file d.labels) (site file index d.span d.nameSpan)]
  | .child h body =>
    .enterChild h.name (marks file h.labels) (site file index h.span h.nameSpan) ::
      (ofItems file index body ++ [.leave])
  | .deleteNode d => [.deleteNode d.target (site file index d.span d.targetSpan)]
  | .deleteProperty d => [.deleteProperty d.name (site file index d.span d.nameSpan)]

def ofItems (file : FileId) (index : Nat) : List Item → List Edit
  | [] => []
  | item :: items => ofItem file index item ++ ofItems file index items

end

def ofFragment (index : Nat) (f : Fragment) : List Edit :=
  match f.content with
  | .root labels body span =>
    .enterRoot (marks f.file labels) (site f.file index span span) ::
      (ofItems f.file index body ++ [.leave])
  | .reference target labels body targetSpan span =>
    .enterReference target (marks f.file labels) (site f.file index span targetSpan) ::
      (ofItems f.file index body ++ [.leave])
  | .delete d => [.deleteNode d.target (site f.file index d.span d.targetSpan)]

/-- The edits of all fragments from number `index` on. -/
def ofFragments (index : Nat) : List Fragment → List Edit
  | [] => []
  | f :: fs => ofFragment index f ++ ofFragments (index + 1) fs

end Edit

end Devicetree
