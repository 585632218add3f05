import Devicetree.Fragment

namespace Devicetree

inductive Severity where
  | error
  | warning
  | info
  | hint
deriving DecidableEq, Repr, Inhabited

def Severity.level : Severity → Nat
  | .error => 1
  | .warning => 2
  | .info => 3
  | .hint => 4

/-- How an editor shows the text of an issue. -/
inductive IssueTag where
  | unnecessary
  | deprecated
deriving DecidableEq, Repr, Inhabited

inductive IssueKind where
  | duplicateNodeName
  | duplicatePropertyName
  | nodeDoesNotExist
  | propertyDoesNotExist
  | unableToResolveChildNode
  | labelAlreadyInUse
  | labelReassigned
  | duplicatePhandle
  | deletedByDirective
deriving DecidableEq, Repr, Inhabited

namespace IssueKind

def code : IssueKind → String
  | duplicateNodeName => "DUPLICATE_NODE_NAME"
  | duplicatePropertyName => "DUPLICATE_PROPERTY_NAME"
  | nodeDoesNotExist => "NODE_DOES_NOT_EXIST"
  | propertyDoesNotExist => "PROPERTY_DOES_NOT_EXIST"
  | unableToResolveChildNode => "UNABLE_TO_RESOLVE_CHILD_NODE"
  | labelAlreadyInUse => "LABEL_ALREADY_IN_USE"
  | labelReassigned => "LABEL_REASSIGNED"
  | duplicatePhandle => "DUPLICATE_PHANDLE"
  | deletedByDirective => "DELETED_BY_DIRECTIVE"

def severity : IssueKind → Severity
  | duplicateNodeName | nodeDoesNotExist | propertyDoesNotExist | unableToResolveChildNode
  | labelAlreadyInUse => .error
  | duplicatePropertyName | duplicatePhandle => .warning
  | labelReassigned | deletedByDirective => .hint

def all : List IssueKind :=
  [duplicateNodeName, duplicatePropertyName, nodeDoesNotExist, propertyDoesNotExist,
    unableToResolveChildNode, labelAlreadyInUse, labelReassigned, duplicatePhandle, deletedByDirective]

def ofCode? (code : String) : Option IssueKind := all.find? fun k => decide (k.code = code)

end IssueKind

inductive Fault where
  | duplicateNodeName (name : NodeName)
  | duplicatePropertyName (name : String)
  | nodeDoesNotExist (target : DeleteTarget)
  | propertyDoesNotExist (name : String)
  | unableToResolve (target : NodeRef)
  | labelAlreadyInUse (label holder : String)
  | labelReassigned (label : String)
  | duplicatePhandle (value : UInt64) (holder : String)
  | deleted (what : String)
deriving DecidableEq, Repr

namespace Fault

def kind : Fault → IssueKind
  | duplicateNodeName _ => .duplicateNodeName
  | duplicatePropertyName _ => .duplicatePropertyName
  | nodeDoesNotExist _ => .nodeDoesNotExist
  | propertyDoesNotExist _ => .propertyDoesNotExist
  | unableToResolve _ => .unableToResolveChildNode
  | labelAlreadyInUse _ _ => .labelAlreadyInUse
  | labelReassigned _ => .labelReassigned
  | duplicatePhandle _ _ => .duplicatePhandle
  | deleted _ => .deletedByDirective

def message : Fault → String
  | duplicateNodeName n => s!"duplicate node name '{n.fullName}'"
  | duplicatePropertyName n => s!"duplicate property name '{n}'"
  | nodeDoesNotExist t => s!"node '{t.render}' does not exist"
  | propertyDoesNotExist n => s!"property '{n}' does not exist"
  | unableToResolve t => s!"unable to resolve {t.render}"
  | labelAlreadyInUse l p => s!"label '{l}' is already in use by {p}"
  | labelReassigned l => s!"label '{l}' is already assigned to this node"
  | duplicatePhandle v p => s!"phandle 0x{Text.hex v.toNat} is already used by {p}"
  | deleted what => s!"{what} is deleted by a later directive"

end Fault

structure Issue where
  kind : IssueKind
  severity : Severity
  location : Location
  message : String
  tags : List IssueTag := []
  linkedTo : Option Location := none
deriving DecidableEq, Repr, Inhabited

namespace Issue

def new (kind : IssueKind) (location : Location) (message : String) : Issue :=
  { kind, severity := kind.severity, location, message }

def ofFault (fault : Fault) (location : Location) : Issue := new fault.kind location fault.message

/-- A hint on `what`, which the directive at `directive` deletes. -/
def deleted (location directive : Location) (what : String) : Issue :=
  { ofFault (.deleted what) location with tags := [.deprecated], linkedTo := some directive }

end Issue

/-- Issues in the order in which they were reported. -/
abbrev IssueLog := List Issue

namespace IssueLog

def forFile (log : IssueLog) (file : FileId) : List Issue := log.filter fun i => i.location.file = file

def count (log : IssueLog) (s : Severity) : Nat := (log.filter fun i => i.severity = s).length

def hasErrors (log : IssueLog) : Bool := log.any fun i => i.severity = .error

end IssueLog

end Devicetree
