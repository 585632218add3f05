import Devicetree.Graph.Walk

namespace Devicetree

/-- Which directives are already in effect. -/
abbrev Scope := DirectiveId → Bool

/-- The nonempty segments of a path, as node names. -/
def pathNames (path : String) : List NodeName :=
  ((Text.splitAt '/' path.toList).filter fun s => !s.isEmpty).map fun s => NodeName.parse (String.ofList s)

def isAbsolute (path : String) : Bool := ['/'].isPrefixOf path.toList

namespace Graph

variable (g : Graph)

/-- The candidate with exactly the wanted name; if none has it, the search is not strict and no address
is wanted, the first with that name at any address. -/
def pick (candidates : List NodeId) (wanted : NodeName) (strict : Bool) : Option NodeId :=
  (candidates.find? fun id => decide ((g.node id).name = wanted)) <|>
    if strict || wanted.address.isSome then none
    else candidates.find? fun id => decide ((g.node id).name.name = wanted.name)

def childByName? (parent : NodeId) (wanted : NodeName) (strict : Bool) : Option NodeId :=
  g.pick (g.children parent) wanted strict

def startOf (origin : NodeId) (path : String) : NodeId := if isAbsolute path then root else origin

/-- The live node at `path`, seen from a node unless the path is absolute. -/
def getChild? (origin : NodeId) (path : String) (strict : Bool) : Option NodeId :=
  (pathNames path).foldlM (fun id name => g.childByName? id name strict) (startOf origin path)

def getNode? (path : String) : Option NodeId :=
  if isAbsolute path then g.getChild? root path false else none

/-- The child with a name while only the directives in scope are in effect. Children that others delete
come first. -/
def childInScope? (scope : Scope) (parent : NodeId) (wanted : NodeName) : Option NodeId :=
  let back := (g.node parent).deletedChildren.filter fun d => !scope d.directive
  g.pick (back.map DeletedChild.node) wanted false <|> g.childByName? parent wanted false

/-- The node at `path` while only the directives in scope are in effect. -/
def getChildInScope? (scope : Scope) (origin : NodeId) (path : String) : Option NodeId :=
  (pathNames path).foldlM (g.childInScope? scope) (startOf origin path)

def liveProperty? (id : NodeId) (name : String) : Option PropertyId := (g.node id).properties.get? name

/-- The property with a name while only the directives in scope are in effect. -/
def propertyInScope? (scope : Scope) (id : NodeId) (name : String) : Option PropertyId :=
  let back := (g.node id).deletedProperties.find? fun d =>
    !scope d.directive && decide ((g.property d.property).name = name)
  back.map DeletedProperty.property <|> g.liveProperty? id name

def propertyByIdent? (id : NodeId) (ident : String) : Option PropertyId :=
  ((g.node id).properties.entries.find? fun e => decide (Identifier.ofName e.1 = ident)).map (·.2)

def childByIdent? (id : NodeId) (ident : String) : Option NodeId :=
  (g.children id).find? fun c => decide (Identifier.ofName (g.node c).fullName = ident)

def propertyValues? (id : NodeId) (name : String) : Option (List Value) :=
  (g.liveProperty? id name).map fun p => (g.property p).values

/-- The components of a property version, arrays inline. -/
def flatValues (id : PropertyId) : List Value := Value.flatten (g.property id).values

def flatProperty? (id : NodeId) (name : String) : Option (List Value) :=
  (g.propertyValues? id name).map Value.flatten

/-- The first string of a live property; strings inside arrays do not count. -/
def stringProperty? (id : NodeId) (name : String) : Option String :=
  (g.propertyValues? id name).bind fun vs => vs.findSome? Value.str?

end Graph

end Devicetree
