import Devicetree.Accessor.Resolve
import Devicetree.Graph.Cursor

namespace Devicetree

structure Hover where
  contents : String
  location : Location
deriving DecidableEq, Repr, Inhabited

structure CallHover where
  contents : String
  range : Range
  resolved : Resolved
deriving Repr, Inhabited

namespace Editor

def fenced (language text : String) : String := "```" ++ language ++ "\n" ++ text ++ "\n```\n"

def quoted (text : String) : String := "`" ++ text ++ "`"

def paragraph (text : Option String) : String :=
  match text with
  | some t => "\n" ++ t ++ "\n"
  | none => ""

def propertyText (name : String) (values : List Value) : String :=
  match values with
  | [] => name ++ ";"
  | vs => name ++ " = " ++ ", ".intercalate (vs.map Value.render) ++ ";"

variable (g : Graph)

def deletionText (directive : Option DirectiveId) : Option String :=
  directive.map fun d => "**Deleted by** " ++ quoted (g.directive d).render

def nodeHover (id : NodeId) : String :=
  let n := g.node id
  let path := g.pathOf id
  let labels := (g.labelsOf id).map quoted
  let hasStatus := (g.liveProperty? id "status").isSome || !g.isStatusOkay id
  fenced "devicetree" (if path = "" then "<unresolved>" else path) ++
    paragraph (if labels.isEmpty then none else some ("**Labels:** " ++ ", ".intercalate labels)) ++
    paragraph (((g.resolvedType? id).bind NodeType.compatible).map fun c => "**Binding:** " ++ quoted c) ++
    paragraph (if hasStatus then some ("**Status:** " ++ quoted ((g.stringProperty? id "status").getD "?"))
      else none) ++
    paragraph (n.phandle.map fun p => "**Phandle:** " ++ quoted (toString p.toNat)) ++
    paragraph (deletionText g n.deletedBy)

def overrideText (p : Property) : Option String :=
  if p.replacedBy.isSome then
    (g.liveProperty? p.owner p.name).map fun live =>
      "**Overridden:** " ++ quoted (propertyText p.name (g.property live).values)
  else none

def referenceLines (values : List Value) : List String :=
  ((Value.flatten values).filter Value.isReference).filterMap fun v =>
    (g.resolveReference? v).map fun target => "- " ++ quoted v.render ++ " → " ++ quoted (g.pathOf target)

def propertyHover (id : PropertyId) : String :=
  let p := g.property id
  let lines := referenceLines g p.values
  fenced "devicetree" (propertyText p.name p.values) ++
    paragraph (some ("Node: " ++ quoted (g.pathOf p.owner))) ++
    paragraph (deletionText g p.deletedBy <|> overrideText g p) ++
    paragraph (if lines.isEmpty then none else some ("**References:**\n" ++ "\n".intercalate lines))

def directiveHover (id : DirectiveId) : String :=
  let d := g.directive id
  let removed := match d.removed with
    | some (.node n) => "Removes " ++ quoted (g.pathOf n)
    | some (.property p) =>
      "Removes " ++ quoted (g.property p).name ++ " from " ++ quoted (g.pathOf (g.property p).owner)
    | none => "Target does not exist"
  fenced "devicetree" d.render ++ paragraph (some removed)

/-- The hover at a position. On a node it is about the first contribution that contains the position. -/
def hover? (file : FileId) (p : Position) : Option Hover :=
  match g.hitAt? file p with
  | some (.node id) => do
    let d ← (g.node id).contributions.find? fun d => d.site.location.contains file p
    return ⟨nodeHover g id, d.site.location⟩
  | some (.property id) => some ⟨propertyHover g id, (g.property id).site.location⟩
  | some (.directive id) => some ⟨directiveHover g id, (g.directive id).site.location⟩
  | none => none

def resolvedHover : Resolved → String
  | .node id => nodeHover g id
  | .value v source =>
    fenced "c" (v.render g) ++
      paragraph (source.map fun p =>
        "From " ++ quoted (g.property p).name ++ " of " ++ quoted (g.pathOf (g.property p).owner))

/-- The hover at an offset of C text: on the innermost call there that resolves. -/
def callHover? (env : Accessor.Surroundings) (depth : Nat) (source : String) (offset : Nat) : Option CallHover := do
  let (e, number) ← CallExpr.callAt? source offset
  (CallExpr.enclosing e.parts number).findSome? fun i => do
    let call ← e.part? i
    let r ← Accessor.resolvePart? g env depth e i
    return ⟨quoted call.text ++ "\n\n" ++ resolvedHover g r, call.range, r⟩

end Editor

end Devicetree
