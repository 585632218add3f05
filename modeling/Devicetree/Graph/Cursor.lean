import Devicetree.Graph.Lookup

namespace Devicetree

/-- An entity with text of its own. -/
inductive Hit where
  | node (id : NodeId)
  | property (id : PropertyId)
  | directive (id : DirectiveId)
deriving DecidableEq, Repr, Inhabited

namespace Graph

variable (g : Graph)

/-- The fragment at a position among those from number `index` on: the first that contains it, else the
last that starts before it, else `best`. -/
def fragmentAt (file : FileId) (p : Position) : Nat → Nat → List Location → Nat
  | best, _, [] => best
  | best, index, l :: ls =>
    if l.file ≠ file then fragmentAt file p best (index + 1) ls
    else if l.span.contains p then index
    else fragmentAt file p (if l.span.start ≤ p then index else best) (index + 1) ls

def orderOf (file : FileId) (p : Position) : Order := ⟨fragmentAt file p 0 0 g.fragments, p⟩

/-- The directives before a position are in scope there. -/
def scopeAt (file : FileId) (p : Position) : Scope :=
  fun d => decide ((g.directive d).site.order < g.orderOf file p)

/-- Every stretch of text that belongs to an entity: nodes first, then properties, then directives. -/
def stretches : List (Location × Hit) :=
  (g.nodeIds.flatMap fun id => (g.node id).allDefinitions.flatMap fun d =>
      [(d.site.location, .node id), (d.site.nameLocation, .node id)]) ++
    (g.propertyIds.map fun id => ((g.property id).site.location, .property id)) ++
    g.directiveIds.map fun id => ((g.directive id).site.location, .directive id)

/-- Keeps the deeper of two stretches: the new one if the best so far encloses it. -/
def deeper (best : Option (Location × Hit)) (s : Location × Hit) : Option (Location × Hit) :=
  match best with
  | some b => if b.1.span.encloses s.1.span then some s else some b
  | none => some s

/-- The entity with the deepest stretch of text at a position. -/
def hitAt? (file : FileId) (p : Position) : Option Hit :=
  ((g.stretches.filter fun s => s.1.contains file p).foldl deeper none).map (·.2)

/-- The node that an entity belongs to. A directive belongs to the node in whose body it stands; at top
level, to the parent of the node it removed. -/
def ownerOf? : Hit → Option NodeId
  | .node id => some id
  | .property id => some (g.property id).owner
  | .directive id =>
    let d := g.directive id
    d.scope <|>
      match d.removed with
      | some (.node n) => g.parent? n
      | _ => none

end Graph

end Devicetree
