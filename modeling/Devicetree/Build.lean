import Devicetree.Graph.Reference
import Devicetree.Merge

namespace Devicetree

structure BuildConfig where
  bindings : BindingProvider := default
  evaluator : ConstEvaluator := default
  options : BuildOptions := {}
deriving Inhabited

namespace Graph

def empty (bindings : BindingProvider) (evaluator : ConstEvaluator) : Graph := { bindings, evaluator }

def derivedPhandle? (g : Graph) (n : Node) : Option UInt64 := do
  let p ← n.properties.get? "phandle"
  let v ← (g.flatValues p).head?
  let value ← g.natOf? v
  return UInt64.ofNat value

def assignPhandles (g : Graph) : Graph :=
  { g with nodes := g.nodes.map fun n => { n with phandle := g.derivedPhandle? n } }

/-- The issues of the listed nodes whose phandle an earlier node holds, given the first holders so far. -/
def duplicatePhandles (g : Graph) : Table UInt64 NodeId → List NodeId → List Issue
  | _, [] => []
  | holders, id :: ids =>
    match (g.node id).phandle with
    | none => g.duplicatePhandles holders ids
    | some value =>
      match holders.get? value with
      | none => g.duplicatePhandles (holders.insert value id) ids
      | some first =>
        let location := ((g.liveProperty? id "phandle").map fun p => (g.property p).site.location).getD {}
        .ofFault (.duplicatePhandle value (g.pathOf first)) location ::
          g.duplicatePhandles holders ids

/-- Derives the phandles and reports those that several live nodes hold. -/
def finish (g : Graph) (options : BuildOptions) : Graph :=
  let g := g.assignPhandles
  if options.duplicatePhandles then
    { g with issues := g.issues ++ g.duplicatePhandles {} (g.descendants root) }
  else g

end Graph

namespace Build

/-- Merges the fragments from number `index` on. A build that is cancelled stops before the next fragment. -/
def mergeFrom (options : BuildOptions) (isCancelled : Nat → Bool) (total : Nat) :
    Nat → List Fragment → Merge.State → Except BuildError Merge.State
  | _, [], s => .ok s
  | index, f :: fs, s =>
    if isCancelled index then .error (.cancelled index total)
    else do
      let s ← Merge.run options s (Edit.ofFragment index f)
      mergeFrom options isCancelled total (index + 1) fs s

def start (config : BuildConfig) (fragments : List Fragment) : Merge.State :=
  { graph :=
    { Graph.empty config.bindings config.evaluator with
      labels := Labels.ofFragments fragments
      fragments := fragments.map Fragment.location } }

/-- The graph of the fragments, unless the build is seen to be cancelled before one of them. -/
def build (config : BuildConfig) (fragments : List Fragment) (isCancelled : Nat → Bool) :
    Except BuildError Graph := do
  let s ← mergeFrom config.options isCancelled fragments.length 0 fragments (start config fragments)
  return s.graph.finish config.options

end Build

end Devicetree
