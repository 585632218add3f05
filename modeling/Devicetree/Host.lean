import Devicetree.Accessor.Resolve
import Devicetree.Build

namespace Devicetree

/-- Settings shared by all contexts; the debounce is the quiet time in milliseconds between an edit and the
rebuild that it causes. -/
structure HostConfig where
  debounce : Nat := 250
  maxDepth : Nat := Accessor.defaultDepth
  options : BuildOptions := {}
deriving DecidableEq, Repr, Inhabited

/-- A published graph and the generation of the rebuild that made it; the empty graph that a host starts
with has generation zero. -/
structure Snapshot where
  generation : Nat
  graph : Graph
deriving Inhabited

/-- Holds the published graph while rebuilds come and go. Every rebuild has a generation of its own, and only the latest
may publish. -/
structure Host where
  evaluator : ConstEvaluator
  published : Snapshot
  /-- The generation of the latest rebuild. -/
  generation : Nat := 0
  /-- The generation that a cancellation would hit. -/
  pending : Option Nat := none
  /-- The generations that were cancelled. -/
  cancelled : List Nat := []
  stable : Bool := true
deriving Inhabited

structure HostSummary where
  stable : Bool
  nodes : Nat
  issues : Nat
deriving DecidableEq, Repr, Inhabited

namespace Host

def new (bindings : BindingProvider) (evaluator : ConstEvaluator) : Host :=
  { evaluator, published := ⟨0, Graph.empty bindings evaluator⟩ }

def summary (h : Host) : HostSummary :=
  ⟨h.stable, h.published.graph.nodes.size, h.published.graph.issues.length⟩

def isCancelled (h : Host) (generation : Nat) : Bool := decide (generation ∈ h.cancelled)

def cancelPending (h : Host) : Host :=
  match h.pending with
  | some generation => { h with cancelled := generation :: h.cancelled }
  | none => h

/-- Starts a rebuild, which cancels the one before it. Its generation is the new latest one. -/
def begin (h : Host) : Host :=
  { h.cancelPending with
    generation := h.generation + 1
    pending := some (h.generation + 1)
    stable := false }

def publish? (h : Host) (generation : Nat) (graph : Graph) : Option Host :=
  if h.generation = generation then some { h with published := ⟨generation, graph⟩ } else none

/-- Ends a rebuild, however it went. The host is stable again if it was the latest. -/
def settle (h : Host) (generation : Nat) : Host :=
  if h.generation = generation then { h with pending := none, stable := true } else h

/-- Builds and publishes at the end of the quiet time. -/
def finish (h : Host) (config : HostConfig) (bindings : BindingProvider) (generation : Nat)
    (fragments : List Fragment) : Except BuildError Snapshot × Host :=
  let buildConfig : BuildConfig := ⟨bindings, h.evaluator, config.options⟩
  match Build.build buildConfig fragments fun _ => h.isCancelled generation with
  | .error e => (.error e, h.settle generation)
  | .ok graph =>
    match h.publish? generation graph with
    | some h => (.ok ⟨generation, graph⟩, h.settle generation)
    | none => (.error (.cancelled fragments.length fragments.length), h.settle generation)

end Host

end Devicetree
