import Devicetree.Host

namespace Devicetree

structure ContextId where
  number : Nat
deriving DecidableEq, Repr, Inhabited

/-- The number of a host among all that a workspace ever opened. -/
structure HostId where
  index : Nat
deriving DecidableEq, Repr, Inhabited

/-- Independent contexts that share only their settings and bindings. A host that is replaced or closed lives on for
those who still hold it. -/
structure Workspace where
  config : HostConfig := {}
  bindings : BindingProvider := default
  hosts : Array Host := #[]
  contexts : Table ContextId HostId := {}
deriving Inhabited

namespace Workspace

variable (w : Workspace)

def host (id : HostId) : Host := w.hosts.getD id.index default

def modifyHost (id : HostId) (f : Host → Host) : Workspace :=
  { w with hosts := w.hosts.modify id.index f }

def get? (c : ContextId) : Option HostId := w.contexts.get? c

def cancelContext (c : ContextId) : Workspace :=
  match w.get? c with
  | some id => w.modifyHost id Host.cancelPending
  | none => w

/-- Opens a context with a host of its own, in place of any it had. -/
def openContext (c : ContextId) (evaluator : ConstEvaluator) : Workspace × HostId :=
  let id : HostId := ⟨w.hosts.size⟩
  let w := w.cancelContext c
  ({ w with
      hosts := w.hosts.push (Host.new w.bindings evaluator)
      contexts := w.contexts.insert c id }, id)

/-- The host of a context, opened without defines if there is none. -/
def context (c : ContextId) : Workspace × HostId :=
  match w.get? c with
  | some id => (w, id)
  | none => w.openContext c (Defines.evaluator {})

/-- Closes a context; says whether it was open. -/
def closeContext (c : ContextId) : Workspace × Bool :=
  match w.get? c with
  | some _ =>
    let w := w.cancelContext c
    ({ w with contexts := w.contexts.erase c }, true)
  | none => (w, false)

def ids : List ContextId := w.contexts.keys.mergeSort fun a b => decide (a.number ≤ b.number)

def size : Nat := w.contexts.size

end Workspace

end Devicetree
