import Devicetree.Workspace

namespace Devicetree

inductive Action where
  | rebuild (fragments : List Fragment)
  | cancel
  | look
  | wait
  | openContext (evaluator : ConstEvaluator)
  | closeContext
deriving Inhabited

/-- An action on a context that starts at a time, in milliseconds. Building takes no time: a rebuild that starts at `t`
ends at `t` plus the debounce, or when it is cancelled before. -/
structure TimedAction where
  time : Nat
  context : ContextId
  action : Action
deriving Inhabited

inductive Outcome where
  | built (result : Except BuildError Snapshot)
  | seen (summary : HostSummary)
  | closed (wasOpen : Bool)
  | done
deriving Inhabited

namespace Timeline

structure Rebuild where
  ticket : Nat
  host : HostId
  generation : Nat
  due : Nat
  fragments : List Fragment
deriving Repr, Inhabited

structure Waiter where
  ticket : Nat
  host : HostId
deriving Repr, Inhabited

/-- The workspace, what is under way in it, and the outcomes so far by ticket. -/
structure State where
  workspace : Workspace
  rebuilds : List Rebuild := []
  waiters : List Waiter := []
  outcomes : Table Nat Outcome := {}
deriving Inhabited

def record (s : State) (ticket : Nat) (o : Outcome) : State :=
  { s with outcomes := s.outcomes.insert ticket o }

/-- Answers everyone who waits for a host that is stable now. -/
def wake (s : State) : State :=
  let (ready, waiting) := s.waiters.partition fun v => (s.workspace.host v.host).stable
  ready.foldl (fun s v => record s v.ticket (.seen (s.workspace.host v.host).summary))
    { s with waiters := waiting }

def abandon (s : State) (r : Rebuild) : State :=
  record { s with workspace := s.workspace.modifyHost r.host fun h => h.settle r.generation } r.ticket
    (.built (.error (.cancelled 0 r.fragments.length)))

def sweep (s : State) : State :=
  let (gone, left) := s.rebuilds.partition fun r => (s.workspace.host r.host).isCancelled r.generation
  wake (gone.foldl abandon { s with rebuilds := left })

def complete (s : State) (r : Rebuild) : State :=
  let w := s.workspace
  let (result, host) := (w.host r.host).finish w.config w.bindings r.generation r.fragments
  wake (record { s with workspace := w.modifyHost r.host fun _ => host } r.ticket (.built result))

/-- Ends the rebuilds whose quiet time is over, in the order of their ends. -/
def elapse (isDue : Nat → Bool) (s : State) : State :=
  let (ready, left) := s.rebuilds.partition fun r => isDue r.due
  (ready.mergeSort fun a b => decide (a.due ≤ b.due)).foldl complete { s with rebuilds := left }

def start (s : State) (ticket : Nat) (a : TimedAction) : State :=
  match a.action with
  | .openContext evaluator =>
    let (w, id) := s.workspace.openContext a.context evaluator
    sweep (record { s with workspace := w } ticket (.seen (w.host id).summary))
  | .closeContext =>
    let (w, wasOpen) := s.workspace.closeContext a.context
    sweep (record { s with workspace := w } ticket (.closed wasOpen))
  | .rebuild fragments =>
    let (w, id) := s.workspace.context a.context
    let w := w.modifyHost id Host.begin
    let r : Rebuild := ⟨ticket, id, (w.host id).generation, a.time + w.config.debounce, fragments⟩
    sweep { s with workspace := w, rebuilds := s.rebuilds ++ [r] }
  | .cancel =>
    let (w, id) := s.workspace.context a.context
    sweep (record { s with workspace := w.modifyHost id Host.cancelPending } ticket .done)
  | .look =>
    let (w, id) := s.workspace.context a.context
    record { s with workspace := w } ticket (.seen (w.host id).summary)
  | .wait =>
    let (w, id) := s.workspace.context a.context
    wake { s with workspace := w, waiters := s.waiters ++ [⟨ticket, id⟩] }

/-- Lets time pass up to an action and starts it. -/
def step (s : State) (a : TimedAction × Nat) : State :=
  start (elapse (fun due => decide (due ≤ a.1.time)) s) a.2 a.1

/-- Runs all actions in the order of their times, until nothing is under way. -/
def finalState (w : Workspace) (actions : List TimedAction) : State :=
  let timed := actions.zipIdx.mergeSort fun a b => decide (a.1.time ≤ b.1.time)
  elapse (fun _ => true) (timed.foldl step { workspace := w })

/-- The outcomes of all actions, in the order in which they are listed, and the workspace after them. -/
def run (w : Workspace) (actions : List TimedAction) : List Outcome × Workspace :=
  let s := finalState w actions
  ((List.range actions.length).map fun i => (s.outcomes.get? i).getD .done, s.workspace)

end Timeline

def Workspace.rebuild (w : Workspace) (c : ContextId) (fragments : List Fragment) :
    Outcome × Workspace :=
  let (outcomes, w) := Timeline.run w [⟨0, c, .rebuild fragments⟩]
  (outcomes.headD .done, w)

end Devicetree
