import Mathlib.Data.List.Nodup
import Mathlib.Logic.Function.Basic
import Devicetree.Workspace
import Devicetree.Proofs.Access
import Devicetree.Proofs.RebuildSteps

namespace Devicetree.Proofs

/-- What is done through a context. Hosts are named by their numbers among those obtained through it, so a host
can still be used after it was replaced or closed. -/
inductive ContextOp where
  | openContext (evaluator : ConstEvaluator)
  | context
  | get
  | close
  | event (host : Nat) (e : HostEvent)
  | snapshot (host : Nat)
  | isStable (host : Nat)

inductive Shown where
  | host (number : Nat)
  | missing
  | closed (was : Bool)
  /-- The event happened; a call that knows by then what it returns has told so. -/
  | happened (returned : Option (Except BuildError Snapshot))
  /-- There is no such host, or the event cannot happen now. -/
  | refused
  | snapshot (published : Snapshot)
  | stable (is : Bool)

def Shown.ofEvent (e : HostEvent) (s : Session) : Shown :=
  match e with
  | .call k _ => .happened (s.calls[k]?.bind (·.phase.result?))
  | .begin _ | .cancel => .happened none

instance : Inhabited Session := ⟨{ host := default }⟩

def Session.cancel (s : Session) : Session := { s with host := s.host.cancelPending }

/-- A workspace in use: the calls of all hosts, and for each context the hosts obtained through it. -/
structure Desk where
  workspace : Workspace
  calls : HostId → List Call := fun _ => []
  known : ContextId → List HostId := fun _ => []

namespace Desk

def start (config : HostConfig) (bindings : BindingProvider) : Desk := { workspace := { config, bindings } }

def session (d : Desk) (id : HostId) : Session := ⟨d.workspace.host id, d.calls id⟩

def setSession (d : Desk) (id : HostId) (s : Session) : Desk :=
  { d with
    workspace := d.workspace.modifyHost id fun _ => s.host
    calls := Function.update d.calls id s.calls }

def receive (d : Desk) (c : ContextId) (result : Workspace × HostId) : Desk × Shown :=
  let (workspace, id) := result
  let known := if id ∈ d.known c then d.known c else d.known c ++ [id]
  ({ d with workspace, known := Function.update d.known c known }, .host (known.idxOf id))

def step (d : Desk) (c : ContextId) : ContextOp → Desk × Shown
  | .openContext evaluator => d.receive c (d.workspace.openContext c evaluator)
  | .context => d.receive c (d.workspace.context c)
  | .get =>
    match d.workspace.get? c with
    | some id => d.receive c (d.workspace, id)
    | none => (d, .missing)
  | .close =>
    let (workspace, was) := d.workspace.closeContext c
    ({ d with workspace }, .closed was)
  | .event k e =>
    match (d.known c)[k]? with
    | none => (d, .refused)
    | some id =>
      match (d.session id).step? d.workspace.config d.workspace.bindings e with
      | some s => (d.setSession id s, .ofEvent e s)
      | none => (d, .refused)
  | .snapshot k => (d, ((d.known c)[k]?).elim .refused fun id => .snapshot (d.workspace.host id).published)
  | .isStable k => (d, ((d.known c)[k]?).elim .refused fun id => .stable (d.workspace.host id).stable)

def run : Desk → List (ContextId × ContextOp) → List (ContextId × Shown)
  | _, [] => []
  | d, (c, op) :: ops => (c, (d.step c op).2) :: run (d.step c op).1 ops

end Desk

def seenThrough (c : ContextId) (trace : List (ContextId × Shown)) : List Shown :=
  (trace.filter fun entry => entry.1 = c).map (·.2)

structure Own where
  current : Option Nat := none
  sessions : List Session := []

namespace Own

def cancel (o : Own) : Own :=
  match o.current with
  | some k => { o with sessions := o.sessions.modify k Session.cancel }
  | none => o

def opened (o : Own) (bindings : BindingProvider) (evaluator : ConstEvaluator) : Own × Shown :=
  ({ current := some o.sessions.length, sessions := o.cancel.sessions ++ [Session.start bindings evaluator] },
    .host o.sessions.length)

/-- The context as if it were alone. -/
def step (config : HostConfig) (bindings : BindingProvider) (o : Own) : ContextOp → Own × Shown
  | .openContext evaluator => o.opened bindings evaluator
  | .context =>
    match o.current with
    | some k => (o, .host k)
    | none => o.opened bindings (Defines.evaluator {})
  | .get => (o, o.current.elim .missing .host)
  | .close => ({ o.cancel with current := none }, .closed o.current.isSome)
  | .event k e =>
    match o.sessions[k]? with
    | none => (o, .refused)
    | some s =>
      match s.step? config bindings e with
      | some s => ({ o with sessions := o.sessions.set k s }, .ofEvent e s)
      | none => (o, .refused)
  | .snapshot k => (o, (o.sessions[k]?).elim .refused fun s => .snapshot s.host.published)
  | .isStable k => (o, (o.sessions[k]?).elim .refused fun s => .stable s.host.stable)

theorem shut_of_none {o : Own} (h : o.current = none) : { o.cancel with current := none } = o := by
  cases o
  cases h
  rfl

def run (config : HostConfig) (bindings : BindingProvider) : Own → List ContextOp → List Shown
  | _, [] => []
  | o, op :: ops => (o.step config bindings op).2 :: run config bindings (o.step config bindings op).1 ops

end Own

namespace Desk

def own (d : Desk) (c : ContextId) : Own :=
  { current := (d.workspace.get? c).map (d.known c).idxOf, sessions := (d.known c).map d.session }

@[simp] theorem length_own_sessions (d : Desk) (c : ContextId) :
    (d.own c).sessions.length = (d.known c).length := by
  simp [own]

theorem getElem?_own_sessions (d : Desk) (c : ContextId) (k : Nat) :
    (d.own c).sessions[k]? = (d.known c)[k]?.map d.session := by
  simp [own]

/-- No host is known through two contexts, and every open host is known through its own. -/
structure Apart (d : Desk) : Prop where
  nodup : ∀ c, (d.known c).Nodup
  disjoint : ∀ c c', c ≠ c' → ∀ id ∈ d.known c, id ∉ d.known c'
  current : ∀ c, ∀ id ∈ d.workspace.get? c, id ∈ d.known c
  exist : ∀ c, ∀ id ∈ d.known c, id.index < d.workspace.hosts.size
  quiet : ∀ id, d.workspace.hosts.size ≤ id.index → d.calls id = []

structure Affects (c : ContextId) (d d' : Desk) (mine : Own) : Prop where
  apart : Apart d'
  mine : d'.own c = mine
  others : ∀ c', c' ≠ c → d'.own c' = d.own c'
  config : d'.workspace.config = d.workspace.config
  bindings : d'.workspace.bindings = d.workspace.bindings

theorem Affects.refl {d : Desk} (h : Apart d) (c : ContextId) : Affects c d d (d.own c) :=
  ⟨h, rfl, fun _ _ => rfl, rfl, rfl⟩

theorem Affects.trans {c : ContextId} {d d' d'' : Desk} {mine mine' : Own} (h : Affects c d d' mine)
    (h' : Affects c d' d'' mine') : Affects c d d'' mine' :=
  ⟨h'.apart, h'.mine, fun c' hc => (h'.others c' hc).trans (h.others c' hc), h'.config.trans h.config,
    h'.bindings.trans h.bindings⟩

/-- A context whose hosts stay as they are, and with them which one is open, has what it had. -/
theorem own_congr {d d' : Desk} {c : ContextId} (hget : d'.workspace.get? c = d.workspace.get? c)
    (hknown : d'.known c = d.known c) (hsession : ∀ id ∈ d.known c, d'.session id = d.session id) :
    d'.own c = d.own c := by
  simp only [own, hget, hknown, List.map_congr_left hsession]

section Sessions
variable {d : Desk} {c : ContextId} {id : HostId} {k : Nat}

theorem session_setSession (hid : id.index < d.workspace.hosts.size) (s : Session) (other : HostId) :
    (d.setSession id s).session other = if other = id then s else d.session other := by
  have hindex : other.index = id.index ↔ other = id := by
    cases other
    cases id
    simp
  simp only [session, setSession, Workspace.host, Workspace.modifyHost, getD_modify _ _ _ _ _ hid, hindex,
    Function.update_apply]
  split <;> rfl

theorem Apart.setSession (h : Apart d) (hid : id.index < d.workspace.hosts.size) (s : Session) :
    Apart (d.setSession id s) where
  nodup := h.nodup
  disjoint := h.disjoint
  current := h.current
  exist c other hm := by simpa [Desk.setSession, Workspace.modifyHost] using h.exist c other hm
  quiet other hsize := by
    simp only [Desk.setSession, Workspace.modifyHost, Array.size_modify] at hsize ⊢
    have hne : other ≠ id := by
      rintro rfl
      omega
    rw [Function.update_of_ne hne]
    exact h.quiet other hsize

theorem setSession_affects (h : Apart d) (hk : (d.known c)[k]? = some id) (s : Session) :
    Affects c d (d.setSession id s) { d.own c with sessions := (d.own c).sessions.set k s } := by
  have hm : id ∈ d.known c := List.mem_of_getElem? hk
  have hid := h.exist c id hm
  refine ⟨h.setSession hid s, ?_, ?_, rfl, rfl⟩
  · have hsessions : (d.known c).map (d.setSession id s).session = ((d.known c).map d.session).set k s := by
      obtain ⟨hlt, rfl⟩ := List.getElem?_eq_some_iff.mp hk
      refine List.ext_getElem (by simp) fun j hj _ => ?_
      simp only [List.getElem_map, session_setSession hid, List.getElem_set, (h.nodup c).getElem_inj_iff,
        eq_comm]
    simp only [own, ← hsessions]
    rfl
  · intro c' hc
    refine own_congr rfl rfl fun other ho => ?_
    have hne : other ≠ id := by
      rintro rfl
      exact h.disjoint c c' hc.symm other hm ho
    rw [session_setSession hid, if_neg hne]

/-- Cancelling what is under way for a context is a step of its open host. -/
theorem cancelContext_eq (d : Desk) (c : ContextId) :
    { d with workspace := d.workspace.cancelContext c } =
      match d.workspace.get? c with
      | some id => d.setSession id (d.session id).cancel
      | none => d := by
  unfold Workspace.cancelContext
  cases hget : d.workspace.get? c with
  | none => rfl
  | some id =>
    have hhosts : d.workspace.hosts.modify id.index Host.cancelPending =
        d.workspace.hosts.modify id.index fun _ => (d.workspace.host id).cancelPending := by
      refine Array.ext (by simp) fun j hj _ => ?_
      simp only [Array.getElem_modify, Workspace.host]
      split
      · rename_i heq
        subst heq
        rw [Array.size_modify] at hj
        simp [hj]
      · rfl
    simp [setSession, session, Session.cancel, Workspace.modifyHost, hhosts]

theorem cancelContext_affects (h : Apart d) (c : ContextId) :
    Affects c d { d with workspace := d.workspace.cancelContext c } (d.own c).cancel := by
  rw [cancelContext_eq]
  unfold Own.cancel
  cases hget : d.workspace.get? c with
  | none =>
    simpa [own, hget] using Affects.refl h c
  | some id =>
    have hm : id ∈ d.known c := h.current c id hget
    have hk : (d.known c)[(d.known c).idxOf id]? = some id := List.getElem?_idxOf hm
    have hcurrent : (d.own c).current = some ((d.known c).idxOf id) := by simp [own, hget]
    have hsession : (d.own c).sessions[(d.known c).idxOf id]? = some (d.session id) := by simp [own, hk]
    simpa [hcurrent, List.modify_eq_set, hsession] using setSession_affects h hk (d.session id).cancel

def opened (d : Desk) (c : ContextId) (host : Host) : Desk :=
  let id : HostId := ⟨d.workspace.hosts.size⟩
  { d with
    workspace := { d.workspace with
      hosts := d.workspace.hosts.push host
      contexts := d.workspace.contexts.insert c id }
    known := Function.update d.known c (d.known c ++ [id]) }

theorem Apart.not_known (h : Apart d) (c : ContextId) : ⟨d.workspace.hosts.size⟩ ∉ d.known c := by
  intro hm
  exact Nat.lt_irrefl _ (h.exist c _ hm)

theorem Apart.session_opened (h : Apart d) (c : ContextId) (host : Host) (id : HostId) :
    (d.opened c host).session id = if id = ⟨d.workspace.hosts.size⟩ then ⟨host, []⟩ else d.session id := by
  have hindex : id.index = d.workspace.hosts.size ↔ id = ⟨d.workspace.hosts.size⟩ := by
    cases id
    simp
  simp only [session, opened, Workspace.host, getD_push, hindex]
  split
  · rename_i heq
    rw [h.quiet id (by simp [heq])]
  · rfl

theorem mem_known_opened {host : Host} {c' : ContextId} :
    id ∈ (d.opened c host).known c' ↔ id ∈ d.known c' ∨ (c' = c ∧ id = ⟨d.workspace.hosts.size⟩) := by
  by_cases hc : c' = c
  · subst hc
    simp [Desk.opened]
  · simp [Desk.opened, hc]

theorem Apart.opened (h : Apart d) (c : ContextId) (host : Host) : Apart (d.opened c host) where
  nodup c' := by
    by_cases hc : c' = c
    · subst hc
      simpa [Desk.opened] using (List.nodup_concat _ _).mpr ⟨h.not_known c', h.nodup c'⟩
    · simpa [Desk.opened, hc] using h.nodup c'
  disjoint c₁ c₂ hne id h₁ h₂ := by
    rw [mem_known_opened] at h₁ h₂
    rcases h₁ with h₁ | ⟨rfl, rfl⟩
    · rcases h₂ with h₂ | ⟨rfl, rfl⟩
      · exact h.disjoint c₁ c₂ hne id h₁ h₂
      · exact h.not_known c₁ h₁
    · rcases h₂ with h₂ | ⟨rfl, -⟩
      · exact h.not_known c₂ h₂
      · exact hne rfl
  current c' id hget := by
    rw [mem_known_opened]
    by_cases hc : c' = c
    · subst hc
      exact .inr ⟨rfl, by simpa [Desk.opened, Workspace.get?, eq_comm] using hget⟩
    · exact .inl (h.current c' id (by simpa [Desk.opened, Workspace.get?, Ne.symm hc] using hget))
  exist c' id hm := by
    have hsize : (d.opened c host).workspace.hosts.size = d.workspace.hosts.size + 1 := by simp [Desk.opened]
    rcases mem_known_opened.mp hm with hm | ⟨-, rfl⟩
    · have := h.exist c' id hm
      omega
    · simp [hsize]
  quiet id hsize := by
    simp only [Desk.opened, Array.size_push] at hsize ⊢
    exact h.quiet id (by omega)

theorem opened_affects (h : Apart d) (c : ContextId) (host : Host) :
    Affects c d (d.opened c host)
      { current := some (d.own c).sessions.length, sessions := (d.own c).sessions ++ [⟨host, []⟩] } := by
  refine ⟨h.opened c host, ?_, ?_, rfl, rfl⟩
  · have hold : (d.known c).map (d.opened c host).session = (d.known c).map d.session := by
      refine List.map_congr_left fun id hm => ?_
      rw [h.session_opened, if_neg]
      rintro rfl
      exact h.not_known c hm
    have hget : (d.opened c host).workspace.get? c = some ⟨d.workspace.hosts.size⟩ := by
      simp [Desk.opened, Workspace.get?]
    have hknown : (d.opened c host).known c = d.known c ++ [⟨d.workspace.hosts.size⟩] := by simp [Desk.opened]
    simp only [own, hget, hknown, List.map_append, hold, List.map_singleton, h.session_opened, if_true,
      Option.map_some, List.idxOf_append_of_notMem (h.not_known c), List.length_map]
    simp
  · intro c' hc
    refine own_congr ?_ ?_ fun id hm => ?_
    · simp [Desk.opened, Workspace.get?, hc.symm]
    · simp [Desk.opened, hc]
    · rw [h.session_opened, if_neg]
      rintro rfl
      exact h.not_known c' hm

def shut (d : Desk) (c : ContextId) : Desk :=
  { d with workspace := { d.workspace with contexts := d.workspace.contexts.erase c } }

theorem get?_shut (d : Desk) (c c' : ContextId) :
    (d.shut c).workspace.get? c' = if c = c' then none else d.workspace.get? c' := by
  simp [shut, Workspace.get?]

theorem shut_affects (h : Apart d) (c : ContextId) :
    Affects c d (d.shut c) { d.own c with current := none } where
  apart :=
    { nodup := h.nodup
      disjoint := h.disjoint
      current := by
        intro c' id hget
        rw [get?_shut] at hget
        split at hget
        · cases hget
        · exact h.current c' id hget
      exist := h.exist
      quiet := h.quiet }
  mine := by
    simp only [own, get?_shut, if_true]
    rfl
  others c' hc := own_congr (by rw [get?_shut, if_neg hc.symm]) rfl fun _ _ => rfl
  config := rfl
  bindings := rfl

end Sessions

structure Acts (c : ContextId) (d : Desk) (whole : Desk × Shown) (alone : Own × Shown) : Prop where
  affects : Affects c d whole.1 alone.1
  seen : whole.2 = alone.2

section Steps
variable {d : Desk} {c : ContextId}

theorem receive_known {id : HostId} (hm : id ∈ d.known c) :
    d.receive c (d.workspace, id) = (d, .host ((d.known c).idxOf id)) := by
  simp [receive, hm]

theorem receive_openContext (h : Apart d) (evaluator : ConstEvaluator) :
    d.receive c (d.workspace.openContext c evaluator) =
      ({ d with workspace := d.workspace.cancelContext c }.opened c (Host.new d.workspace.bindings evaluator),
        .host (d.known c).length) := by
  have hsize : (d.workspace.cancelContext c).hosts.size = d.workspace.hosts.size := by
    unfold Workspace.cancelContext
    split <;> simp [Workspace.modifyHost]
  have hbindings : (d.workspace.cancelContext c).bindings = d.workspace.bindings :=
    (cancelContext_affects h c).bindings
  simp only [Workspace.openContext, receive, opened, h.not_known c, if_false, hsize, hbindings,
    List.idxOf_append_of_notMem (h.not_known c)]
  simp

theorem openContext_acts (h : Apart d) (evaluator : ConstEvaluator) :
    Acts c d (d.receive c (d.workspace.openContext c evaluator))
      ((d.own c).opened d.workspace.bindings evaluator) := by
  rw [receive_openContext h]
  have hcancel := cancelContext_affects h c
  have hopen := opened_affects hcancel.apart c (Host.new d.workspace.bindings evaluator)
  rw [hcancel.mine] at hopen
  have hlength : (d.own c).cancel.sessions.length = (d.own c).sessions.length := by
    unfold Own.cancel
    split <;> simp
  refine ⟨?_, by simp [Own.opened]⟩
  simpa [Own.opened, Session.start, hlength] using hcancel.trans hopen

theorem close_acts (h : Apart d) :
    Acts c d (d.step c .close) ((d.own c).step d.workspace.config d.workspace.bindings .close) := by
  cases hget : d.workspace.get? c with
  | none =>
    have hcurrent : (d.own c).current = none := by simp [own, hget]
    refine ⟨?_, ?_⟩
    · simpa [step, Workspace.closeContext, hget, Own.step, Own.shut_of_none hcurrent] using Affects.refl h c
    · simp [step, Workspace.closeContext, hget, Own.step, hcurrent]
  | some id =>
    have hcurrent : (d.own c).current.isSome = true := by simp [own, hget]
    have hcancel := cancelContext_affects h c
    have hshut := shut_affects hcancel.apart c
    rw [hcancel.mine] at hshut
    refine ⟨?_, ?_⟩
    · simpa [step, Workspace.closeContext, hget, Own.step, shut] using hcancel.trans hshut
    · simp [step, Workspace.closeContext, hget, Own.step, hcurrent]

theorem event_acts (h : Apart d) (k : Nat) (e : HostEvent) :
    Acts c d (d.step c (.event k e))
      ((d.own c).step d.workspace.config d.workspace.bindings (.event k e)) := by
  simp only [step, Own.step]
  rw [getElem?_own_sessions]
  cases hk : (d.known c)[k]? with
  | none => exact ⟨Affects.refl h c, rfl⟩
  | some id =>
    simp only [Option.map_some]
    cases hstep : (d.session id).step? d.workspace.config d.workspace.bindings e with
    | none => exact ⟨Affects.refl h c, rfl⟩
    | some s => exact ⟨setSession_affects h hk s, rfl⟩

/-- One step: what the context does and shows is decided by what it has of its own. -/
theorem step_acts (h : Apart d) (op : ContextOp) :
    Acts c d (d.step c op) ((d.own c).step d.workspace.config d.workspace.bindings op) := by
  have hcurrent : (d.own c).current = (d.workspace.get? c).map (d.known c).idxOf := rfl
  cases op with
  | openContext evaluator => exact openContext_acts h evaluator
  | context =>
    simp only [step, Own.step, Workspace.context, hcurrent]
    cases hget : d.workspace.get? c with
    | none => exact openContext_acts h (Defines.evaluator {})
    | some id =>
      rw [receive_known (h.current c id hget)]
      exact ⟨Affects.refl h c, rfl⟩
  | get =>
    simp only [step, Own.step, hcurrent]
    cases hget : d.workspace.get? c with
    | none => exact ⟨Affects.refl h c, rfl⟩
    | some id =>
      simp only [receive_known (h.current c id hget)]
      exact ⟨Affects.refl h c, rfl⟩
  | close => exact close_acts h
  | event k e => exact event_acts h k e
  | snapshot k =>
    refine ⟨Affects.refl h c, ?_⟩
    simp only [step, Own.step, getElem?_own_sessions]
    cases (d.known c)[k]? <;> rfl
  | isStable k =>
    refine ⟨Affects.refl h c, ?_⟩
    simp only [step, Own.step, getElem?_own_sessions]
    cases (d.known c)[k]? <;> rfl

end Steps

/-- A run: what is seen through a context is what it would show if it were alone. -/
theorem seenThrough_run (c : ContextId) (ops : List (ContextId × ContextOp)) (d : Desk) (h : Apart d) :
    seenThrough c (d.run ops) =
      (d.own c).run d.workspace.config d.workspace.bindings ((ops.filter fun op => op.1 = c).map (·.2)) := by
  induction ops generalizing d with
  | nil => rfl
  | cons op ops ih =>
    obtain ⟨c', op⟩ := op
    have hacts : Acts c' d (d.step c' op) _ := step_acts h op
    have hrest := ih (d.step c' op).1 hacts.affects.apart
    rw [hacts.affects.config, hacts.affects.bindings] at hrest
    by_cases hc : c' = c
    · subst hc
      rw [hacts.affects.mine] at hrest
      simp only [seenThrough] at hrest
      simp [seenThrough, run, Own.run, hacts.seen, hrest]
    · rw [hacts.affects.others c (Ne.symm hc)] at hrest
      simp only [seenThrough] at hrest
      simp [seenThrough, run, hc, hrest]

theorem start_apart (config : HostConfig) (bindings : BindingProvider) : Apart (start config bindings) where
  nodup _ := List.nodup_nil
  disjoint _ _ _ _ hm := by cases hm
  current _ _ hget := by cases hget
  exist _ _ hm := by cases hm
  quiet _ _ := rfl

end Desk

/-- What is seen through a context is the same when nothing is done through the others. -/
theorem contexts_isolated (config : HostConfig) (bindings : BindingProvider) (ops : List (ContextId × ContextOp))
    (c : ContextId) :
    seenThrough c ((Desk.start config bindings).run ops) =
      seenThrough c ((Desk.start config bindings).run (ops.filter fun op => op.1 = c)) := by
  have hstart := Desk.start_apart config bindings
  rw [Desk.seenThrough_run c ops _ hstart, Desk.seenThrough_run c _ _ hstart, List.filter_filter]
  simp

end Devicetree.Proofs
