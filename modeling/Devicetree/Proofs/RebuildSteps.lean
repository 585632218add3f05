import Devicetree.Host

namespace Devicetree.Proofs

inductive Phase where
  /-- Waits for the end of its quiet time. -/
  | quiet
  | building
  /-- Has a graph that it has not tried to publish yet. -/
  | built (graph : Graph)
  /-- Knows what it returns, but the host does not know yet that it is over. -/
  | returning (result : Except BuildError Snapshot)
  /-- Is over. A call that was dropped has returned nothing. -/
  | settled (result : Option (Except BuildError Snapshot))

namespace Phase

def isOpen : Phase → Bool
  | quiet | building | built _ => true
  | returning _ | settled _ => false

def isSettled : Phase → Bool
  | settled _ => true
  | _ => false

def result? : Phase → Option (Except BuildError Snapshot)
  | returning result => some result
  | settled result => result
  | _ => none

end Phase

structure Call where
  generation : Nat
  fragments : List Fragment
  phase : Phase := .quiet

inductive CallEvent where
  /-- Sees in its quiet time that it is cancelled. -/
  | interrupt
  /-- Its quiet time is over. -/
  | expire
  /-- Its build comes to an end. It has seen that it is cancelled before the given fragment, or not at all. -/
  | build (seen : Option Nat)
  /-- The task that builds for it breaks down. -/
  | lose (why : BuildError)
  | publish
  | settle
  /-- Its caller gives it up. -/
  | drop

/-- One step of a call: what becomes of the host and how far the call has come then. -/
def Call.step? (config : HostConfig) (bindings : BindingProvider) (h : Host) (c : Call) (e : CallEvent) :
    Option (Host × Phase) :=
  match c.phase, e with
  | .quiet, .interrupt =>
    if 0 < config.debounce ∧ h.isCancelled c.generation = true then
      some (h, .returning (.error (.cancelled 0 c.fragments.length)))
    else none
  | .quiet, .expire => some (h, .building)
  | .building, .build seen =>
    if seen = none ∨ h.isCancelled c.generation = true then
      match Build.build ⟨bindings, h.evaluator, config.options⟩ c.fragments fun i => seen.any (· ≤ i) with
      | .ok graph => some (h, .built graph)
      | .error why => some (h, .returning (.error why))
    else none
  | .building, .lose why => some (h, .returning (.error why))
  | .built graph, .publish =>
    match h.publish? c.generation graph with
    | some h => some (h, .returning (.ok ⟨c.generation, graph⟩))
    | none => some (h, .returning (.error (.cancelled c.fragments.length c.fragments.length)))
  | .returning result, .settle => some (h.settle c.generation, .settled (some result))
  | .quiet, .drop | .building, .drop | .built _, .drop => some (h.settle c.generation, .settled none)
  | _, _ => none

inductive HostEvent where
  | begin (fragments : List Fragment)
  | cancel
  | call (number : Nat) (event : CallEvent)

structure Session where
  host : Host
  calls : List Call := []

namespace Session

def start (bindings : BindingProvider) (evaluator : ConstEvaluator) : Session := { host := Host.new bindings evaluator }

def step? (config : HostConfig) (bindings : BindingProvider) (s : Session) : HostEvent → Option Session
  | .begin fragments => some ⟨s.host.begin, s.calls ++ [{ generation := s.host.begin.generation, fragments }]⟩
  | .cancel => some { s with host := s.host.cancelPending }
  | .call k e => do
    let c ← s.calls[k]?
    let (host, phase) ← c.step? config bindings s.host e
    return ⟨host, s.calls.set k { c with phase }⟩

def run? (config : HostConfig) (bindings : BindingProvider) (s : Session) (events : List HostEvent) : Option Session :=
  events.foldlM (step? config bindings) s

end Session

section Moves
variable {config : HostConfig} {bindings : BindingProvider} {h h' : Host} {c : Call} {e : CallEvent} {phase : Phase}

/-- All that a step of a call can do: go on without a word to the host, publish, or be over. -/
inductive Move (config : HostConfig) (bindings : BindingProvider) (h : Host) (c : Call) :
    CallEvent → Host → Phase → Prop
  | works (e : CallEvent) (phase : Phase) (isOpen : c.phase.isOpen = true)
      (next : phase.isOpen = true ∨ ∃ why, phase = .returning (.error why))
      (made : ∀ graph, phase = .built graph → ∃ isCancelled,
        Build.build ⟨bindings, h.evaluator, config.options⟩ c.fragments isCancelled = .ok graph) :
      Move config bindings h c e h phase
  | publishes (graph : Graph) (built : c.phase = .built graph) (latest : h.generation = c.generation) :
      Move config bindings h c .publish { h with published := ⟨c.generation, graph⟩ }
        (.returning (.ok ⟨c.generation, graph⟩))
  | ends (e : CallEvent) (result : Option (Except BuildError Snapshot)) (other : e ≠ .publish)
      (same : c.phase.result? = result) (pending : c.phase.isSettled = false) :
      Move config bindings h c e (h.settle c.generation) (.settled result)

theorem open_moves (hopen : c.phase.isOpen = true)
    (hnext : phase.isOpen = true ∨ ∃ why, phase = .returning (.error why))
    (hbuilt : ∀ graph, phase ≠ .built graph) : Move config bindings h c e h phase :=
  .works e phase hopen hnext fun graph hphase => absurd hphase (hbuilt graph)

/-- Every step of a call is one of these. -/
theorem call_moves (hstep : c.step? config bindings h e = some (h', phase)) :
    Move config bindings h c e h' phase := by
  obtain ⟨generation, fragments, was⟩ := c
  cases was with
  | quiet =>
    cases e with
    | interrupt =>
      simp only [Call.step?] at hstep
      split at hstep
      · cases hstep
        exact open_moves rfl (.inr ⟨_, rfl⟩) (by simp)
      · cases hstep
    | expire =>
      cases hstep
      exact open_moves rfl (.inl rfl) (by simp)
    | drop =>
      cases hstep
      exact .ends _ none (by simp) rfl rfl
    | _ => cases hstep
  | building =>
    cases e with
    | build seen =>
      simp only [Call.step?] at hstep
      split at hstep
      · split at hstep
        · rename_i graph hbuild
          cases hstep
          refine .works _ _ rfl (.inl rfl) ?_
          rintro _ ⟨rfl⟩
          exact ⟨_, hbuild⟩
        · cases hstep
          exact open_moves rfl (.inr ⟨_, rfl⟩) (by simp)
      · cases hstep
    | lose why =>
      cases hstep
      exact open_moves rfl (.inr ⟨_, rfl⟩) (by simp)
    | drop =>
      cases hstep
      exact .ends _ none (by simp) rfl rfl
    | _ => cases hstep
  | built graph =>
    cases e with
    | publish =>
      simp only [Call.step?, Host.publish?] at hstep
      by_cases hlatest : h.generation = generation
      · rw [if_pos hlatest] at hstep
        cases hstep
        exact .publishes graph rfl hlatest
      · rw [if_neg hlatest] at hstep
        cases hstep
        exact open_moves rfl (.inr ⟨_, rfl⟩) (by simp)
    | drop =>
      cases hstep
      exact .ends _ none (by simp) rfl rfl
    | _ => cases hstep
  | returning result =>
    cases e with
    | settle =>
      cases hstep
      exact .ends _ (some result) (by simp) rfl rfl
    | _ => cases hstep
  | settled result => cases e <;> cases hstep

/-- A call that is not the latest leaves the host as it is. -/
theorem Move.stale (hm : Move config bindings h c e h' phase) (hstale : h.generation ≠ c.generation) : h' = h := by
  cases hm with
  | works => rfl
  | publishes graph built latest => exact absurd latest hstale
  | ends => exact if_neg hstale

theorem Move.kept (hm : Move config bindings h c e h' phase) :
    h'.generation = h.generation ∧ h'.evaluator = h.evaluator := by
  cases hm with
  | works => exact ⟨rfl, rfl⟩
  | publishes => exact ⟨rfl, rfl⟩
  | ends =>
    unfold Host.settle
    split <;> exact ⟨rfl, rfl⟩

theorem cancel_eq (h : Host) : ∃ cancelled, h.cancelPending = { h with cancelled } := by
  unfold Host.cancelPending
  split <;> exact ⟨_, rfl⟩

theorem begin_eq (h : Host) : ∃ cancelled, h.begin =
    { h with cancelled, generation := h.generation + 1, pending := some (h.generation + 1), stable := false } := by
  obtain ⟨cancelled, hcancel⟩ := cancel_eq h
  exact ⟨cancelled, by rw [Host.begin, hcancel]⟩

theorem open_pending (hopen : phase.isOpen = true) : phase.isSettled = false ∧ phase.result? = none := by
  cases phase with
  | quiet | building | built => exact ⟨rfl, rfl⟩
  | returning | settled => cases hopen

/-- What holds between a host and its latest call. -/
structure Fits (h : Host) (latest : Option Call) : Prop where
  stable : h.stable = latest.all fun c => c.phase.isSettled
  published : h.published.generation ≤ h.generation
  /-- The call has not published while it is open. -/
  behind : ∀ c, latest = some c → c.phase.isOpen = true → h.published.generation < h.generation
  /-- Nothing is published after what the call returns. -/
  shown : ∀ c snapshot, latest = some c → c.phase.result? = some (.ok snapshot) → h.published = snapshot

theorem Fits.begins {latest : Option Call} (hf : Fits h latest) (fragments : List Fragment) :
    Fits h.begin (some { generation := h.begin.generation, fragments }) := by
  obtain ⟨cancelled, hbegin⟩ := begin_eq h
  rw [hbegin]
  refine ⟨rfl, Nat.le_succ_of_le hf.published, ?_, ?_⟩
  · intro c _ _
    exact Nat.lt_succ_of_le hf.published
  · rintro c snapshot ⟨rfl⟩ hresult
    cases hresult

theorem Fits.cancels {latest : Option Call} (hf : Fits h latest) : Fits h.cancelPending latest := by
  obtain ⟨cancelled, hcancel⟩ := cancel_eq h
  rw [hcancel]
  exact ⟨hf.stable, hf.published, hf.behind, hf.shown⟩

/-- Each step of the latest call keeps to this. -/
theorem Fits.moves (hf : Fits h (some c)) (hlatest : h.generation = c.generation)
    (hm : Move config bindings h c e h' phase) : Fits h' (some { c with phase }) := by
  cases hm with
  | works _ _ hopen hnext =>
    have hunstable : h.stable = false := by simpa [(open_pending hopen).1] using hf.stable
    refine ⟨?_, hf.published, ?_, ?_⟩
    · rcases hnext with hopen' | ⟨why, rfl⟩
      · simp [hunstable, (open_pending hopen').1]
      · exact hunstable
    · intro _ _ _
      exact hf.behind c rfl hopen
    · rintro _ snapshot ⟨rfl⟩ hresult
      rcases hnext with hopen' | ⟨why, rfl⟩
      · simp [(open_pending hopen').2] at hresult
      · cases hresult
  | publishes graph hbuilt =>
    have hunstable : h.stable = false := by simpa [hbuilt, Phase.isSettled] using hf.stable
    refine ⟨hunstable, Nat.le_of_eq hlatest.symm, ?_, ?_⟩
    · rintro _ ⟨rfl⟩ hopen
      cases hopen
    · rintro _ snapshot ⟨rfl⟩ ⟨rfl⟩
      rfl
  | ends _ result _ hsame =>
    rw [Host.settle, if_pos hlatest]
    refine ⟨rfl, hf.published, ?_, ?_⟩
    · rintro _ ⟨rfl⟩ hopen
      cases hopen
    · rintro _ snapshot ⟨rfl⟩ hresult
      exact hf.shown c snapshot rfl (hsame.trans hresult)

end Moves

section Steps
variable {config : HostConfig} {bindings : BindingProvider} {s t : Session}

/-- All that an event can do to a session. -/
theorem step_cases {e : HostEvent} (h : s.step? config bindings e = some t) :
    (∃ fragments, e = .begin fragments ∧
      t = ⟨s.host.begin, s.calls ++ [{ generation := s.host.begin.generation, fragments }]⟩) ∨
    (e = .cancel ∧ t = { s with host := s.host.cancelPending }) ∨
    ∃ k a c host phase, e = .call k a ∧ s.calls[k]? = some c ∧ Move config bindings s.host c a host phase ∧
      t = ⟨host, s.calls.set k { c with phase }⟩ := by
  cases e with
  | begin fragments => exact .inl ⟨fragments, rfl, (Option.some.inj h).symm⟩
  | cancel => exact .inr (.inl ⟨rfl, (Option.some.inj h).symm⟩)
  | call k a =>
    simp only [Session.step?, Option.bind_eq_bind, Option.bind_eq_some_iff] at h
    obtain ⟨c, hc, ⟨host, phase⟩, hstep, hnext⟩ := h
    exact .inr (.inr ⟨k, a, c, host, phase, rfl, hc, call_moves hstep, (Option.some.inj hnext).symm⟩)

structure InStep (config : HostConfig) (bindings : BindingProvider) (evaluator : ConstEvaluator) (s : Session) : Prop where
  fixed : s.host.evaluator = evaluator
  latest : s.host.generation = s.calls.length
  numbered : ∀ k c, s.calls[k]? = some c → c.generation = k + 1
  fits : Fits s.host s.calls.getLast?
  made : ∀ c ∈ s.calls, ∀ graph, c.phase = .built graph → ∃ isCancelled,
    Build.build ⟨bindings, evaluator, config.options⟩ c.fragments isCancelled = .ok graph

theorem start_in_step (config : HostConfig) (bindings : BindingProvider) (evaluator : ConstEvaluator) :
    InStep config bindings evaluator (Session.start bindings evaluator) where
  fixed := rfl
  latest := rfl
  numbered := by simp [Session.start]
  fits := ⟨rfl, Nat.le_refl 0, by simp [Session.start], by simp [Session.start]⟩
  made := by simp [Session.start]

variable {evaluator : ConstEvaluator} {c : Call} {k : Nat}

theorem InStep.is_latest (hs : InStep config bindings evaluator s) (hc : s.calls[k]? = some c) :
    s.host.generation = c.generation ↔ k + 1 = s.calls.length := by
  rw [hs.latest, hs.numbered k c hc, eq_comm]

/-- The call with the latest generation is the one that began last. -/
theorem InStep.last (hs : InStep config bindings evaluator s) (hc : s.calls[k]? = some c)
    (hlatest : s.host.generation = c.generation) : s.calls.getLast? = some c := by
  rw [List.getLast?_eq_getElem?, ← (hs.is_latest hc).mp hlatest]
  exact hc

theorem InStep.begins (hs : InStep config bindings evaluator s) (fragments : List Fragment) :
    InStep config bindings evaluator
      ⟨s.host.begin, s.calls ++ [{ generation := s.host.begin.generation, fragments }]⟩ := by
  have hbegin : s.host.begin.generation = s.calls.length + 1 := congrArg (· + 1) hs.latest
  refine ⟨?_, ?_, ?_, ?_, ?_⟩
  · obtain ⟨cancelled, hbegin⟩ := begin_eq s.host
    rw [hbegin]
    exact hs.fixed
  · simp [hbegin]
  · intro k c hc
    rw [List.getElem?_append] at hc
    split at hc
    · exact hs.numbered k c hc
    · obtain ⟨hk, hnew⟩ := List.getElem?_eq_some_iff.mp hc
      have hlast : k = s.calls.length := by
        simp only [List.length_singleton] at hk
        omega
      simp only [List.getElem_singleton] at hnew
      rw [← hnew, hlast, hbegin]
  · rw [List.getLast?_concat]
    exact hs.fits.begins fragments
  · intro c hc graph hbuilt
    rcases List.mem_append.mp hc with hold | hnew
    · exact hs.made c hold graph hbuilt
    · obtain rfl := List.mem_singleton.mp hnew
      cases hbuilt

theorem getElem_set_call (hc : s.calls[k]? = some c) (c' : Call) (j : Nat) :
    (s.calls.set k c')[j]? = if k = j then some c' else s.calls[j]? := by
  obtain ⟨hk, _⟩ := List.getElem?_eq_some_iff.mp hc
  rw [List.getElem?_set, if_pos hk]

theorem InStep.moves (hs : InStep config bindings evaluator s) (hc : s.calls[k]? = some c) {host : Host}
    {a : CallEvent} {phase : Phase} (hm : Move config bindings s.host c a host phase) :
    InStep config bindings evaluator ⟨host, s.calls.set k { c with phase }⟩ := by
  have hset := getElem_set_call hc { c with phase }
  refine ⟨hm.kept.2.trans hs.fixed, ?_, ?_, ?_, ?_⟩
  · rw [hm.kept.1, hs.latest, List.length_set]
  · intro j d hd
    rw [hset] at hd
    split at hd
    · rename_i hj
      obtain rfl := Option.some.inj hd
      exact hj ▸ hs.numbered k c hc
    · exact hs.numbered j d hd
  · -- A call other than the latest moves neither the host nor the last entry.
    rw [List.getLast?_eq_getElem?, List.length_set, hset]
    by_cases hlast : k + 1 = s.calls.length
    · have hlatest := (hs.is_latest hc).mpr hlast
      rw [if_pos (by omega)]
      exact (hs.last hc hlatest ▸ hs.fits).moves hlatest hm
    · have hk : k < s.calls.length := (List.getElem?_eq_some_iff.mp hc).1
      rw [if_neg (by omega), ← List.getLast?_eq_getElem?, hm.stale (mt (hs.is_latest hc).mp hlast)]
      exact hs.fits
  · intro d hd graph hbuilt
    rcases List.mem_or_eq_of_mem_set hd with hold | rfl
    · exact hs.made d hold graph hbuilt
    · cases hm with
      | works _ _ _ _ made =>
        rw [← hs.fixed]
        exact made graph hbuilt
      | publishes | ends => cases hbuilt

theorem InStep.step (hs : InStep config bindings evaluator s) {e : HostEvent}
    (h : s.step? config bindings e = some t) : InStep config bindings evaluator t := by
  obtain ⟨fragments, _, rfl⟩ | ⟨_, rfl⟩ | ⟨k, _, c, host, phase, _, hc, hm, rfl⟩ := step_cases h
  · exact hs.begins fragments
  · obtain ⟨cancelled, hcancel⟩ := cancel_eq s.host
    refine ⟨?_, ?_, hs.numbered, hs.fits.cancels, hs.made⟩
    · rw [hcancel]
      exact hs.fixed
    · rw [hcancel]
      exact hs.latest
  · exact hs.moves hc hm

end Steps

end Devicetree.Proofs
