import Devicetree.Proofs.RebuildSteps

namespace Devicetree.Proofs

structure Transition where
  before : Session
  event : HostEvent
  after : Session

namespace Transition

def isOf (m : Transition) (k : Nat) : Prop :=
  match m.event with
  | .begin _ => m.before.calls.length = k
  | .cancel => False
  | .call j _ => j = k

/-- What a call publishes in the transition. A call that is refused is left with an error. -/
def publication? (m : Transition) : Option Snapshot :=
  match m.event with
  | .call k .publish =>
    match (m.after.calls[k]?).bind fun c => c.phase.result? with
    | some (.ok snapshot) => some snapshot
    | _ => none
  | _ => none

end Transition

def transitions (config : HostConfig) (bindings : BindingProvider) : Session → List HostEvent → List Transition
  | _, [] => []
  | s, e :: events =>
    match s.step? config bindings e with
    | some t => ⟨s, e, t⟩ :: transitions config bindings t events
    | none => []

def publications (config : HostConfig) (bindings : BindingProvider) (s : Session) (events : List HostEvent) :
    List Snapshot :=
  (transitions config bindings s events).filterMap Transition.publication?

section Runs
variable {config : HostConfig} {bindings : BindingProvider} {evaluator : ConstEvaluator} {s t : Session} {e : HostEvent}
  {events : List HostEvent} {c : Call} {k : Nat}

theorem session_cons_inv (h : s.run? config bindings (e :: events) = some t) :
    ∃ s₁, s.step? config bindings e = some s₁ ∧ s₁.run? config bindings events = some t ∧
      transitions config bindings s (e :: events) = ⟨s, e, s₁⟩ :: transitions config bindings s₁ events := by
  rw [Session.run?, List.foldlM_cons, Option.bind_eq_bind, Option.bind_eq_some_iff] at h
  obtain ⟨s₁, hstep, hrest⟩ := h
  exact ⟨s₁, hstep, hrest, by rw [transitions, hstep]⟩

theorem InStep.run (hs : InStep config bindings evaluator s) (h : s.run? config bindings events = some t) :
    InStep config bindings evaluator t := by
  induction events generalizing s with
  | nil =>
    obtain rfl := Option.some.inj h
    exact hs
  | cons e events ih =>
    obtain ⟨s₁, hstep, hrest, _⟩ := session_cons_inv h
    exact ih (hs.step hstep) hrest

structure Later (c c' : Call) : Prop where
  result : ∀ r, c.phase.result? = some r → c'.phase.result? = some r
  settled : c.phase.isSettled = true → c'.phase.isSettled = true

theorem Later.refl (c : Call) : Later c c := ⟨fun _ h => h, fun h => h⟩

theorem Later.trans {c' c'' : Call} (h : Later c c') (h' : Later c' c'') : Later c c'' :=
  ⟨fun r hr => h'.result r (h.result r hr), fun hsettled => h'.settled (h.settled hsettled)⟩

theorem Move.later {h h' : Host} {a : CallEvent} {phase : Phase} (hm : Move config bindings h c a h' phase) :
    Later c { c with phase } := by
  cases hm with
  | works _ _ hopen =>
    obtain ⟨hpending, hresult⟩ := open_pending hopen
    exact ⟨by simp [hresult], by simp [hpending]⟩
  | publishes graph hbuilt => exact ⟨by simp [hbuilt, Phase.result?], by simp [hbuilt, Phase.isSettled]⟩
  | ends _ result _ hsame => exact ⟨fun r hr => hsame.symm.trans hr, fun _ => rfl⟩

theorem step_later (h : s.step? config bindings e = some t) (hc : s.calls[k]? = some c) :
    ∃ c', t.calls[k]? = some c' ∧ Later c c' := by
  obtain ⟨fragments, _, rfl⟩ | ⟨_, rfl⟩ | ⟨j, _, d, host, phase, _, hd, hm, rfl⟩ := step_cases h
  · refine ⟨c, ?_, .refl c⟩
    rw [List.getElem?_append_left (List.getElem?_eq_some_iff.mp hc).1]
    exact hc
  · exact ⟨c, hc, .refl c⟩
  · rw [getElem_set_call hd]
    split
    · rename_i hj
      obtain rfl : d = c := Option.some.inj (hd.symm.trans (hj ▸ hc))
      exact ⟨_, rfl, hm.later⟩
    · exact ⟨c, hc, .refl c⟩

/-- A call keeps what it returns, and it stays settled. -/
theorem run_later (h : s.run? config bindings events = some t) (hc : s.calls[k]? = some c) :
    ∃ c', t.calls[k]? = some c' ∧ Later c c' := by
  induction events generalizing s c with
  | nil =>
    obtain rfl := Option.some.inj h
    exact ⟨c, hc, .refl c⟩
  | cons e events ih =>
    obtain ⟨s₁, hstep, hrest, _⟩ := session_cons_inv h
    obtain ⟨c₁, hc₁, hlater⟩ := step_later hstep hc
    obtain ⟨c₂, hc₂, hlater'⟩ := ih hrest hc₁
    exact ⟨c₂, hc₂, hlater.trans hlater'⟩

theorem mem_transitions (hs : InStep config bindings evaluator s) (h : s.run? config bindings events = some t)
    {m : Transition} (hm : m ∈ transitions config bindings s events) :
    InStep config bindings evaluator m.before ∧ m.before.step? config bindings m.event = some m.after ∧
      ∃ rest, m.after.run? config bindings rest = some t := by
  induction events generalizing s with
  | nil => cases hm
  | cons e events ih =>
    obtain ⟨s₁, hstep, hrest, htransitions⟩ := session_cons_inv h
    rw [htransitions] at hm
    rcases List.mem_cons.mp hm with rfl | hm
    · exact ⟨hs, hstep, events, hrest⟩
    · exact ih (hs.step hstep) hrest hm

theorem publication_none {a : CallEvent} (hc : t.calls[k]? = some c)
    (h : a = .publish → ∀ snapshot, c.phase.result? ≠ some (.ok snapshot)) :
    Transition.publication? ⟨s, .call k a, t⟩ = none := by
  cases a with
  | publish =>
    simp only [Transition.publication?, hc, Option.bind_some]
    split
    · rename_i snapshot hresult
      exact absurd hresult (h rfl snapshot)
    · rfl
  | _ => rfl

/-- The published graph stays as it is or is the one that the latest call has built. -/
theorem step_published (h : s.step? config bindings e = some t) :
    Transition.publication? ⟨s, e, t⟩ = none ∧ t.host.published = s.host.published ∨
    ∃ k c graph, e = .call k .publish ∧ s.calls[k]? = some c ∧ c.phase = .built graph ∧
      s.host.generation = c.generation ∧ Transition.publication? ⟨s, e, t⟩ = some ⟨c.generation, graph⟩ ∧
      t.host.published = ⟨c.generation, graph⟩ ∧
      t.calls[k]? = some { c with phase := .returning (.ok ⟨c.generation, graph⟩) } := by
  obtain ⟨fragments, rfl, rfl⟩ | ⟨rfl, rfl⟩ | ⟨k, a, c, host, phase, rfl, hc, hm, rfl⟩ := step_cases h
  · obtain ⟨cancelled, hbegin⟩ := begin_eq s.host
    exact .inl ⟨rfl, by rw [hbegin]⟩
  · obtain ⟨cancelled, hcancel⟩ := cancel_eq s.host
    exact .inl ⟨rfl, by rw [hcancel]⟩
  · have hset := getElem_set_call hc { c with phase } k
    rw [if_pos rfl] at hset
    cases hm with
    | works _ _ _ hnext =>
      refine .inl ⟨publication_none hset fun _ snapshot hresult => ?_, rfl⟩
      rcases hnext with hopen | ⟨why, rfl⟩
      · rw [(open_pending hopen).2] at hresult
        cases hresult
      · cases hresult
    | publishes graph hbuilt hlatest =>
      exact .inr ⟨k, c, graph, rfl, hc, hbuilt, hlatest, by simp [Transition.publication?, hset, Phase.result?],
        rfl, hset⟩
    | ends _ _ hother =>
      refine .inl ⟨publication_none hset fun hpublish => absurd hpublish hother, ?_⟩
      unfold Host.settle
      split <;> rfl

/-- What is published last stands, and each publication has a later generation than all before it. -/
theorem run_published (hs : InStep config bindings evaluator s) (h : s.run? config bindings events = some t) :
    t.host.published = (publications config bindings s events).getLastD s.host.published ∧
      ((s.host.published :: publications config bindings s events).map Snapshot.generation).Pairwise
        (· < ·) := by
  induction events generalizing s with
  | nil =>
    obtain rfl := Option.some.inj h
    exact ⟨rfl, List.pairwise_singleton _ _⟩
  | cons e events ih =>
    obtain ⟨s₁, hstep, hrest, htransitions⟩ := session_cons_inv h
    obtain ⟨hlast, hincreasing⟩ := ih (hs.step hstep) hrest
    rcases step_published hstep with ⟨hnone, hsame⟩ | ⟨k, c, graph, _, hc, hbuilt, hlatest, hsome, hnew, _⟩
    · have hall : publications config bindings s (e :: events) = publications config bindings s₁ events := by
        rw [publications, htransitions, List.filterMap_cons_none hnone, publications]
      rw [hall, ← hsame]
      exact ⟨hlast, hincreasing⟩
    · have hall : publications config bindings s (e :: events) =
          s₁.host.published :: publications config bindings s₁ events := by
        rw [publications, htransitions, List.filterMap_cons_some hsome, publications, hnew]
      have hbehind : s.host.published.generation < s₁.host.published.generation := by
        rw [hnew, ← hlatest]
        exact hs.fits.behind c (hs.last hc hlatest) (by rw [hbuilt]; rfl)
      rw [hall]
      refine ⟨hlast.trans (List.getLastD_cons ..).symm, List.pairwise_cons.mpr ⟨?_, hincreasing⟩⟩
      rintro n hn
      rcases List.mem_cons.mp hn with rfl | hn
      · exact hbehind
      · exact Nat.lt_trans hbehind (List.rel_of_pairwise_cons hincreasing hn)

theorem InStep.stable_iff (hs : InStep config bindings evaluator s) :
    s.host.stable = true ↔ ¬ ∃ c ∈ s.calls, c.generation = s.host.generation ∧ c.phase.isSettled = false := by
  rw [hs.fits.stable]
  constructor
  · rintro hall ⟨c, hc, hlatest, hpending⟩
    obtain ⟨k, hk⟩ := List.mem_iff_getElem?.mp hc
    rw [hs.last hk hlatest.symm, Option.all_some, hpending] at hall
    cases hall
  · intro hnone
    cases hlast : s.calls.getLast? with
    | none => rfl
    | some c =>
      rw [List.getLast?_eq_getElem?] at hlast
      have hk := (List.getElem?_eq_some_iff.mp hlast).1
      have hlatest := (hs.is_latest hlast).mpr (by omega)
      have hsettled : ¬ c.phase.isSettled = false := fun hpending =>
        hnone ⟨c, List.mem_of_getElem? hlast, hlatest.symm, hpending⟩
      simpa using hsettled

theorem length_step (h : s.step? config bindings e = some t) (hbegin : ∀ fragments, e ≠ .begin fragments) :
    t.calls.length = s.calls.length := by
  obtain ⟨fragments, he, _⟩ | ⟨_, rfl⟩ | ⟨k, _, c, host, phase, _, _, _, rfl⟩ := step_cases h
  · exact absurd he (hbegin fragments)
  · rfl
  · exact List.length_set ..

theorem length_run (h : s.run? config bindings events = some t)
    (hbegin : ∀ fragments, .begin fragments ∉ events) : t.calls.length = s.calls.length := by
  induction events generalizing s with
  | nil =>
    obtain rfl := Option.some.inj h
    rfl
  | cons e events ih =>
    obtain ⟨s₁, hstep, hrest, _⟩ := session_cons_inv h
    rw [ih hrest fun fragments hm => hbegin fragments (List.mem_cons_of_mem _ hm)]
    exact length_step hstep fun fragments he => hbegin fragments (he ▸ List.mem_cons_self)

/-- What the latest call returned stays as long as no other call begins. -/
theorem InStep.lasting (hs : InStep config bindings evaluator s) (hc : s.calls[k]? = some c)
    (hlatest : s.host.generation = c.generation) (hsettled : c.phase.isSettled = true) {snapshot : Snapshot}
    (hresult : c.phase.result? = some (.ok snapshot)) (h : s.run? config bindings events = some t)
    (hbegin : ∀ fragments, .begin fragments ∉ events) :
    t.host.published = snapshot ∧ t.host.stable = true := by
  obtain ⟨c', hc', hlater⟩ := run_later h hc
  have ht := hs.run h
  have hlast : t.calls.getLast? = some c' := by
    refine ht.last hc' ((ht.is_latest hc').mpr ?_)
    rw [length_run h hbegin]
    exact (hs.is_latest hc).mp hlatest
  refine ⟨ht.fits.shown c' snapshot hlast (hlater.result _ hresult), ?_⟩
  rw [ht.fits.stable, hlast]
  exact hlater.settled hsettled

/-- A call that publishes returns what it publishes, so one that returns an error has published nothing. -/
theorem failed_published (hs : InStep config bindings evaluator s) (h : s.run? config bindings events = some t)
    {why : BuildError} (hc : t.calls[k]? = some c) (hresult : c.phase.result? = some (.error why))
    {m : Transition} (hm : m ∈ transitions config bindings s events) (hof : m.isOf k) :
    m.after.host.published = m.before.host.published := by
  obtain ⟨_, hstep, rest, hrest⟩ := mem_transitions hs h hm
  rcases step_published hstep with ⟨_, hsame⟩ | ⟨j, d, graph, hevent, _, _, _, _, _, hreturning⟩
  · exact hsame
  · obtain rfl : j = k := by simpa [Transition.isOf, hevent] using hof
    obtain ⟨c', hc', hlater⟩ := run_later hrest hreturning
    obtain rfl : c = c' := Option.some.inj (hc.symm.trans hc')
    have hok := hlater.result _ rfl
    rw [hresult] at hok
    cases hok

theorem InStep.entitled (hs : InStep config bindings evaluator s) (h : s.step? config bindings e = some t)
    {snapshot : Snapshot} (hp : Transition.publication? ⟨s, e, t⟩ = some snapshot) :
    ∃ k c isCancelled, e = .call k .publish ∧ s.calls[k]? = some c ∧ c.generation = s.host.generation ∧
      t.host.published = snapshot ∧ snapshot.generation = c.generation ∧
      Build.build ⟨bindings, evaluator, config.options⟩ c.fragments isCancelled = .ok snapshot.graph := by
  rcases step_published h with ⟨hnone, _⟩ | ⟨k, c, graph, he, hc, hbuilt, hlatest, hsome, hnew, _⟩
  · rw [hnone] at hp
    cases hp
  · obtain rfl := Option.some.inj (hsome.symm.trans hp)
    obtain ⟨isCancelled, hbuild⟩ := hs.made c (List.mem_of_getElem? hc) graph hbuilt
    exact ⟨k, c, isCancelled, he, hc, hlatest.symm, hnew, rfl, hbuild⟩

end Runs

/-- What a session comes to, whatever its calls and the order of their steps. -/
structure Orderly (config : HostConfig) (bindings : BindingProvider) (evaluator : ConstEvaluator) (events : List HostEvent)
    (t : Session) : Prop where
  /-- The host is stable exactly if no call that is not over has the latest generation. -/
  stable : t.host.stable = true ↔
    ¬ ∃ c ∈ t.calls, c.generation = t.host.generation ∧ c.phase.isSettled = false
  /-- The graph that was published last is shown, and before the first one an empty graph. -/
  published : t.host.published = (publications config bindings (.start bindings evaluator) events).getLastD
    ⟨0, Graph.empty bindings evaluator⟩
  /-- A call publishes what it has built, and while it does so it has the latest generation. -/
  entitled : ∀ m ∈ transitions config bindings (.start bindings evaluator) events, ∀ snapshot,
    m.publication? = some snapshot → ∃ k c isCancelled, m.event = .call k .publish ∧
      m.before.calls[k]? = some c ∧ c.generation = m.before.host.generation ∧
      m.after.host.published = snapshot ∧ snapshot.generation = c.generation ∧
      Build.build ⟨bindings, evaluator, config.options⟩ c.fragments isCancelled = .ok snapshot.graph
  increasing :
    (0 :: (publications config bindings (.start bindings evaluator) events).map Snapshot.generation).Pairwise (· < ·)
  /-- No step of a call that returns an error changes what is published. -/
  failed : ∀ k c why, t.calls[k]? = some c → c.phase.result? = some (.error why) →
    ∀ m ∈ transitions config bindings (.start bindings evaluator) events, m.isOf k →
      m.after.host.published = m.before.host.published
  /-- Once the host is stable, what the latest call returned is shown until another one begins. -/
  lasting : t.host.stable = true → ∀ c ∈ t.calls, c.generation = t.host.generation → ∀ snapshot,
    c.phase.result? = some (.ok snapshot) → ∀ more u, (∀ fragments, .begin fragments ∉ more) →
      t.run? config bindings more = some u → u.host.published = snapshot ∧ u.host.stable = true

/-- Every session is orderly, with any number of calls that overlap in any way, are cancelled, fail or are dropped. -/
theorem sessions_orderly (config : HostConfig) (bindings : BindingProvider) (evaluator : ConstEvaluator)
    {events : List HostEvent} {t : Session}
    (h : (Session.start bindings evaluator).run? config bindings events = some t) :
    Orderly config bindings evaluator events t := by
  have hstart := start_in_step config bindings evaluator
  have ht := hstart.run h
  obtain ⟨hlast, hincreasing⟩ := run_published hstart h
  refine ⟨ht.stable_iff, hlast, ?_, hincreasing, ?_, ?_⟩
  · intro m hm snapshot hp
    obtain ⟨hbefore, hstep, _⟩ := mem_transitions hstart h hm
    exact hbefore.entitled hstep hp
  · intro k c why hc hresult m hm hof
    exact failed_published hstart h hc hresult hm hof
  · intro hstable c hc hlatest snapshot hresult more u hbegin hmore
    obtain ⟨k, hk⟩ := List.mem_iff_getElem?.mp hc
    have hsettled : c.phase.isSettled = true := by
      rw [ht.fits.stable, ht.last hk hlatest.symm] at hstable
      exact hstable
    exact ht.lasting hk hlatest.symm hsettled hresult hmore hbegin

/-- One call after the other publishes, is cancelled in its quiet time, is dropped while it builds, comes too late to
publish and settles while the next one builds, and publishes again. -/
def overlapped : List HostEvent :=
  let board : List Fragment := [⟨⟨0⟩, .root [] [.child { name := { name := "soc" } } []] {}⟩]
  [.begin board, .call 0 .expire, .call 0 (.build none), .call 0 .publish, .call 0 .settle,
    .begin [], .cancel, .call 1 .interrupt, .call 1 .settle,
    .begin board, .call 2 .expire, .call 2 .drop,
    .begin board, .call 3 .expire, .call 3 (.build none), .begin [], .call 4 .expire, .call 3 .publish,
    .call 4 (.build none), .call 3 .settle, .call 4 .publish, .call 4 .settle]

theorem sessions_orderly_overlapped :
    ∃ t, (Session.start default default).run? {} default overlapped = some t ∧ t.host.stable = true ∧
      t.host.published.generation = 5 ∧ t.calls.length = 5 ∧
      (publications {} default (.start default default) overlapped).map Snapshot.generation = [1, 5] ∧
      Orderly {} default default overlapped t := by
  have hrun : ((Session.start default default).run? {} default overlapped).any (fun t =>
      decide (t.host.stable = true ∧ t.host.published.generation = 5 ∧ t.calls.length = 5)) = true := by
    decide +kernel
  have hpublished : (publications {} default (.start default default) overlapped).map Snapshot.generation = [1, 5] := by
    decide +kernel
  obtain ⟨t, ht, hend⟩ := (Option.any_eq_true _ _).mp hrun
  obtain ⟨hstable, hgeneration, hcalls⟩ := of_decide_eq_true hend
  exact ⟨t, ht, hstable, hgeneration, hcalls, hpublished, sessions_orderly {} default default ht⟩

end Devicetree.Proofs
