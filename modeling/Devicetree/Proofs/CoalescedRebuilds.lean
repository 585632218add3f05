import Mathlib.Data.List.Induction
import Devicetree.Timeline
import Devicetree.Proofs.Access
import Devicetree.Proofs.Builds
import Devicetree.Proofs.RebuildSteps

namespace Devicetree.Proofs

structure TimedCall where
  time : Nat
  fragments : List Fragment

def TimedCall.on (c : ContextId) (call : TimedCall) : TimedAction := ⟨call.time, c, .rebuild call.fragments⟩

/-- The state of a timeline at a time, with everything done that was due by then. -/
def stateAt (w : Workspace) (actions : List TimedAction) (t : Nat) : Timeline.State :=
  let timed := actions.zipIdx.mergeSort fun a b => decide (a.1.time ≤ b.1.time)
  Timeline.elapse (fun due => decide (due ≤ t))
    ((timed.filter fun a => decide (a.1.time ≤ t)).foldl Timeline.step { workspace := w })

section Calls

/-- Nothing takes the place of call number `k`: if there is a next one, it comes after the quiet time. -/
def Lasts (quiet : Nat) (calls : List TimedCall) (k : Nat) (call : TimedCall) : Prop :=
  ∀ next, calls[k + 1]? = some next → call.time + quiet < next.time

/-- What call number `k` returns: the graph that it builds if it lasts, and otherwise that it was cancelled before
any of its fragments. -/
inductive Returns (config : BuildConfig) (quiet : Nat) (calls : List TimedCall) (k : Nat) (call : TimedCall) :
    Outcome → Prop
  | graph {g : Graph} (hlasts : Lasts quiet calls k call)
      (hbuild : Build.build config call.fragments (fun _ => false) = .ok g) :
      Returns config quiet calls k call (.built (.ok ⟨k + 1, g⟩))
  | cancelled (hover : ¬ Lasts quiet calls k call) :
      Returns config quiet calls k call (.built (.error (.cancelled 0 call.fragments.length)))

/-- A snapshot has the graph of the last call that counts, or the empty graph if none does. -/
inductive ShowsLast (config : BuildConfig) (calls : List TimedCall) (counts : Nat → TimedCall → Prop) :
    Snapshot → Prop
  | nothing (hnone : ∀ k call, calls[k]? = some call → ¬ counts k call) :
      ShowsLast config calls counts ⟨0, Graph.empty config.bindings config.evaluator⟩
  | last {k : Nat} {call : TimedCall} {g : Graph} (hcall : calls[k]? = some call) (hcounts : counts k call)
      (hlast : ∀ j later, calls[j]? = some later → counts j later → j ≤ k)
      (hbuild : Build.build config call.fragments (fun _ => false) = .ok g) :
      ShowsLast config calls counts ⟨k + 1, g⟩

variable {config : BuildConfig} {quiet k : Nat} {calls calls' : List TimedCall} {call new : TimedCall}

theorem ShowsLast.congr {counts counts' : Nat → TimedCall → Prop} {shown : Snapshot}
    (h : ShowsLast config calls counts shown)
    (hsame : ∀ k call, calls[k]? = some call ∧ counts k call ↔ calls'[k]? = some call ∧ counts' k call) :
    ShowsLast config calls' counts' shown := by
  cases h with
  | nothing hnone =>
    refine .nothing fun k call hcall hcounts => ?_
    obtain ⟨hcall, hcounts⟩ := (hsame k call).mpr ⟨hcall, hcounts⟩
    exact hnone k call hcall hcounts
  | last hcall hcounts hlast hbuild =>
    obtain ⟨hcall', hcounts'⟩ := (hsame _ _).mp ⟨hcall, hcounts⟩
    refine .last hcall' hcounts' (fun j later hlater hlaterCounts => ?_) hbuild
    obtain ⟨hlater, hlaterCounts⟩ := (hsame j later).mpr ⟨hlater, hlaterCounts⟩
    exact hlast j later hlater hlaterCounts

/-- All calls but the last are those before it. -/
theorem before_last_iff : (calls ++ [new])[k]? = some call ∧ k + 1 < (calls ++ [new]).length ↔
    calls[k]? = some call := by
  simp only [List.length_append, List.length_singleton, Nat.add_lt_add_iff_right]
  constructor
  · rintro ⟨hcall, hk⟩
    rwa [List.getElem?_append_left hk] at hcall
  · intro hcall
    have hk := (List.getElem?_eq_some_iff.mp hcall).1
    exact ⟨by rwa [List.getElem?_append_left hk], hk⟩

theorem lasts_concat_inner (hk : k + 1 < calls.length) :
    Lasts quiet (calls ++ [new]) k call ↔ Lasts quiet calls k call := by
  unfold Lasts
  rw [List.getElem?_append_left hk]

theorem lasts_concat_last (hk : k + 1 = calls.length) :
    Lasts quiet (calls ++ [new]) k call ↔ call.time + quiet < new.time := by
  simp [Lasts, hk]

theorem last_of_end (hcall : calls[k]? = some call) (hend : ¬ k + 1 < calls.length) : calls.getLast? = some call := by
  have hk := (List.getElem?_eq_some_iff.mp hcall).1
  rw [List.getLast?_eq_getElem?, ← hcall]
  congr 1
  omega

/-- A call that comes late enough leaves all others to last as they did. -/
theorem lasts_concat_late (hlate : ∀ last, calls.getLast? = some last → last.time + quiet < new.time)
    (hcall : calls[k]? = some call) : Lasts quiet (calls ++ [new]) k call ↔ Lasts quiet calls k call := by
  have hk := (List.getElem?_eq_some_iff.mp hcall).1
  by_cases hinner : k + 1 < calls.length
  · exact lasts_concat_inner hinner
  · have hlast := last_of_end hcall hinner
    have hnext : calls[k + 1]? = none := List.getElem?_eq_none (by omega)
    rw [lasts_concat_last (by omega)]
    simp [Lasts, hnext, hlate call hlast]

theorem Returns.congr {o : Outcome} (h : Returns config quiet calls k call o)
    (hsame : Lasts quiet calls k call ↔ Lasts quiet calls' k call) : Returns config quiet calls' k call o := by
  cases h with
  | graph hlasts hbuild => exact .graph (hsame.mp hlasts) hbuild
  | cancelled hover => exact .cancelled fun hlasts => hover (hsame.mpr hlasts)

end Calls

section Machine
open Timeline
variable {w : Workspace} {c : ContextId} {id : HostId} {h : Host} {r : Rebuild} {rebuilds : List Rebuild}
  {outcomes : Table Nat Outcome}

/-- A timeline on which nothing but rebuilds of the host `id` is under way: the host is `h`, and all else is as in
`w`. -/
def running (w : Workspace) (id : HostId) (h : Host) (rebuilds : List Rebuild) (outcomes : Table Nat Outcome) :
    Timeline.State :=
  { workspace := w.modifyHost id fun _ => h, rebuilds, outcomes }

theorem host_set (hid : id.index < w.hosts.size) (h : Host) : (w.modifyHost id fun _ => h).host id = h := by
  simp [Workspace.host, Workspace.modifyHost, getD_modify _ _ _ _ _ hid]

theorem modifyHost_set (w : Workspace) (id : HostId) (h : Host) (f : Host → Host) :
    (w.modifyHost id fun _ => h).modifyHost id f = w.modifyHost id fun _ => f h := by
  simp only [Workspace.modifyHost]
  congr 1
  refine Array.ext (by simp) fun i hi hi' => ?_
  simp only [Array.getElem_modify]
  split <;> rfl

theorem complete_running (hid : id.index < w.hosts.size) (hr : r.host = id) :
    complete (running w id h rebuilds outcomes) r =
      running w id (h.finish w.config w.bindings r.generation r.fragments).2 rebuilds
        (outcomes.insert r.ticket (.built (h.finish w.config w.bindings r.generation r.fragments).1)) := by
  simp only [complete, running, hr, host_set hid, modifyHost_set]
  rfl

theorem elapse_nothing (isDue : Nat → Bool) :
    elapse isDue (running w id h [] outcomes) = running w id h [] outcomes := by
  simp [elapse, running]

theorem elapse_one (isDue : Nat → Bool) : elapse isDue (running w id h [r] outcomes) =
    if isDue r.due then complete (running w id h [] outcomes) r else running w id h [r] outcomes := by
  cases hdue : isDue r.due <;> simp [elapse, running, hdue]

theorem sweep_running (hid : id.index < w.hosts.size) (hr : r.host = id)
    (hlive : h.isCancelled r.generation = false) :
    sweep (running w id h [r] outcomes) = running w id h [r] outcomes := by
  simp [sweep, running, wake, hr, host_set hid, hlive]

theorem sweep_superseded {r' : Rebuild} (hid : id.index < w.hosts.size) (hr : r.host = id) (hr' : r'.host = id)
    (hdead : h.isCancelled r.generation = true) (hlive : h.isCancelled r'.generation = false) :
    sweep (running w id h [r, r'] outcomes) =
      running w id (h.settle r.generation) [r']
        (outcomes.insert r.ticket (.built (.error (.cancelled 0 r.fragments.length)))) := by
  simp [sweep, running, wake, abandon, record, hr, hr', host_set hid, modifyHost_set, hdead, hlive]

theorem start_running (hid : id.index < w.hosts.size) (hget : w.get? c = some id) (ticket : Nat) (call : TimedCall) :
    start (running w id h rebuilds outcomes) ticket (call.on c) =
      sweep (running w id h.begin
        (rebuilds ++ [⟨ticket, id, h.generation + 1, call.time + w.config.debounce, call.fragments⟩]) outcomes) := by
  have hcontext : (w.modifyHost id fun _ => h).context c = (w.modifyHost id fun _ => h, id) := by
    have hsame : (w.modifyHost id fun _ => h).get? c = some id := hget
    rw [Workspace.context, hsame]
  simp only [start, TimedCall.on, running, hcontext, modifyHost_set, host_set hid]
  rfl

end Machine

section Invariant
open Timeline
variable {config : BuildConfig} {quiet k : Nat} {id : HostId} {calls : List TimedCall} {call last new : TimedCall}
  {h : Host} {outcomes : Table Nat Outcome}

/-- What holds of a host and its outcomes once calls were started, with all of them ended but for those that
`ended` leaves out. -/
structure Answered (config : BuildConfig) (quiet : Nat) (calls : List TimedCall) (ended : Nat → Prop) (h : Host)
    (outcomes : Table Nat Outcome) : Prop where
  evaluator : h.evaluator = config.evaluator
  generation : h.generation = calls.length
  returns : ∀ k call, calls[k]? = some call → ended k →
    ∃ o, outcomes.get? k = some o ∧ Returns config quiet calls k call o
  shows : ShowsLast config calls (fun k call => Lasts quiet calls k call ∧ ended k) h.published

structure Rested (config : BuildConfig) (quiet : Nat) (calls : List TimedCall) (h : Host)
    (outcomes : Table Nat Outcome) : Prop
    extends Answered config quiet calls (fun _ => True) h outcomes where
  pending : h.pending = none
  cancelled : ∀ n ∈ h.cancelled, n ≤ calls.length

structure Waiting (config : BuildConfig) (quiet : Nat) (calls : List TimedCall) (h : Host)
    (outcomes : Table Nat Outcome) : Prop
    extends Answered config quiet calls (fun k => k + 1 < calls.length) h outcomes where
  pending : h.pending = some calls.length
  cancelled : ∀ n ∈ h.cancelled, n < calls.length

def lastRebuild (quiet : Nat) (id : HostId) (calls : List TimedCall) (last : TimedCall) : Rebuild :=
  ⟨calls.length, id, calls.length + 1, last.time + quiet, last.fragments⟩

theorem finish_latest (settings : HostConfig) (bindings : BindingProvider) {generation : Nat} (fragments : List Fragment)
    (hlatest : h.generation = generation) (hlive : h.isCancelled generation = false) :
    ∃ g, Build.build ⟨bindings, h.evaluator, settings.options⟩ fragments (fun _ => false) = .ok g ∧
      h.finish settings bindings generation fragments =
        (.ok ⟨generation, g⟩, { h with published := ⟨generation, g⟩, pending := none, stable := true }) := by
  obtain ⟨g, hg⟩ := build_never_cancelled ⟨bindings, h.evaluator, settings.options⟩ fragments
  refine ⟨g, hg, ?_⟩
  have hbuild : Build.build ⟨bindings, h.evaluator, settings.options⟩ fragments (fun _ => h.isCancelled generation) =
      .ok g := by
    rw [hlive]
    exact hg
  simp [Host.finish, hbuild, Host.publish?, Host.settle, hlatest]

/-- The quiet time of the last call passes: the call builds and publishes. -/
theorem Waiting.rests {settings : HostConfig} (hw : Waiting config quiet (calls ++ [last]) h outcomes)
    (hoptions : settings.options = config.options) :
    Rested config quiet (calls ++ [last])
      (h.finish settings config.bindings (calls.length + 1) last.fragments).2
      (outcomes.insert calls.length
        (.built (h.finish settings config.bindings (calls.length + 1) last.fragments).1)) := by
  have hlive : h.isCancelled (calls.length + 1) = false := by
    refine decide_eq_false fun hmem => ?_
    have hlt := hw.cancelled _ hmem
    simp at hlt
  have hlast : (calls ++ [last])[calls.length]? = some last := by simp
  have hlasts : Lasts quiet (calls ++ [last]) calls.length last := by simp [Lasts]
  obtain ⟨g, hbuild, hfinish⟩ := finish_latest settings config.bindings last.fragments
    (by simpa using hw.generation) hlive
  rw [hw.evaluator, hoptions] at hbuild
  rw [hfinish]
  refine ⟨⟨hw.evaluator, hw.generation, ?_, ?_⟩, rfl, fun n hn => Nat.le_of_lt (hw.cancelled n hn)⟩
  · intro k call hcall _
    by_cases hk : k = calls.length
    · subst hk
      obtain rfl := Option.some.inj (hlast.symm.trans hcall)
      exact ⟨_, by simp, .graph hlasts hbuild⟩
    · have hlt : k < (calls ++ [last]).length := (List.getElem?_eq_some_iff.mp hcall).1
      obtain ⟨o, ho, hreturns⟩ := hw.returns k call hcall (by simp at hlt ⊢; omega)
      exact ⟨o, by simpa [Table.get?_insert, Ne.symm hk] using ho, hreturns⟩
  · refine .last hlast ⟨hlasts, trivial⟩ (fun j later hlater _ => ?_) hbuild
    have hlt : j < (calls ++ [last]).length := (List.getElem?_eq_some_iff.mp hlater).1
    simp only [List.length_append, List.length_singleton] at hlt
    omega

/-- A call after all others have ended waits for its quiet time. -/
theorem Rested.waits (hr : Rested config quiet calls h outcomes)
    (hlate : ∀ last, calls.getLast? = some last → last.time + quiet < new.time) :
    Waiting config quiet (calls ++ [new]) h.begin outcomes := by
  have hbegin : h.begin = { h with generation := h.generation + 1, pending := some (h.generation + 1),
                                    stable := false } := by
    simp [Host.begin, Host.cancelPending, hr.pending]
  rw [hbegin]
  refine ⟨⟨hr.evaluator, by simp [hr.generation], ?_, ?_⟩, by simp [hr.generation], ?_⟩
  · intro k call hcall hk
    have hbefore := before_last_iff.mp ⟨hcall, hk⟩
    obtain ⟨o, ho, hreturns⟩ := hr.returns k call hbefore trivial
    exact ⟨o, ho, hreturns.congr (lasts_concat_late hlate hbefore).symm⟩
  · refine hr.shows.congr fun k call => ?_
    constructor
    · rintro ⟨hcall, hlasts, _⟩
      obtain ⟨hcall', hk⟩ := before_last_iff.mpr hcall
      exact ⟨hcall', (lasts_concat_late hlate hcall).mpr hlasts, hk⟩
    · rintro ⟨hcall, hlasts, hk⟩
      have hbefore := before_last_iff.mp ⟨hcall, hk⟩
      exact ⟨hbefore, (lasts_concat_late hlate hbefore).mp hlasts, trivial⟩
  · intro n hn
    have hle := hr.cancelled n hn
    simp only [List.length_append, List.length_singleton]
    omega

/-- A call within the quiet time of the last one takes its place. -/
theorem Waiting.supersedes (hw : Waiting config quiet (calls ++ [last]) h outcomes)
    (hsoon : new.time < last.time + quiet) :
    Waiting config quiet (calls ++ [last] ++ [new]) h.begin
      (outcomes.insert calls.length (.built (.error (.cancelled 0 last.fragments.length)))) := by
  have hbegin : h.begin = { h with
      cancelled := (calls ++ [last]).length :: h.cancelled
      generation := h.generation + 1
      pending := some (h.generation + 1)
      stable := false } := by
    simp [Host.begin, Host.cancelPending, hw.pending]
  have hover : ¬ Lasts quiet (calls ++ [last] ++ [new]) calls.length last := by
    rw [lasts_concat_last (by simp)]
    omega
  have hlast : ∀ {k call}, (calls ++ [last])[k]? = some call →
      k = calls.length ∧ call = last ∨ k + 1 < (calls ++ [last]).length := by
    intro k call hcall
    have hk := (List.getElem?_eq_some_iff.mp hcall).1
    simp only [List.length_append, List.length_singleton] at hk ⊢
    by_cases heq : k = calls.length
    · subst heq
      exact .inl ⟨rfl, by simpa using hcall.symm⟩
    · exact .inr (by omega)
  rw [hbegin]
  refine ⟨⟨hw.evaluator, by simp [hw.generation], ?_, ?_⟩, by simp [hw.generation], ?_⟩
  · intro k call hcall hk
    have hbefore := before_last_iff.mp ⟨hcall, hk⟩
    obtain ⟨rfl, rfl⟩ | hinner := hlast hbefore
    · exact ⟨_, by simp, .cancelled hover⟩
    · obtain ⟨o, ho, hreturns⟩ := hw.returns k call hbefore hinner
      have hne : calls.length ≠ k := by
        simp only [List.length_append, List.length_singleton] at hinner
        omega
      exact ⟨o, by simpa [Table.get?_insert, hne] using ho, hreturns.congr (lasts_concat_inner hinner).symm⟩
  · refine hw.shows.congr fun k call => ?_
    constructor
    · rintro ⟨hcall, hlasts, hinner⟩
      obtain ⟨hcall', hk⟩ := before_last_iff.mpr hcall
      exact ⟨hcall', (lasts_concat_inner hinner).mpr hlasts, hk⟩
    · rintro ⟨hcall, hlasts, hk⟩
      have hbefore := before_last_iff.mp ⟨hcall, hk⟩
      obtain ⟨rfl, rfl⟩ | hinner := hlast hbefore
      · exact absurd hlasts hover
      · exact ⟨hbefore, (lasts_concat_inner hinner).mp hlasts, hinner⟩
  · intro n hn
    rcases List.mem_cons.mp hn with rfl | hn
    · simp
    · have hlt := hw.cancelled n hn
      simp only [List.length_append, List.length_singleton] at hlt ⊢
      omega

end Invariant

section Runs
open Timeline
variable {w : Workspace} {c : ContextId} {id : HostId} {evaluator : ConstEvaluator} {calls : List TimedCall} {s : Timeline.State}

def buildConfig (w : Workspace) (evaluator : ConstEvaluator) : BuildConfig := ⟨w.bindings, evaluator, w.config.options⟩

inductive UnderWay (w : Workspace) (id : HostId) (evaluator : ConstEvaluator) : List TimedCall → Timeline.State → Prop
  | fresh {h : Host} {outcomes : Table Nat Outcome}
      (hrested : Rested (buildConfig w evaluator) w.config.debounce [] h outcomes) :
      UnderWay w id evaluator [] (running w id h [] outcomes)
  | busy {calls : List TimedCall} {last : TimedCall} {h : Host} {outcomes : Table Nat Outcome}
      (hwaiting : Waiting (buildConfig w evaluator) w.config.debounce (calls ++ [last]) h outcomes) :
      UnderWay w id evaluator (calls ++ [last])
        (running w id h [lastRebuild w.config.debounce id calls last] outcomes)

/-- As time passes, the last call ends or goes on waiting. -/
theorem UnderWay.elapse (hs : UnderWay w id evaluator calls s) (hid : id.index < w.hosts.size) (isDue : Nat → Bool) :
    (∃ h outcomes, Timeline.elapse isDue s = running w id h [] outcomes ∧
      Rested (buildConfig w evaluator) w.config.debounce calls h outcomes ∧
      ∀ last, calls.getLast? = some last → isDue (last.time + w.config.debounce) = true) ∨
    ∃ done last h outcomes, calls = done ++ [last] ∧
      Timeline.elapse isDue s = running w id h [lastRebuild w.config.debounce id done last] outcomes ∧
      Waiting (buildConfig w evaluator) w.config.debounce (done ++ [last]) h outcomes ∧
      isDue (last.time + w.config.debounce) = false := by
  cases hs with
  | fresh hrested => exact .inl ⟨_, _, elapse_nothing isDue, hrested, by simp⟩
  | @busy done last h outcomes hwaiting =>
    rw [elapse_one]
    cases hdue : isDue (lastRebuild w.config.debounce id done last).due with
    | true =>
      refine .inl ⟨_, _, (if_pos rfl).trans (complete_running hid rfl), hwaiting.rests rfl, fun x hx => ?_⟩
      obtain rfl : last = x := by simpa using hx
      exact hdue
    | false => exact .inr ⟨done, last, h, outcomes, rfl, if_neg (by simp), hwaiting, hdue⟩

theorem settle_stale {h : Host} {generation : Nat} (hne : h.generation ≠ generation) : h.settle generation = h :=
  if_neg hne

/-- One more call is started. -/
theorem UnderWay.step (hs : UnderWay w id evaluator calls s) (hid : id.index < w.hosts.size) (hget : w.get? c = some id)
    {new : TimedCall} (hapart : ∀ last, calls.getLast? = some last → new.time ≠ last.time + w.config.debounce) :
    UnderWay w id evaluator (calls ++ [new]) (Timeline.step s (new.on c, calls.length)) := by
  have hnot : ∀ {calls : List TimedCall} {h : Host} {outcomes : Table Nat Outcome},
      Waiting (buildConfig w evaluator) w.config.debounce calls h outcomes → h.isCancelled calls.length = false :=
    fun hwaiting => decide_eq_false fun hmem => Nat.lt_irrefl _ (hwaiting.cancelled _ hmem)
  unfold Timeline.step
  obtain ⟨h, outcomes, helapse, hrested, hdue⟩ | ⟨done, last, h, outcomes, rfl, helapse, hwaiting, hdue⟩ :=
    hs.elapse hid fun due => decide (due ≤ (new.on c).time)
  · have hlate : ∀ last, calls.getLast? = some last → last.time + w.config.debounce < new.time := by
      intro last hlast
      have hle : last.time + w.config.debounce ≤ new.time := of_decide_eq_true (hdue last hlast)
      have hne := hapart last hlast
      omega
    have hwaiting := hrested.waits hlate
    have hlive := hnot hwaiting
    rw [helapse, start_running hid hget, hrested.generation, List.nil_append]
    rw [sweep_running hid rfl (by simpa using hlive)]
    exact .busy hwaiting
  · have hsoon : new.time < last.time + w.config.debounce := by
      have hlt : ¬ last.time + w.config.debounce ≤ new.time := of_decide_eq_false hdue
      omega
    have hnext := hwaiting.supersedes hsoon
    have hlive := hnot hnext
    have hdead : h.begin.isCancelled (done.length + 1) = true := by
      simp [Host.begin, Host.cancelPending, hwaiting.pending, Host.isCancelled]
    rw [helapse, start_running hid hget, hwaiting.generation, List.singleton_append]
    rw [sweep_superseded hid rfl rfl hdead (by simpa using hlive)]
    rw [settle_stale (by simp [hnext.generation, lastRebuild])]
    exact .busy hnext

/-- No call comes exactly at the end of the quiet time of the one before it. -/
def NoTies (quiet : Nat) (calls : List TimedCall) : Prop :=
  ∀ k call next, calls[k]? = some call → calls[k + 1]? = some next → next.time ≠ call.time + quiet

theorem NoTies.of_append {quiet : Nat} {early late : List TimedCall} (h : NoTies quiet (early ++ late)) :
    NoTies quiet early := by
  intro k call next hcall hnext
  have hk := (List.getElem?_eq_some_iff.mp hcall).1
  have hk' := (List.getElem?_eq_some_iff.mp hnext).1
  exact h k call next (by rwa [List.getElem?_append_left hk]) (by rwa [List.getElem?_append_left hk'])

/-- The state after calls that are started one after another. -/
theorem under_way_of_calls (hid : id.index < w.hosts.size) (hget : w.get? c = some id)
    (hnew : w.host id = Host.new w.bindings evaluator) (hapart : NoTies w.config.debounce calls) :
    UnderWay w id evaluator calls ((calls.map (TimedCall.on c)).zipIdx.foldl Timeline.step { workspace := w }) := by
  induction calls using List.reverseRecOn with
  | nil =>
    have hsame : ({ workspace := w } : Timeline.State) = running w id (Host.new w.bindings evaluator) [] {} := by
      have hhosts : w.hosts.modify id.index (fun _ => Host.new w.bindings evaluator) = w.hosts := by
        refine Array.ext (by simp) fun i hi hi' => ?_
        rw [Array.getElem_modify]
        split
        · rename_i heq
          subst heq
          rw [← hnew]
          simp [Workspace.host, hid]
        · rfl
      simp [running, Workspace.modifyHost, hhosts]
    simp only [List.map_nil, List.zipIdx_nil, List.foldl_nil, hsame]
    refine .fresh ⟨⟨rfl, rfl, by simp, .nothing (by simp)⟩, rfl, by simp [Host.new]⟩
  | append_singleton calls new ih =>
    have hlast : ∀ last, calls.getLast? = some last → new.time ≠ last.time + w.config.debounce := by
      intro last hlast
      rw [List.getLast?_eq_getElem?] at hlast
      have hk := (List.getElem?_eq_some_iff.mp hlast).1
      refine hapart (calls.length - 1) last new ?_ ?_
      · rwa [List.getElem?_append_left hk]
      · rw [Nat.sub_add_cancel (by omega)]
        simp
    have hstep := (ih hapart.of_append).step hid hget hlast
    simpa [List.zipIdx_append] using hstep

theorem UnderWay.elapse_all (hs : UnderWay w id evaluator calls s) {t : Nat}
    (ht : ∀ call ∈ calls, call.time + w.config.debounce ≤ t) :
    Timeline.elapse (fun due => decide (due ≤ t)) s = Timeline.elapse (fun _ => true) s := by
  cases hs with
  | fresh => rw [elapse_nothing, elapse_nothing]
  | @busy done last h outcomes hwaiting =>
    have hdue : last.time + w.config.debounce ≤ t := ht last (by simp)
    rw [elapse_one, elapse_one]
    simp [lastRebuild, hdue]

end Runs

section Instants
variable {quiet t : Nat} {calls early late : List TimedCall} {config : BuildConfig}

/-- Calls in the order of their times are taken up in that order. -/
theorem timed_calls (c : ContextId) (hincreasing : calls.Pairwise fun a b => a.time < b.time) :
    (calls.map (TimedCall.on c)).zipIdx.mergeSort (fun a b => decide (a.1.time ≤ b.1.time)) =
      (calls.map (TimedCall.on c)).zipIdx := by
  refine List.mergeSort_of_pairwise ?_
  have hactions : (calls.map (TimedCall.on c)).Pairwise fun a b => a.time ≤ b.time :=
    List.pairwise_map.mpr (hincreasing.imp fun hlt => Nat.le_of_lt hlt)
  rw [← List.zipIdx_map_fst 0 (calls.map (TimedCall.on c))] at hactions
  exact (List.pairwise_map.mp hactions).imp fun hle => decide_eq_true hle

theorem split_at_time (t : Nat) (hincreasing : calls.Pairwise fun a b => a.time < b.time) :
    ∃ early late, calls = early ++ late ∧ (∀ call ∈ early, call.time ≤ t) ∧ ∀ call ∈ late, t < call.time := by
  induction calls with
  | nil => exact ⟨[], [], rfl, by simp, by simp⟩
  | cons call calls ih =>
    obtain ⟨hhead, htail⟩ := List.pairwise_cons.mp hincreasing
    by_cases hle : call.time ≤ t
    · obtain ⟨early, late, rfl, hearly, hlate⟩ := ih htail
      exact ⟨call :: early, late, rfl, by simpa [hle] using hearly, hlate⟩
    · refine ⟨[], call :: calls, rfl, by simp, ?_⟩
      intro x hx
      rcases List.mem_cons.mp hx with rfl | hx
      · omega
      · have hlt := hhead x hx
        omega

/-- By a time between two calls, those before it are all that was started. -/
theorem started_by (c : ContextId) (hearly : ∀ call ∈ early, call.time ≤ t) (hlate : ∀ call ∈ late, t < call.time) :
    ((early ++ late).map (TimedCall.on c)).zipIdx.filter (fun a => decide (a.1.time ≤ t)) =
      (early.map (TimedCall.on c)).zipIdx := by
  rw [List.map_append, List.zipIdx_append, List.filter_append, List.filter_eq_self.mpr, List.filter_eq_nil_iff.mpr,
    List.append_nil]
  · intro a ha
    obtain ⟨call, hcall, hcalled⟩ := List.mem_map.mp (List.fst_mem_of_mem_zipIdx ha)
    have hlt : t < a.1.time := hcalled ▸ hlate call hcall
    simpa using hlt
  · intro a ha
    obtain ⟨call, hcall, hcalled⟩ := List.mem_map.mp (List.fst_mem_of_mem_zipIdx ha)
    have hle : a.1.time ≤ t := hcalled ▸ hearly call hcall
    simpa using hle

/-- Later calls do not change which call was the last to build by a time. -/
theorem shows_by {shown : Snapshot} (hearly : ∀ call ∈ early, call.time ≤ t) (hlate : ∀ call ∈ late, t < call.time)
    (h : ShowsLast config early
      (fun k call => Lasts quiet early k call ∧ (k + 1 < early.length ∨ call.time + quiet < t)) shown) :
    ShowsLast config (early ++ late)
      (fun k call => Lasts quiet (early ++ late) k call ∧ call.time + quiet < t) shown := by
  refine h.congr fun k call => ?_
  constructor
  · rintro ⟨hcall, hlasts, hover⟩
    have hk := (List.getElem?_eq_some_iff.mp hcall).1
    have hended : call.time + quiet < t := by
      rcases hover with hinner | hover
      · have hnext : early[k + 1]? = some early[k + 1] := List.getElem?_eq_getElem hinner
        have hlt := hlasts _ hnext
        have hle := hearly _ (List.mem_of_getElem? hnext)
        omega
      · exact hover
    refine ⟨by rwa [List.getElem?_append_left hk], fun next hnext => ?_, hended⟩
    rw [List.getElem?_append] at hnext
    split at hnext
    · exact hlasts next hnext
    · have hlt := hlate next (List.mem_of_getElem? hnext)
      omega
  · rintro ⟨hcall, hlasts, hended⟩
    rw [List.getElem?_append] at hcall
    split at hcall
    · rename_i hk
      refine ⟨hcall, fun next hnext => hlasts next ?_, .inr hended⟩
      rwa [List.getElem?_append_left (List.getElem?_eq_some_iff.mp hnext).1]
    · have hlt := hlate call (List.mem_of_getElem? hcall)
      omega

end Instants

section Outcomes
variable {w : Workspace} {c : ContextId} {id : HostId} {evaluator : ConstEvaluator} {calls : List TimedCall}

theorem calls_return (hid : id.index < w.hosts.size) (hget : w.get? c = some id)
    (hnew : w.host id = Host.new w.bindings evaluator) (hincreasing : calls.Pairwise fun a b => a.time < b.time)
    (hties : NoTies w.config.debounce calls) {k : Nat} {call : TimedCall} (hcall : calls[k]? = some call) :
    ∃ o, (Timeline.run w (calls.map (TimedCall.on c))).1[k]? = some o ∧
      Returns (buildConfig w evaluator) w.config.debounce calls k call o := by
  have hunder := under_way_of_calls hid hget hnew hties
  have hfinal : Timeline.finalState w (calls.map (TimedCall.on c)) = Timeline.elapse (fun _ => true)
      ((calls.map (TimedCall.on c)).zipIdx.foldl Timeline.step { workspace := w }) := by
    rw [Timeline.finalState, timed_calls c hincreasing]
  obtain ⟨h, outcomes, helapse, hrested, _⟩ | ⟨_, _, _, _, _, _, _, hdue⟩ := hunder.elapse hid fun _ => true
  · obtain ⟨o, ho, hreturns⟩ := hrested.returns k call hcall trivial
    have hk := (List.getElem?_eq_some_iff.mp hcall).1
    refine ⟨o, ?_, hreturns⟩
    simp [Timeline.run, hfinal, helapse, running, hk, ho]
  · cases hdue

theorem calls_show (hid : id.index < w.hosts.size) (hget : w.get? c = some id)
    (hnew : w.host id = Host.new w.bindings evaluator) (hincreasing : calls.Pairwise fun a b => a.time < b.time)
    (hties : NoTies w.config.debounce calls) {t : Nat}
    (ht : ∀ call ∈ calls, t ≠ call.time + w.config.debounce) :
    ShowsLast (buildConfig w evaluator) calls
      (fun k call => Lasts w.config.debounce calls k call ∧ call.time + w.config.debounce < t)
      ((stateAt w (calls.map (TimedCall.on c)) t).workspace.host id).published := by
  obtain ⟨early, late, rfl, hearly, hlate⟩ := split_at_time t hincreasing
  have hunder := under_way_of_calls hid hget hnew hties.of_append
  rw [stateAt, timed_calls c hincreasing, started_by c hearly hlate]
  refine shows_by hearly hlate ?_
  obtain ⟨h, outcomes, helapse, hrested, hdue⟩ | ⟨done, last, h, outcomes, rfl, helapse, hwaiting, hdue⟩ :=
    hunder.elapse hid fun due => decide (due ≤ t)
  · rw [helapse, running, host_set hid]
    refine hrested.shows.congr fun k call => ?_
    constructor
    · rintro ⟨hcall, hlasts, _⟩
      refine ⟨hcall, hlasts, ?_⟩
      by_cases hinner : k + 1 < early.length
      · exact .inl hinner
      · have hle : call.time + w.config.debounce ≤ t := of_decide_eq_true (hdue call (last_of_end hcall hinner))
        have hne := ht call (List.mem_append_left _ (List.mem_of_getElem? hcall))
        exact .inr (by omega)
    · rintro ⟨hcall, hlasts, _⟩
      exact ⟨hcall, hlasts, trivial⟩
  · rw [helapse, running, host_set hid]
    refine hwaiting.shows.congr fun k call => ?_
    constructor
    · rintro ⟨hcall, hlasts, hinner⟩
      exact ⟨hcall, hlasts, .inl hinner⟩
    · rintro ⟨hcall, hlasts, hinner | hended⟩
      · exact ⟨hcall, hlasts, hinner⟩
      · refine ⟨hcall, hlasts, Classical.byContradiction fun hend => ?_⟩
        obtain rfl : last = call := by simpa using last_of_end hcall hend
        have hgt : ¬ last.time + w.config.debounce ≤ t := of_decide_eq_false hdue
        omega

theorem calls_end (hid : id.index < w.hosts.size) (hget : w.get? c = some id)
    (hnew : w.host id = Host.new w.bindings evaluator) (hincreasing : calls.Pairwise fun a b => a.time < b.time)
    (hties : NoTies w.config.debounce calls) {t : Nat}
    (ht : ∀ call ∈ calls, call.time + w.config.debounce ≤ t) :
    stateAt w (calls.map (TimedCall.on c)) t = Timeline.finalState w (calls.map (TimedCall.on c)) := by
  have hunder := under_way_of_calls hid hget hnew hties
  have hall : (calls.map (TimedCall.on c)).zipIdx.filter (fun a => decide (a.1.time ≤ t)) =
      (calls.map (TimedCall.on c)).zipIdx := by
    have hby : ((calls ++ []).map (TimedCall.on c)).zipIdx.filter (fun a => decide (a.1.time ≤ t)) =
        (calls.map (TimedCall.on c)).zipIdx :=
      started_by c (fun call hcall => Nat.le_trans (Nat.le_add_right ..) (ht call hcall)) (by simp)
    rwa [List.append_nil] at hby
  rw [stateAt, Timeline.finalState, timed_calls c hincreasing, hall]
  exact hunder.elapse_all ht

end Outcomes

/-- A context that was just opened has a host of its own, which is new. -/
theorem opened_host (w : Workspace) (c : ContextId) (evaluator : ConstEvaluator) :
    (w.openContext c evaluator).2.index < (w.openContext c evaluator).1.hosts.size ∧
      (w.openContext c evaluator).1.get? c = some (w.openContext c evaluator).2 ∧
      (w.openContext c evaluator).1.host (w.openContext c evaluator).2 = Host.new w.bindings evaluator ∧
      (w.openContext c evaluator).1.config = w.config ∧ (w.openContext c evaluator).1.bindings = w.bindings := by
  have hcancel : (w.cancelContext c).hosts.size = w.hosts.size ∧ (w.cancelContext c).config = w.config ∧
      (w.cancelContext c).bindings = w.bindings := by
    unfold Workspace.cancelContext
    split <;> simp [Workspace.modifyHost]
  obtain ⟨hsize, hconfig, hbindings⟩ := hcancel
  refine ⟨?_, ?_, ?_, hconfig, hbindings⟩
  · simp [Workspace.openContext, hsize]
  · simp [Workspace.openContext, Workspace.get?]
  · simp [Workspace.openContext, Workspace.host, ← hsize, hbindings]

/-- Rebuilds of a host that was just opened, asked for at increasing times and never exactly as the quiet time of the
call before ends. A call builds if it is the last one or the next one comes after its quiet time, and otherwise
returns that it was cancelled before any of its fragments. Whenever nothing starts or ends, the published graph is
that of the last call that has built by then. In the end all calls have ended. -/
theorem rebuilds_coalesce (w : Workspace) (c : ContextId) (evaluator : ConstEvaluator) {calls : List TimedCall}
    (hincreasing : calls.Pairwise fun a b => a.time < b.time) (hties : NoTies w.config.debounce calls) :
    (∀ k call, calls[k]? = some call → ∃ o,
      (Timeline.run (w.openContext c evaluator).1 (calls.map (TimedCall.on c))).1[k]? = some o ∧
      Returns (buildConfig w evaluator) w.config.debounce calls k call o) ∧
    (∀ t, (∀ call ∈ calls, t ≠ call.time ∧ t ≠ call.time + w.config.debounce) →
      ShowsLast (buildConfig w evaluator) calls
        (fun k call => Lasts w.config.debounce calls k call ∧ call.time + w.config.debounce < t)
        ((stateAt (w.openContext c evaluator).1 (calls.map (TimedCall.on c)) t).workspace.host
          (w.openContext c evaluator).2).published) ∧
    ∀ t, (∀ call ∈ calls, call.time + w.config.debounce ≤ t) →
      stateAt (w.openContext c evaluator).1 (calls.map (TimedCall.on c)) t =
        Timeline.finalState (w.openContext c evaluator).1 (calls.map (TimedCall.on c)) := by
  obtain ⟨hid, hget, hhost, hconfig, hbindings⟩ := opened_host w c evaluator
  have hsame : buildConfig (w.openContext c evaluator).1 evaluator = buildConfig w evaluator := by
    simp only [buildConfig, hconfig, hbindings]
  rw [← hbindings] at hhost
  rw [← hconfig] at hties ⊢
  rw [← hsame]
  refine ⟨fun k call hcall => calls_return hid hget hhost hincreasing hties hcall, fun t ht => ?_,
    fun t ht => calls_end hid hget hhost hincreasing hties ht⟩
  exact calls_show hid hget hhost hincreasing hties fun call hcall => (ht call hcall).2

def burst : List TimedCall :=
  [⟨0, []⟩, ⟨100, [⟨⟨0⟩, .root [] [.child { name := { name := "soc" } } []] {}⟩]⟩, ⟨1000, []⟩]

/-- The first call is cancelled, and what the second one builds is published while the third one is not in sight. -/
theorem rebuilds_coalesce_burst :
    (Timeline.run (Workspace.openContext {} ⟨0⟩ default).1 (burst.map (TimedCall.on ⟨0⟩))).1[0]? =
      some (.built (.error (.cancelled 0 0))) ∧
    ∃ g, (Timeline.run (Workspace.openContext {} ⟨0⟩ default).1 (burst.map (TimedCall.on ⟨0⟩))).1[1]? =
        some (.built (.ok ⟨2, g⟩)) ∧
      ((stateAt (Workspace.openContext {} ⟨0⟩ default).1 (burst.map (TimedCall.on ⟨0⟩)) 500).workspace.host
        (Workspace.openContext {} ⟨0⟩ default).2).published = ⟨2, g⟩ := by
  have hties : NoTies (HostConfig.debounce {}) burst := by
    intro k call next hcall hnext
    match k with
    | 0 | 1 =>
      cases hcall
      cases hnext
      decide
    | k + 2 => simp [burst] at hnext
  have hfirst : ¬ Lasts (HostConfig.debounce {}) burst 0 ⟨0, []⟩ := fun h => absurd (h _ rfl) (by decide)
  have hsecond : ∀ call, burst[1]? = some call → Lasts (HostConfig.debounce {}) burst 1 call := by
    rintro _ ⟨rfl⟩ _ ⟨rfl⟩
    decide
  obtain ⟨hreturns, hshows, _⟩ := rebuilds_coalesce {} ⟨0⟩ default (by simp [burst]) hties
  constructor
  · obtain ⟨o, ho, hreturn⟩ := hreturns 0 ⟨0, []⟩ rfl
    cases hreturn with
    | graph hlasts _ => exact absurd hlasts hfirst
    | cancelled => exact ho
  · obtain ⟨o, ho, hreturn⟩ := hreturns 1 _ rfl
    cases hreturn with
    | cancelled hover => exact absurd (hsecond _ rfl) hover
    | @graph g _ hbuild =>
      refine ⟨g, ho, ?_⟩
      have hshown := hshows 500 (by decide)
      generalize ((stateAt _ _ 500).workspace.host _).published = shown at hshown ⊢
      cases hshown with
      | nothing hnone => exact absurd ⟨hsecond _ rfl, by decide⟩ (hnone 1 _ rfl)
      | @last k call g' hcall hcounts _ hbuild' =>
        match k with
        | 0 =>
          cases hcall
          exact absurd hcounts.1 hfirst
        | 1 =>
          cases hcall
          rw [Except.ok.inj (hbuild'.symm.trans hbuild)]
        | 2 =>
          cases hcall
          exact absurd hcounts.2 (by decide)
        | k + 3 => simp [burst] at hcall

end Devicetree.Proofs
