import RayTfm.CoreWorker.ActorTaskSubmitter
import RayTfm.CoreWorker.SubmitQueueLaws

/-! # The pending calls of an actor

`curPendingCalls` is meant to count the calls that wait in the submit queue and those in flight.
Every step keeps the difference (`balance`), except for one: a queued call whose dependencies fail
leaves the queue without a change of the counter.  So the counter is right after every step of a run
if and only if that happens in none of its steps (`run_accounted_iff_failsQueued`). -/

namespace RayTfm.CoreWorker
open Raylet

variable {Q T : Type}

/-- The tasks that an output sends, or posts to fail. -/
def SubmitterOutput.sent? : SubmitterOutput T → Option (TaskSpecification T)
  | .pushTask taskSpec _ _ _ => some taskSpec
  | .postFailure taskSpec => some taskSpec
  | _ => none

/-- The tasks whose reply has been handled. -/
def SubmitterOutput.handled? : SubmitterOutput T → Option (TaskSpecification T)
  | .handled taskSpec => some taskSpec
  | _ => none

/-- The task that an event submits. -/
def SubmitterEvent.submitted? : SubmitterEvent T → Option (TaskSpecification T)
  | .submitTask taskSpec => some taskSpec
  | _ => none

theorem takeAt_perm {A : Type} {k : ℕ} {l l' : List A} {a : A} (h : takeAt k l = some (a, l')) :
    l.Perm (a :: l') := by
  obtain ⟨b, hb, heq⟩ := Option.map_eq_some_iff.mp h
  cases heq
  obtain ⟨hk, rfl⟩ := List.getElem?_eq_some_iff.mp hb
  exact (List.getElem_cons_eraseIdx_perm hk).symm

theorem coe_of_takeAt {A : Type} {k : ℕ} {l l' : List A} {a : A} (h : takeAt k l = some (a, l')) :
    (l : Multiset A) = {a} + l' := by
  rw [Multiset.coe_eq_coe.mpr (takeAt_perm h), Multiset.singleton_add, Multiset.cons_coe]

namespace ActorTaskSubmitter

/-- The calls in flight: pushed, or posted to fail, and not yet handled. -/
def inFlight (s : ActorTaskSubmitter Q T) : List (TaskSpecification T) :=
  s.inflightTaskCallbacks.values ++ (s.calls ++ s.handling).map ReplyCall.taskSpec

/-- The calls whose dependencies are being resolved. -/
def waiting (s : ActorTaskSubmitter Q T) : List (TaskSpecification T) :=
  s.submitting ++ s.posted ++ s.resolving ++ s.taken.map Prod.fst

/-- The tasks have different attempts and different places in the queue. -/
structure Distinct (submitted : List (TaskSpecification T)) : Prop where
  attempts : (submitted.map TaskSpecification.attempt).Nodup
  places : (submitted.map TaskSpecification.place).Nodup

theorem coe_inFlight (s : ActorTaskSubmitter Q T) :
    (s.inFlight : Multiset (TaskSpecification T)) =
      s.inflightTaskCallbacks.values +
        (s.calls.map ReplyCall.taskSpec + s.handling.map ReplyCall.taskSpec) := by
  rw [inFlight, List.map_append, ← Multiset.coe_add, ← Multiset.coe_add]

theorem coe_waiting (s : ActorTaskSubmitter Q T) :
    (s.waiting : Multiset (TaskSpecification T)) =
      s.submitting + (s.posted + (s.resolving + s.taken.map Prod.fst)) := by
  rw [waiting, List.append_assoc, List.append_assoc, ← Multiset.coe_add, ← Multiset.coe_add,
    ← Multiset.coe_add]

/-! ### One task more in flight -/

/-- `taskSpec` is sent, or posted to fail. -/
structure Sent (s s' : ActorTaskSubmitter Q T) (o : List (SubmitterOutput T))
    (taskSpec : TaskSpecification T) : Prop where
  queue : s'.actorSubmitQueue = s.actorSubmitQueue
  waiting : s'.waiting = s.waiting
  count : s'.curPendingCalls = s.curPendingCalls
  address : s'.clientAddress = s.clientAddress
  worker : s'.workerId = s.workerId
  inFlight : (s'.inFlight : Multiset (TaskSpecification T)) = {taskSpec} + s.inFlight
  keys : (∀ e ∈ s.inflightTaskCallbacks.entries, e.1 = e.2.attempt) →
    ∀ e ∈ s'.inflightTaskCallbacks.entries, e.1 = e.2.attempt
  sent : o.filterMap SubmitterOutput.sent? = [taskSpec]
  handled : o.filterMap SubmitterOutput.handled? = []

theorem postFailure_sent (s : ActorTaskSubmitter Q T) (taskSpec : TaskSpecification T)
    (skipQueue : Bool) :
    ∃ s' o, postFailure s taskSpec skipQueue = .ok (s', o) ∧ Sent s s' o taskSpec := by
  refine ⟨_, _, rfl, rfl, rfl, rfl, rfl, rfl, ?_, id, rfl, rfl⟩
  rw [coe_inFlight, coe_inFlight]
  simp only [List.map_append, List.map_singleton, ← Multiset.coe_add, Multiset.coe_singleton]
  abel

variable [DecidableEq T]
variable {s : ActorTaskSubmitter Q T} {taskSpec : TaskSpecification T}

theorem sendTask_sent (addr : Address) (hworker : s.workerId ≠ "")
    (hnew : s.inflightTaskCallbacks.get? taskSpec.attempt = none) (skipQueue : Bool) :
    ∃ s' o, sendTask addr s taskSpec skipQueue = .ok (s', o) ∧ Sent s s' o taskSpec := by
  have hentries := Dict.entries_set_of_notMem taskSpec (Dict.get?_eq_none_iff.mp hnew)
  unfold sendTask pushActorTask
  simp only [hworker, hnew, ne_eq, not_false_eq_true, decide_true, rayCheck_true, ok_bind,
    Option.isSome_none, Bool.false_eq_true, if_false]
  refine ⟨_, _, rfl, rfl, rfl, rfl, rfl, rfl, ?_, fun hkeys e he => ?_, rfl, rfl⟩
  · rw [coe_inFlight, coe_inFlight]
    simp only [Dict.values, hentries, List.map_append, List.map_singleton, ← Multiset.coe_add,
      Multiset.coe_singleton]
    abel
  · simp only [hentries, List.mem_append, List.mem_singleton] at he
    obtain he | rfl := he
    · exact hkeys e he
    · rfl

theorem get?_eq_none_of_distinct {submitted : List (TaskSpecification T)}
    (hdistinct : Distinct submitted)
     {rest : Multiset (TaskSpecification T)}
    (hkeys : ∀ e ∈ s.inflightTaskCallbacks.entries, e.1 = e.2.attempt)
    (h : (submitted : Multiset (TaskSpecification T)) = {taskSpec} + (s.inFlight + rest)) :
    s.inflightTaskCallbacks.get? taskSpec.attempt = none := by
  rw [Dict.get?_eq_none_iff]
  intro hmem
  obtain ⟨e, he, hattempt⟩ := List.mem_map.mp hmem
  have hnodup : (Multiset.map TaskSpecification.attempt
    (submitted : Multiset (TaskSpecification T))).Nodup :=
    hdistinct.attempts
  rw [h, Multiset.singleton_add, Multiset.map_cons, Multiset.nodup_cons] at hnodup
  apply hnodup.1
  rw [Multiset.mem_map]
  refine ⟨e.2, ?_, ?_⟩
  · rw [Multiset.mem_add]
    left
    rw [Multiset.mem_coe, inFlight]
    exact List.mem_append_left _ (List.mem_map_of_mem he)
  · rw [← hkeys e he, hattempt]

variable [ActorSubmitQueue Q T] [LawfulActorSubmitQueue Q T]

/-! ### The invariant -/

omit [DecidableEq T] in
/-- The calls in the submit queue. -/
def queued (s : ActorTaskSubmitter Q T) : List (TaskSpecification T) :=
  LawfulActorSubmitQueue.queued s.actorSubmitQueue

/-- By how much the counter exceeds the number of pending calls. -/
def balance (s : ActorTaskSubmitter Q T) : ℤ :=
  s.curPendingCalls - s.queued.length - s.inFlight.length

/-- What holds after every step, when `submitted` are the tasks submitted and `out` what was put out
so far: every queued call lies at its own place, and is not resolved as long as its resolution is
under way; what was sent is in flight or handled; and no task is at two places. -/
structure Inv (submitted : List (TaskSpecification T)) (out : List (SubmitterOutput T))
    (s : ActorTaskSubmitter Q T) : Prop where
  ok : LawfulActorSubmitQueue.Ok s.actorSubmitQueue
  placed : ∀ {group sendPos item},
    LawfulActorSubmitQueue.find? s.actorSubmitQueue group sendPos = some item →
      item.1.place = (group, sendPos)
  known : ∃ gone : Multiset (TaskSpecification T), (submitted : Multiset (TaskSpecification T)) =
    s.queued + (s.inFlight + (out.filterMap SubmitterOutput.handled? + gone))
  sent : (out.filterMap SubmitterOutput.sent? : Multiset (TaskSpecification T)) =
    s.inFlight + out.filterMap SubmitterOutput.handled?
  keys : ∀ e ∈ s.inflightTaskCallbacks.entries, e.1 = e.2.attempt
  waits : ∃ called : Multiset (TaskSpecification T), (submitted : Multiset (TaskSpecification T)) =
    s.waiting + called
  unresolved : ∀ w ∈ s.waiting, ∀ item,
    LawfulActorSubmitQueue.find? s.actorSubmitQueue w.concurrencyGroupName
      w.concurrencyGroupSequenceNumber = some item → item.2 = false
  connected : s.clientAddress.isSome = true → s.workerId ≠ ""

variable {submitted : List (TaskSpecification T)} {out : List (SubmitterOutput T)}
  {s s' : ActorTaskSubmitter Q T}

/-! ### Sending -/

variable {o : List (SubmitterOutput T)}

omit [DecidableEq T] in
theorem Inv.popped {q : Q} {hash : ℕ} {skipQueue : Bool} (h : Inv submitted out s)
    (hpop : ActorSubmitQueue.popNextTaskToSend s.actorSubmitQueue hash =
      some ((taskSpec, skipQueue), q))
    (hsent : Sent { s with actorSubmitQueue := q } s' o taskSpec) :
    Inv submitted (out ++ o) s' ∧ s'.balance = s.balance := by
  obtain ⟨hok, hperm, group, sendPos, hfind, hrest⟩ := LawfulActorSubmitQueue.popped h.ok hpop
  have hqueue : s'.actorSubmitQueue = q := hsent.queue
  have hqueued : (s.queued : Multiset (TaskSpecification T)) = {taskSpec} + s'.queued := by
    unfold queued
    rw [hqueue, Multiset.coe_eq_coe.mpr hperm]
    rfl
  have hin : (s'.inFlight : Multiset (TaskSpecification T)) = {taskSpec} + s.inFlight := hsent.inFlight
  -- what the smaller queue finds the queue before found too
  have hfound : ∀ {g n item}, LawfulActorSubmitQueue.find? s'.actorSubmitQueue g n = some item →
      LawfulActorSubmitQueue.find? s.actorSubmitQueue g n = some item := by
    intro g n item hitem
    rw [hqueue, hrest] at hitem
    split_ifs at hitem
    exact hitem
  have hwaiting : s'.waiting = s.waiting := hsent.waiting
  refine ⟨⟨by rw [hqueue]; exact hok, fun hitem => h.placed (hfound hitem), ?_, ?_,
    hsent.keys h.keys, ?_, ?_, ?_⟩, ?_⟩
  · obtain ⟨gone, hgone⟩ := h.known
    refine ⟨gone, ?_⟩
    rw [List.filterMap_append, hsent.handled, List.append_nil, hgone, hqueued, hin]
    abel
  · rw [List.filterMap_append, List.filterMap_append, hsent.handled, hsent.sent, List.append_nil,
      ← Multiset.coe_add, h.sent, hin, Multiset.coe_singleton]
    abel
  · rw [hwaiting]
    exact h.waits
  · rw [hwaiting]
    exact fun w hw item hitem => h.unresolved w hw item (hfound hitem)
  · rw [hsent.address, hsent.worker]
    exact h.connected
  · have hcount : s'.curPendingCalls = s.curPendingCalls := hsent.count
    have h1 := congrArg Multiset.card hqueued
    have h2 := congrArg Multiset.card hin
    simp only [Multiset.coe_card, Multiset.card_add, Multiset.card_singleton] at h1 h2
    unfold balance
    omega

theorem Inv.popLoop (hdistinct : Distinct submitted)
    {body : ActorTaskSubmitter Q T → TaskSpecification T → Bool → Except RayError (Stepped Q T)}
    (hash : ℕ → ℕ) {workerId : String}
    (hbody : ∀ (s : ActorTaskSubmitter Q T) taskSpec skipQueue, s.workerId = workerId →
      s.inflightTaskCallbacks.get? taskSpec.attempt = none →
      ∃ s' o, body s taskSpec skipQueue = .ok (s', o) ∧ Sent s s' o taskSpec) :
    ∀ (rounds : ℕ) {s : ActorTaskSubmitter Q T} {out : List (SubmitterOutput T)}, Inv submitted out s →
      s.workerId = workerId →
      ∃ s' o, ActorTaskSubmitter.popLoop body hash rounds s = .ok (s', o) ∧
        Inv submitted (out ++ o) s' ∧ s'.balance = s.balance
  | 0, s, out, h, _ => ⟨s, [], rfl, by rwa [List.append_nil], rfl⟩
  | rounds + 1, s, out, h, hworker => by
    unfold ActorTaskSubmitter.popLoop
    cases hpop : ActorSubmitQueue.popNextTaskToSend s.actorSubmitQueue (hash rounds) with
    | none => exact ⟨s, [], rfl, by rwa [List.append_nil], rfl⟩
    | some popped =>
      obtain ⟨⟨taskSpec, skipQueue⟩, q⟩ := popped
      have hnew : s.inflightTaskCallbacks.get? taskSpec.attempt = none := by
        obtain ⟨-, hperm, -⟩ := LawfulActorSubmitQueue.popped h.ok hpop
        obtain ⟨gone, hgone⟩ := h.known
        apply get?_eq_none_of_distinct hdistinct h.keys
        rw [hgone, queued, Multiset.coe_eq_coe.mpr hperm, ← Multiset.cons_coe, ← Multiset.singleton_add,
          add_assoc, add_left_comm (LawfulActorSubmitQueue.queued q : Multiset (TaskSpecification T))]
      obtain ⟨s₁, o₁, hbody₁, hsent⟩ :=
        hbody { s with actorSubmitQueue := q } taskSpec skipQueue hworker hnew
      obtain ⟨h₁, hbalance₁⟩ := h.popped hpop hsent
      obtain ⟨s', o, hloop, h', hbalance⟩ := Inv.popLoop hdistinct hash hbody rounds h₁
        (hsent.worker.trans hworker)
      refine ⟨s', o₁ ++ o, ?_, by rwa [List.append_assoc] at h', hbalance.trans hbalance₁⟩
      simp only [hbody₁, ok_bind, hloop]
      rfl

theorem Inv.sendPendingTasks (hdistinct : Distinct submitted) (h : Inv submitted out s) (hash : ℕ → ℕ) :
    ∃ s' o, s.sendPendingTasks hash = .ok (s', o) ∧ Inv submitted (out ++ o) s' ∧
    s'.balance = s.balance := by
  have hstay : ∃ s' o, (.ok (s, []) : Except RayError (Stepped Q T)) = .ok (s', o) ∧
      Inv submitted (out ++ o) s' ∧ s'.balance = s.balance :=
    ⟨s, [], rfl, by rwa [List.append_nil], rfl⟩
  unfold ActorTaskSubmitter.sendPendingTasks
  by_cases hscope : s.pendingOutOfScopeDeath = true
  · rw [if_pos hscope]
    exact hstay
  · rw [if_neg hscope]
    cases haddr : s.clientAddress with
    | none =>
      split_ifs
      · exact Inv.popLoop hdistinct hash
          (fun s taskSpec skipQueue _ _ => postFailure_sent s taskSpec skipQueue)
          _ h rfl
      · exact hstay
    | some addr =>
      have hworker := h.connected (by rw [haddr]; rfl)
      exact Inv.popLoop hdistinct hash (fun s₁ taskSpec skipQueue hs₁ hnew =>
        sendTask_sent addr (by rw [hs₁]; exact hworker) hnew skipQueue) _ h rfl

/-! ### Steps that leave the calls where they are -/

variable {t : ActorTaskSubmitter Q T}

omit [DecidableEq T] in
/-- A step that leaves the queue, at which the replies of `done` have been handled. -/
theorem Inv.handled
    (h : Inv submitted out s) (done : List (TaskSpecification T))
    (hqueue : t.actorSubmitQueue = s.actorSubmitQueue)
    (hin : (s.inFlight : Multiset (TaskSpecification T)) = done + t.inFlight)
    (hkeys : ∀ e ∈ t.inflightTaskCallbacks.entries, e.1 = e.2.attempt)
    (hwait : ∃ called : Multiset (TaskSpecification T),
      (s.waiting : Multiset (TaskSpecification T)) = t.waiting + called)
    (hconn : t.clientAddress.isSome = true → t.workerId ≠ "")
    (hcount : t.curPendingCalls = s.curPendingCalls - done.length)
    (hsent : o.filterMap SubmitterOutput.sent? = [])
    (hhandled : o.filterMap SubmitterOutput.handled? = done) :
    Inv submitted (out ++ o) t ∧ t.balance = s.balance := by
  obtain ⟨left, hleft⟩ := hwait
  refine ⟨⟨by rw [hqueue]; exact h.ok, by rw [hqueue]; exact h.placed, ?_, ?_, hkeys, ?_,
    ?_, hconn⟩, ?_⟩
  · obtain ⟨gone, hgone⟩ := h.known
    refine ⟨gone, ?_⟩
    rw [List.filterMap_append, hhandled, hgone, hin, queued, queued, hqueue, ← Multiset.coe_add]
    abel
  · rw [List.filterMap_append, List.filterMap_append, hsent, hhandled, List.append_nil,
      ← Multiset.coe_add, h.sent, hin]
    abel
  · obtain ⟨called, hcalled⟩ := h.waits
    exact ⟨left + called, by rw [hcalled, hleft, add_assoc]⟩
  · rw [hqueue]
    intro w hw item hitem
    refine h.unresolved w ?_ item hitem
    rw [← Multiset.mem_coe, hleft]
    exact Multiset.mem_add.mpr (.inl hw)
  · have hcard := congrArg Multiset.card hin
    simp only [Multiset.coe_card, Multiset.card_add] at hcard
    unfold balance queued
    rw [hqueue, hcount]
    omega

omit [DecidableEq T] in
theorem Inv.frame (h : Inv submitted out s) (hqueue : t.actorSubmitQueue = s.actorSubmitQueue)
    (hin : (t.inFlight : Multiset (TaskSpecification T)) = s.inFlight)
    (hkeys : ∀ e ∈ t.inflightTaskCallbacks.entries, e.1 = e.2.attempt)
    (hwait : ∃ called : Multiset (TaskSpecification T),
      (s.waiting : Multiset (TaskSpecification T)) = t.waiting + called)
    (hconn : t.clientAddress.isSome = true → t.workerId ≠ "")
    (hcount : t.curPendingCalls = s.curPendingCalls)
    (hsent : o.filterMap SubmitterOutput.sent? = [])
    (hhandled : o.filterMap SubmitterOutput.handled? = []) :
    Inv submitted (out ++ o) t ∧ t.balance = s.balance :=
  h.handled [] hqueue (by rw [hin, Multiset.coe_nil, zero_add]) hkeys hwait hconn
    (by rw [hcount, List.length_nil, Nat.cast_zero, sub_zero]) hsent hhandled

/-! ### The steps -/

omit [DecidableEq T] in
theorem Inv.skip (h : Inv submitted out s) :
    ∃ s' o, (.ok (s, []) : Except RayError (Stepped Q T)) = .ok (s', o) ∧
      Inv submitted (out ++ o) s' ∧ s'.balance = s.balance :=
  ⟨s, [], rfl, by rwa [List.append_nil], rfl⟩

theorem Inv.postResolution (h : Inv submitted out s) (k : ℕ) :
    ∃ s' o, s.postResolution k = .ok (s', o) ∧ Inv submitted (out ++ o) s' ∧
    s'.balance = s.balance := by
  unfold ActorTaskSubmitter.postResolution
  cases htake : takeAt k s.submitting with
  | none => exact h.skip
  | some r =>
    obtain ⟨taskSpec, submitting⟩ := r
    refine ⟨_, _, rfl, h.frame rfl rfl h.keys ⟨0, ?_⟩ h.connected rfl rfl rfl⟩
    rw [coe_waiting, coe_waiting, coe_of_takeAt htake, ← Multiset.coe_add, Multiset.coe_singleton]
    abel

theorem Inv.runPosted (h : Inv submitted out s) (k : ℕ) :
    ∃ s' o, s.runPosted k = .ok (s', o) ∧ Inv submitted (out ++ o) s' ∧ s'.balance = s.balance := by
  unfold ActorTaskSubmitter.runPosted
  cases htake : takeAt k s.posted with
  | none => exact h.skip
  | some r =>
    obtain ⟨taskSpec, posted⟩ := r
    simp only
    split_ifs
    · refine ⟨_, _, rfl, h.frame rfl rfl h.keys ⟨0, ?_⟩ h.connected rfl rfl rfl⟩
      rw [coe_waiting, coe_waiting, coe_of_takeAt htake, ← Multiset.coe_add, Multiset.coe_singleton]
      abel
    · refine ⟨_, _, rfl, h.frame rfl rfl h.keys ⟨{taskSpec}, ?_⟩ h.connected rfl rfl rfl⟩
      rw [coe_waiting, coe_waiting, coe_of_takeAt htake]
      abel

omit [DecidableEq T] in
theorem Inv.takeCallback (h : Inv submitted out s) (k : ℕ) (status : Status) :
    ∃ s' o, s.takeCallback k status = .ok (s', o) ∧ Inv submitted (out ++ o) s' ∧
    s'.balance = s.balance := by
  unfold ActorTaskSubmitter.takeCallback
  cases htake : takeAt k s.resolving with
  | none => exact h.skip
  | some r =>
    obtain ⟨taskSpec, resolving⟩ := r
    refine ⟨_, _, rfl, h.frame rfl rfl h.keys ⟨0, ?_⟩ h.connected rfl rfl rfl⟩
    rw [coe_waiting, coe_waiting, coe_of_takeAt htake, List.map_append, ← Multiset.coe_add,
      List.map_singleton, Multiset.coe_singleton]
    abel

omit [ActorSubmitQueue Q T] [LawfulActorSubmitQueue Q T] in
theorem exists_waiting_cancelDependencyResolution (s : ActorTaskSubmitter Q T) (taskId : T) :
    ∃ called : Multiset (TaskSpecification T), (s.waiting : Multiset (TaskSpecification T)) =
      (s.cancelDependencyResolution taskId).waiting + called := by
  have hsplit := Multiset.coe_eq_coe.mpr
    (List.filter_append_perm (fun taskSpec => decide (taskSpec.taskId ≠ taskId)) s.resolving)
  rw [← Multiset.coe_add] at hsplit
  refine ⟨(s.resolving.filter (fun taskSpec => !decide (taskSpec.taskId ≠ taskId)) : List _), ?_⟩
  rw [coe_waiting, coe_waiting, ← hsplit]
  unfold ActorTaskSubmitter.cancelDependencyResolution
  abel

theorem Inv.cancelDependencyResolution (h : Inv submitted out s) (taskId : T)
    (hsent : o.filterMap SubmitterOutput.sent? = [])
    (hhandled : o.filterMap SubmitterOutput.handled? = []) :
    Inv submitted (out ++ o) (s.cancelDependencyResolution taskId) ∧
      (s.cancelDependencyResolution taskId).balance = s.balance :=
  h.frame rfl rfl h.keys (exists_waiting_cancelDependencyResolution s taskId) h.connected rfl
    hsent hhandled

omit [DecidableEq T] in
theorem Inv.disconnectRpcClient (h : Inv submitted out s) :
    Inv submitted (out ++ []) s.disconnectRpcClient ∧ s.disconnectRpcClient.balance = s.balance := by
  refine h.frame rfl ?_ nofun ⟨0, (add_zero _).symm⟩ nofun rfl rfl rfl
  have hvalues : (failInflightTasksOnRestart s.inflightTaskCallbacks).map ReplyCall.taskSpec =
      s.inflightTaskCallbacks.values := by
    rw [failInflightTasksOnRestart, List.map_map]
    exact List.map_id' _
  rw [coe_inFlight, coe_inFlight]
  unfold ActorTaskSubmitter.disconnectRpcClient
  simp only [List.map_append, hvalues, ← Multiset.coe_add, Dict.values, Dict.entries_empty,
    List.map_nil, Multiset.coe_nil]
  abel

theorem Inv.connectActor (hdistinct : Distinct submitted) (h : Inv submitted out s) {address : Address}
    (haddress : address.workerId ≠ "") (numRestarts : ℤ) (hash : ℕ → ℕ) :
    ∃ s' o, s.connectActor address numRestarts hash = .ok (s', o) ∧ Inv submitted (out ++ o) s' ∧
      s'.balance = s.balance := by
  unfold ActorTaskSubmitter.connectActor
  split_ifs with hold hsame hconnected
  · exact h.skip
  · exact h.skip
  · obtain ⟨h₁, hbalance₁⟩ := h.disconnectRpcClient
    rw [List.append_nil] at h₁
    obtain ⟨h₂, hbalance₂⟩ := h₁.frame (o := []) (t := { s.disconnectRpcClient with
        numRestarts := numRestarts
        state := .alive
        workerId := address.workerId
        clientAddress := some address }) rfl rfl h₁.keys ⟨0, (add_zero _).symm⟩
          (fun _ => haddress) rfl rfl rfl
    rw [List.append_nil] at h₂
    obtain ⟨s', o, hsend, h', hbalance⟩ := h₂.sendPendingTasks hdistinct hash
    exact ⟨s', o, hsend, h', hbalance.trans (hbalance₂.trans hbalance₁)⟩
  · obtain ⟨h₂, hbalance₂⟩ := h.frame (o := []) (t := { s with
        numRestarts := numRestarts
        state := .alive
        workerId := address.workerId
        clientAddress := some address }) rfl rfl h.keys ⟨0, (add_zero _).symm⟩
          (fun _ => haddress) rfl rfl rfl
    rw [List.append_nil] at h₂
    obtain ⟨s', o, hsend, h', hbalance⟩ := h₂.sendPendingTasks hdistinct hash
    exact ⟨s', o, hsend, h', hbalance.trans hbalance₂⟩

omit [DecidableEq T] in
theorem Inv.disconnectActor (h : Inv submitted out s) {numRestarts : ℤ} (hpos : 0 < numRestarts) :
    ∃ s' o, s.disconnectActor numRestarts = .ok (s', o) ∧ Inv submitted (out ++ o) s' ∧
      s'.balance = s.balance := by
  unfold ActorTaskSubmitter.disconnectActor
  simp only [hpos, decide_true, rayCheck_true, ok_bind]
  split_ifs
  · exact h.skip
  · obtain ⟨h₁, hbalance₁⟩ := h.disconnectRpcClient
    rw [List.append_nil] at h₁
    obtain ⟨h₂, hbalance₂⟩ := h₁.frame (o := []) (t := { s.disconnectRpcClient with
        state := .restarting, numRestarts := numRestarts }) rfl rfl h₁.keys
          ⟨0, (add_zero _).symm⟩ nofun rfl rfl rfl
    exact ⟨_, _, rfl, h₂, hbalance₂.trans hbalance₁⟩

theorem Inv.onReply (h : Inv submitted out s) (attempt : T × ℕ) (status : Status)
    (reply : PushTaskReply) :
    ∃ s' o, s.onReply attempt status reply = .ok (s', o) ∧ Inv submitted (out ++ o) s' ∧
      s'.balance = s.balance := by
  unfold ActorTaskSubmitter.onReply
  cases hget : s.inflightTaskCallbacks.get? attempt with
  | none => exact h.skip
  | some taskSpec =>
    refine ⟨_, _, rfl, h.frame rfl ?_ ?_ ⟨0, (add_zero _).symm⟩ h.connected rfl rfl rfl⟩
    · have hvalues : (s.inflightTaskCallbacks.values : Multiset (TaskSpecification T)) =
          {taskSpec} + (s.inflightTaskCallbacks.erase attempt).values := by
        rw [Dict.values, Multiset.coe_eq_coe.mpr ((Dict.perm_erase hget).map Prod.snd)]
        rfl
      rw [coe_inFlight, coe_inFlight, hvalues]
      simp only [List.map_append, List.map_singleton, ← Multiset.coe_add, Multiset.coe_singleton]
      abel
    · intro e he
      rw [Dict.entries_erase] at he
      exact h.keys e (List.mem_of_mem_filter he)

omit [DecidableEq T] [ActorSubmitQueue Q T] [LawfulActorSubmitQueue Q T] in
/-- Of the calls of `HandlePushTaskReply` one goes on. -/
theorem coe_inFlight_takeAt {k : ℕ} {call : ReplyCall T} {calls : List (ReplyCall T)}
    (htake : takeAt k s.calls = some (call, calls)) :
    (s.inFlight : Multiset (TaskSpecification T)) = {call.taskSpec} + inFlight
      { s with calls := calls } := by
  rw [coe_inFlight, coe_inFlight, Multiset.coe_eq_coe.mpr ((takeAt_perm htake).map ReplyCall.taskSpec),
    List.map_cons, ← Multiset.cons_coe, ← Multiset.singleton_add]
  abel

theorem Inv.handlePushTaskReply (h : Inv submitted out s) (k : ℕ) :
    ∃ s' o, s.handlePushTaskReply k = .ok (s', o) ∧ Inv submitted (out ++ o) s' ∧
    s'.balance = s.balance := by
  unfold ActorTaskSubmitter.handlePushTaskReply
  cases htake : takeAt k s.calls with
  | none => exact h.skip
  | some r =>
    obtain ⟨call, calls⟩ := r
    have hin := coe_inFlight_takeAt htake
    simp only
    split_ifs
    · exact ⟨_, _, rfl, h.handled [call.taskSpec] rfl hin h.keys ⟨0, (add_zero _).symm⟩ h.connected
        rfl rfl rfl⟩
    · refine ⟨_, _, rfl, h.frame rfl ?_ h.keys ⟨0, (add_zero _).symm⟩ h.connected rfl rfl rfl⟩
      rw [hin, coe_inFlight, coe_inFlight]
      simp only [List.map_append, List.map_singleton, ← Multiset.coe_add, Multiset.coe_singleton]
      abel

omit [DecidableEq T] [ActorSubmitQueue Q T] [LawfulActorSubmitQueue Q T] in
theorem filterMap_finished (taskSpec : TaskSpecification T) (actions : List TaskAction) :
    (actions.map (SubmitterOutput.taskManager taskSpec.taskId) ++
        [SubmitterOutput.handled taskSpec]).filterMap SubmitterOutput.sent? = [] ∧
      (actions.map (SubmitterOutput.taskManager taskSpec.taskId) ++
        [SubmitterOutput.handled taskSpec]).filterMap SubmitterOutput.handled? = [taskSpec] := by
  constructor
  · rw [List.filterMap_append, List.filterMap_map]
    simp [SubmitterOutput.sent?, Function.comp_def]
  · rw [List.filterMap_append, List.filterMap_map]
    simp [SubmitterOutput.handled?, Function.comp_def]

theorem Inv.finishReply (timeoutMs : ℕ) (h : Inv submitted out s) (k : ℕ)
    (isTaskCanceled willRetry : Bool) :
    ∃ s' o, ActorTaskSubmitter.finishReply timeoutMs s k isTaskCanceled willRetry = .ok (s', o) ∧
      Inv submitted (out ++ o) s' ∧ s'.balance = s.balance := by
  unfold ActorTaskSubmitter.finishReply
  cases htake : takeAt k s.handling with
  | none => exact h.skip
  | some r =>
    obtain ⟨call, handling⟩ := r
    have hin : (s.inFlight : Multiset (TaskSpecification T)) =
        {call.taskSpec} + inFlight { s with handling := handling } := by
      rw [coe_inFlight, coe_inFlight,
        Multiset.coe_eq_coe.mpr ((takeAt_perm htake).map ReplyCall.taskSpec), List.map_cons,
        ← Multiset.cons_coe, ← Multiset.singleton_add]
      abel
    obtain ⟨hsent, hhandled⟩ := filterMap_finished call.taskSpec
      (replyActions timeoutMs call isTaskCanceled willRetry).2
    by_cases hcancels : replyCancelsResolution call = true
    · simp only [hcancels, if_true]
      exact ⟨_, _, rfl, h.handled [call.taskSpec] rfl hin h.keys
        (exists_waiting_cancelDependencyResolution s call.taskSpec.taskId) h.connected rfl
        hsent hhandled⟩
    · simp only [hcancels, Bool.false_eq_true, if_false]
      exact ⟨_, _, rfl, h.handled [call.taskSpec] rfl hin h.keys ⟨0, (add_zero _).symm⟩ h.connected rfl
        hsent hhandled⟩

theorem Inv.finishCancel (h : Inv submitted out s) (k : ℕ) :
    ∃ s' o, s.finishCancel k = .ok (s', o) ∧ Inv submitted (out ++ o) s' ∧ s'.balance = s.balance := by
  unfold ActorTaskSubmitter.finishCancel
  cases htake : takeAt k s.cancelling with
  | none => exact h.skip
  | some r =>
    obtain ⟨taskId, cancelling⟩ := r
    exact ⟨_, _, rfl, h.frame rfl rfl h.keys
      (exists_waiting_cancelDependencyResolution { s with cancelling := cancelling } taskId)
      h.connected rfl rfl rfl⟩

/-! ### The steps of the queue -/

omit [DecidableEq T] in
theorem Inv.find?_eq_none (h : Inv submitted out s)
    (hdistinct : Distinct (submitted ++ [taskSpec])) :
    LawfulActorSubmitQueue.find? s.actorSubmitQueue taskSpec.concurrencyGroupName
      taskSpec.concurrencyGroupSequenceNumber = none := by
  cases hfind : LawfulActorSubmitQueue.find? s.actorSubmitQueue taskSpec.concurrencyGroupName
      taskSpec.concurrencyGroupSequenceNumber with
  | none => rfl
  | some item =>
    obtain ⟨other, resolved⟩ := item
    exfalso
    have hplace : other.place = taskSpec.place := h.placed hfind
    obtain ⟨-, hperm, -⟩ := LawfulActorSubmitQueue.canceled h.ok hfind
    obtain ⟨gone, hgone⟩ := h.known
    have hmem : other ∈ submitted := by
      rw [← Multiset.mem_coe, hgone]
      exact Multiset.mem_add.mpr (.inl (hperm.mem_iff.mpr (.head _)))
    have hnodup := hdistinct.places
    rw [List.map_append, List.nodup_append] at hnodup
    exact hnodup.2.2 _ (List.mem_map_of_mem hmem) _ (List.mem_singleton.mpr rfl) hplace

omit [DecidableEq T] in
theorem Inv.submitTask (h : Inv submitted out s) (hdistinct : Distinct (submitted ++ [taskSpec])) :
    ∃ s' o, s.submitTask taskSpec = .ok (s', o) ∧ Inv (submitted ++ [taskSpec]) (out ++ o) s' ∧
      s'.balance = s.balance := by
  have hnone := h.find?_eq_none hdistinct
  obtain ⟨q, hq, hok, hperm, hfind⟩ := LawfulActorSubmitQueue.emplace taskSpec h.ok hnone
  unfold ActorTaskSubmitter.submitTask
  rw [hq, ok_bind]
  have hqueued : (LawfulActorSubmitQueue.queued q : Multiset (TaskSpecification T)) = {taskSpec} +
    s.queued := by
    rw [Multiset.coe_eq_coe.mpr hperm]
    rfl
  refine ⟨_, _, rfl, ⟨hok, ?_, ?_, ?_, h.keys, ?_, ?_, h.connected⟩, ?_⟩
  · intro group sendPos item hitem
    simp only [hfind] at hitem
    split_ifs at hitem with hplace
    · cases hitem
      exact (Prod.ext hplace.1 hplace.2).symm
    · exact h.placed hitem
  · obtain ⟨gone, hgone⟩ := h.known
    refine ⟨gone, ?_⟩
    show _ = (LawfulActorSubmitQueue.queued q : Multiset (TaskSpecification T)) + (s.inFlight + _)
    rw [← Multiset.coe_add, hgone, hqueued, List.append_nil, Multiset.coe_singleton]
    abel
  · rw [List.append_nil]
    exact h.sent
  · obtain ⟨called, hcalled⟩ := h.waits
    refine ⟨called, ?_⟩
    rw [← Multiset.coe_add, hcalled, coe_waiting, coe_waiting, ← Multiset.coe_add,
      Multiset.coe_singleton]
    abel
  · intro w hw item hitem
    simp only [hfind] at hitem
    split_ifs at hitem with hplace
    · cases hitem
      rfl
    · refine h.unresolved w ?_ item hitem
      -- the only new task that waits lies at the new place
      rw [← Multiset.mem_coe, coe_waiting, ← Multiset.coe_add] at hw
      rw [← Multiset.mem_coe, coe_waiting]
      simp only [Multiset.mem_add, Multiset.mem_coe, List.mem_singleton] at hw ⊢
      obtain (hw | rfl) | hw := hw
      · exact .inl hw
      · exact absurd ⟨rfl, rfl⟩ hplace
      · exact .inr hw
  · have hlen := congrArg Multiset.card hqueued
    simp only [Multiset.coe_card, Multiset.card_add, Multiset.card_singleton] at hlen
    show s.curPendingCalls + 1 - ((LawfulActorSubmitQueue.queued q).length : ℤ) -
      s.inFlight.length = s.balance
    unfold balance
    omega

omit [DecidableEq T] in
theorem Inv.removed (h : Inv submitted out s) {q : Q} {group : String}
    {sendPos : ℕ} (hok : LawfulActorSubmitQueue.Ok q)
    (hperm : s.queued.Perm (taskSpec :: LawfulActorSubmitQueue.queued q))
    (hfind : ∀ g n, LawfulActorSubmitQueue.find? q g n =
      if g = group ∧ n = sendPos then none else LawfulActorSubmitQueue.find? s.actorSubmitQueue g n) :
    Inv submitted out { s with actorSubmitQueue := q } ∧
      balance { s with actorSubmitQueue := q } = s.balance + 1 := by
  have hqueued : (s.queued : Multiset (TaskSpecification T)) = {taskSpec} +
    LawfulActorSubmitQueue.queued q := by
    rw [Multiset.coe_eq_coe.mpr hperm]
    rfl
  have hfound : ∀ {g n item}, LawfulActorSubmitQueue.find? q g n = some item →
      LawfulActorSubmitQueue.find? s.actorSubmitQueue g n = some item := by
    intro g n item hitem
    rw [hfind] at hitem
    split_ifs at hitem
    exact hitem
  refine ⟨⟨hok, fun hitem => h.placed (hfound hitem), ?_, h.sent, h.keys, h.waits,
    fun w hw item hitem => h.unresolved w hw item (hfound hitem), h.connected⟩, ?_⟩
  · obtain ⟨gone, hgone⟩ := h.known
    refine ⟨{taskSpec} + gone, ?_⟩
    show _ = (LawfulActorSubmitQueue.queued q : Multiset (TaskSpecification T)) + (s.inFlight + _)
    rw [hgone, hqueued]
    abel
  · have hlen := congrArg Multiset.card hqueued
    simp only [Multiset.coe_card, Multiset.card_add, Multiset.card_singleton] at hlen
    show s.curPendingCalls - ((LawfulActorSubmitQueue.queued q).length : ℤ) - s.inFlight.length =
      s.balance + 1
    unfold balance
    omega

omit [DecidableEq T] in
/-- The dependencies of a queued call are resolved; its resolution is not under way any more. -/
theorem Inv.resolved (h : Inv submitted out s) {q : Q} {group : String}
    {sendPos : ℕ} (hok : LawfulActorSubmitQueue.Ok q)
    (hperm : (LawfulActorSubmitQueue.queued q).Perm s.queued)
    (hold : LawfulActorSubmitQueue.find? s.actorSubmitQueue group sendPos = some (taskSpec, false))
    (hfind : ∀ g n, LawfulActorSubmitQueue.find? q g n =
      if g = group ∧ n = sendPos then some (taskSpec, true)
      else LawfulActorSubmitQueue.find? s.actorSubmitQueue g n)
    (hwaiting : ∀ w ∈ s.waiting, w.place ≠ (group, sendPos)) :
    Inv submitted out { s with actorSubmitQueue := q } ∧
      balance { s with actorSubmitQueue := q } = s.balance := by
  have hqueued := Multiset.coe_eq_coe.mpr hperm
  refine ⟨⟨hok, fun {g n item} hitem => ?_, ?_, h.sent, h.keys, h.waits, fun w hw item hitem => ?_,
    h.connected⟩, ?_⟩
  · simp only [hfind] at hitem
    split_ifs at hitem with hplace
    · cases hitem
      have hplaced : taskSpec.place = (group, sendPos) := h.placed hold
      rw [hplace.1, hplace.2]
      exact hplaced
    · exact h.placed hitem
  · obtain ⟨gone, hgone⟩ := h.known
    refine ⟨gone, ?_⟩
    show _ = (LawfulActorSubmitQueue.queued q : Multiset (TaskSpecification T)) + (s.inFlight + _)
    rw [hgone, hqueued]
  · simp only [hfind] at hitem
    rw [if_neg (fun hplace => hwaiting w hw (Prod.ext hplace.1 hplace.2))] at hitem
    exact h.unresolved w hw item hitem
  · have hlen := hperm.length_eq
    show s.curPendingCalls - ((LawfulActorSubmitQueue.queued q).length : ℤ) -
      s.inFlight.length = s.balance
    unfold balance
    omega

omit [DecidableEq T] [LawfulActorSubmitQueue Q T] in
/-- The event is the end of a dependency resolution with an error for a call that is still
queued. -/
def failsQueued (s : ActorTaskSubmitter Q T) : SubmitterEvent T → Bool
  | .runCallback k _ =>
    match takeAt k s.taken with
    | some ((taskSpec, status), _) =>
      status ≠ .ok && ActorSubmitQueue.contains s.actorSubmitQueue taskSpec.concurrencyGroupName
        taskSpec.concurrencyGroupSequenceNumber
    | none => false
  | _ => false

theorem Inv.runCallback (hdistinct : Distinct submitted) (h : Inv submitted out s) (k : ℕ)
    (hash : ℕ → ℕ) :
    ∃ s' o, s.runCallback k hash = .ok (s', o) ∧ Inv submitted (out ++ o) s' ∧
      s'.balance = s.balance + if s.failsQueued (.runCallback k hash) then 1 else 0 := by
  unfold ActorTaskSubmitter.runCallback
  cases htake : takeAt k s.taken with
  | none =>
    have hno : s.failsQueued (.runCallback k hash) = false := by
      simp only [failsQueued, htake]
    rw [hno, if_neg Bool.false_ne_true, add_zero]
    exact h.skip
  | some r =>
    obtain ⟨⟨taskSpec, status⟩, taken⟩ := r
    have hfails : s.failsQueued (.runCallback k hash) = true ↔ status ≠ .ok ∧
        ActorSubmitQueue.contains s.actorSubmitQueue taskSpec.concurrencyGroupName
          taskSpec.concurrencyGroupSequenceNumber = true := by
      simp only [failsQueued, htake, Bool.and_eq_true, decide_eq_true_eq]
    -- the task waits no more, and no other task that waits has its place
    have hwaiting : (s.waiting : Multiset (TaskSpecification T)) =
        {taskSpec} + waiting { s with taken := taken } := by
      rw [coe_waiting, coe_waiting, Multiset.coe_eq_coe.mpr ((takeAt_perm htake).map Prod.fst),
        List.map_cons, ← Multiset.cons_coe, ← Multiset.singleton_add]
      abel
    have hothers : ∀ w ∈ waiting { s with taken := taken }, w.place ≠ taskSpec.place := by
      intro w hw hplace
      obtain ⟨called, hcalled⟩ := h.waits
      have hnodup : (Multiset.map TaskSpecification.place
        (submitted : Multiset (TaskSpecification T))).Nodup :=
        hdistinct.places
      rw [hcalled, hwaiting, add_assoc, Multiset.singleton_add, Multiset.map_cons,
        Multiset.nodup_cons] at hnodup
      apply hnodup.1
      rw [← hplace]
      exact Multiset.mem_map_of_mem _ (Multiset.mem_add.mpr (.inl hw))
    obtain ⟨h₁, hbalance₁⟩ := h.frame (t := { s with taken := taken })
      (o := [.taskManager taskSpec.taskId .markDependenciesResolved]) rfl rfl h.keys
      ⟨{taskSpec}, by rw [hwaiting, add_comm]⟩ h.connected rfl rfl rfl
    simp only
    by_cases hcontains : ActorSubmitQueue.contains s.actorSubmitQueue taskSpec.concurrencyGroupName
        taskSpec.concurrencyGroupSequenceNumber = true
    · obtain ⟨item, hitem⟩ := Option.isSome_iff_exists.mp
        ((LawfulActorSubmitQueue.contains_iff _ _ _).mp hcontains)
      obtain ⟨other, resolved⟩ := item
      have hmem : taskSpec ∈ s.waiting := by
        rw [← Multiset.mem_coe, hwaiting]
        exact Multiset.mem_add.mpr (.inl (Multiset.mem_singleton_self _))
      obtain rfl : resolved = false := h.unresolved taskSpec hmem _ hitem
      rw [if_pos hcontains]
      by_cases hstatus : status = .ok
      · obtain ⟨q, hq, hok, hperm, hfind⟩ := LawfulActorSubmitQueue.resolved h.ok hitem
        obtain ⟨h₂, hbalance₂⟩ := h₁.resolved hok hperm hitem hfind hothers
        obtain ⟨s', o, hsend, h', hbalance⟩ := h₂.sendPendingTasks hdistinct hash
        refine ⟨s', _ :: o, ?_, by rwa [List.append_assoc] at h', ?_⟩
        · simp only [hstatus, if_true, hq, ok_bind, hsend]
          rfl
        · rw [if_neg (fun hf => (hfails.mp hf).1 hstatus), add_zero]
          exact hbalance.trans (hbalance₂.trans hbalance₁)
      · obtain ⟨hok, hperm, hfind⟩ := LawfulActorSubmitQueue.failed h.ok hitem
        obtain ⟨h₂, hbalance₂⟩ := h₁.removed hok hperm hfind
        rw [if_neg hstatus, if_pos (hfails.mpr ⟨hstatus, hcontains⟩)]
        refine ⟨_, _, rfl, ?_, ?_⟩
        · obtain ⟨h₃, -⟩ := h₂.frame (o := [.taskManager taskSpec.taskId
            (.failOrRetryPendingTask .dependencyResolutionFailed)]) rfl rfl h₂.keys
              ⟨0, (add_zero _).symm⟩
            h₂.connected rfl rfl rfl
          rwa [List.append_assoc] at h₃
        · rw [← hbalance₁]
          exact hbalance₂
    · rw [if_neg hcontains, if_neg (fun hf => hcontains (hfails.mp hf).2), add_zero]
      exact ⟨_, _, rfl, h₁, hbalance₁⟩

theorem Inv.cancelTask (hdistinct : Distinct submitted) (h : Inv submitted out s)
    (taskSpec : TaskSpecification T) (isTaskPending : Bool) (hash : ℕ → ℕ) :
    ∃ s' o, s.cancelTask taskSpec isTaskPending hash = .ok (s', o) ∧ Inv submitted (out ++ o) s' ∧
      s'.balance = s.balance := by
  unfold ActorTaskSubmitter.cancelTask
  cases isTaskPending with
  | false =>
    exact ⟨_, _, rfl, h.frame rfl rfl h.keys ⟨0, (add_zero _).symm⟩ h.connected rfl rfl rfl⟩
  | true =>
    obtain ⟨h₁, hbalance₁⟩ := h.frame
      (t := { s with generatorsToResubmit := s.generatorsToResubmit.erase taskSpec.taskId })
      (o := [.taskManager taskSpec.taskId .markTaskCanceled]) rfl rfl h.keys
        ⟨0, (add_zero _).symm⟩ h.connected
      rfl rfl rfl
    simp only [Bool.not_true, Bool.false_eq_true, if_false]
    split_ifs with hcontains
    · obtain ⟨item, hitem⟩ := Option.isSome_iff_exists.mp
        ((LawfulActorSubmitQueue.contains_iff _ _ _).mp hcontains)
      obtain ⟨other, resolved⟩ := item
      obtain ⟨hok, hperm, hfind⟩ := LawfulActorSubmitQueue.canceled h.ok hitem
      obtain ⟨h₂, hbalance₂⟩ := h₁.removed hok hperm hfind
      have h₃ : Inv submitted (out ++ [.taskManager taskSpec.taskId .markTaskCanceled]) { s with
          generatorsToResubmit := s.generatorsToResubmit.erase taskSpec.taskId
          actorSubmitQueue := ActorSubmitQueue.markTaskCanceled s.actorSubmitQueue
            taskSpec.concurrencyGroupName
            taskSpec.concurrencyGroupSequenceNumber
          curPendingCalls := s.curPendingCalls - 1 } :=
        ⟨h₂.ok, h₂.placed, h₂.known, h₂.sent, h₂.keys, h₂.waits, h₂.unresolved, h₂.connected⟩
      obtain ⟨s', o, hsend, h', hbalance⟩ := h₃.sendPendingTasks hdistinct hash
      refine ⟨{ s' with cancelling := s'.cancelling ++ [taskSpec.taskId] },
        .taskManager taskSpec.taskId .markTaskCanceled :: o, ?_, ?_, ?_⟩
      · rw [hsend]
        rfl
      · rw [List.append_assoc] at h'
        exact ⟨h'.ok, h'.placed, h'.known, h'.sent, h'.keys, h'.waits, h'.unresolved, h'.connected⟩
      · show s'.balance = s.balance
        rw [hbalance]
        unfold balance queued inFlight at hbalance₁ hbalance₂ ⊢
        simp only at hbalance₁ hbalance₂ ⊢
        omega
    · cases haddr : s.clientAddress with
      | none => exact ⟨_, _, rfl, h.frame rfl rfl h.keys ⟨0, (add_zero _).symm⟩ nofun rfl rfl rfl⟩
      | some addr =>
        have hworker := h.connected (by rw [haddr]; rfl)
        exact ⟨_, _, rfl, h.frame rfl rfl h.keys ⟨0, (add_zero _).symm⟩ (fun _ => hworker) rfl rfl rfl⟩

/-! ### Runs -/

/-- An actor that is alive has an address with a worker, and an actor that restarts has restarts. -/
def LegalEvent : SubmitterEvent T → Prop
  | .connectActor address _ _ => address.workerId ≠ ""
  | .disconnectActor numRestarts => 0 < numRestarts
  | _ => True

/-- The tasks that are submitted are different, and the messages about the actor well formed. -/
structure Legal (events : List (SubmitterEvent T)) : Prop where
  distinct : Distinct (events.filterMap SubmitterEvent.submitted?)
  messages : ∀ e ∈ events, LegalEvent e

variable {e : SubmitterEvent T}

/-- Every step succeeds, keeps the invariant, and changes the balance only by the failure of a call
that is still queued. -/
theorem Inv.step (timeoutMs : ℕ) (h : Inv submitted out s)
    (hdistinct : Distinct (submitted ++ e.submitted?.toList)) (hlegal : LegalEvent e) :
    ∃ s' o, s.step timeoutMs e = .ok (s', o) ∧ Inv (submitted ++ e.submitted?.toList) (out ++ o) s' ∧
      s'.balance = s.balance + if s.failsQueued e then 1 else 0 := by
  have hcalm : ∀ {r : Except RayError (Stepped Q T)}, e.submitted? = none → s.failsQueued e = false →
      s.step timeoutMs e = r →
      (∃ s' o, r = .ok (s', o) ∧ Inv submitted (out ++ o) s' ∧ s'.balance = s.balance) →
      ∃ s' o, s.step timeoutMs e = .ok (s', o) ∧ Inv (submitted ++ e.submitted?.toList) (out ++ o) s' ∧
        s'.balance = s.balance + if s.failsQueued e then 1 else 0 := by
    rintro r hsub hfails rfl ⟨s', o, hs', h', hbalance⟩
    refine ⟨s', o, hs', ?_, ?_⟩
    · rwa [hsub, Option.toList_none, List.append_nil]
    · rw [hfails, if_neg Bool.false_ne_true, add_zero, hbalance]
  cases e with
  | submitTask taskSpec =>
    obtain ⟨s', o, hs', h', hbalance⟩ := h.submitTask hdistinct
    exact ⟨s', o, hs', h', by rw [hbalance]; exact (add_zero _).symm⟩
  | runCallback k hash =>
    have hdistinct' : Distinct submitted := by
      rwa [show (SubmitterEvent.runCallback k hash : SubmitterEvent T).submitted? = none from rfl,
        Option.toList_none, List.append_nil] at hdistinct
    obtain ⟨s', o, hs', h', hbalance⟩ := h.runCallback hdistinct' k hash
    exact ⟨s', o, hs', by rwa
      [show (SubmitterEvent.runCallback k hash : SubmitterEvent T).submitted? = none
      from rfl, Option.toList_none, List.append_nil], hbalance⟩
  | postResolution k => exact hcalm rfl rfl rfl (h.postResolution k)
  | runPosted k => exact hcalm rfl rfl rfl (h.runPosted k)
  | takeCallback k status => exact hcalm rfl rfl rfl (h.takeCallback k status)
  | cancelDependencyResolution taskId =>
    exact hcalm rfl rfl rfl ⟨_, _, rfl, h.cancelDependencyResolution taskId rfl rfl⟩
  | connectActor address numRestarts hash =>
    exact hcalm rfl rfl rfl (h.connectActor (by simpa [SubmitterEvent.submitted?] using hdistinct)
      hlegal numRestarts hash)
  | disconnectActor numRestarts => exact hcalm rfl rfl rfl (h.disconnectActor hlegal)
  | actorOutOfScope =>
    exact hcalm rfl rfl rfl
      ⟨_, _, rfl, h.frame rfl rfl h.keys ⟨0, (add_zero _).symm⟩ h.connected rfl rfl rfl⟩
  | reply attempt status reply => exact hcalm rfl rfl rfl (h.onReply attempt status reply)
  | handlePushTaskReply k => exact hcalm rfl rfl rfl (h.handlePushTaskReply k)
  | finishReply k isTaskCanceled willRetry =>
    exact hcalm rfl rfl rfl (h.finishReply timeoutMs k isTaskCanceled willRetry)
  | cancelTask taskSpec isTaskPending hash =>
    exact hcalm rfl rfl rfl
      (h.cancelTask (by simpa [SubmitterEvent.submitted?] using hdistinct) taskSpec
      isTaskPending hash)
  | finishCancel k => exact hcalm rfl rfl rfl (h.finishCancel k)
  | queueGeneratorForResubmit taskSpec =>
    exact hcalm rfl rfl rfl
      ⟨_, _, rfl, h.frame rfl rfl h.keys ⟨0, (add_zero _).symm⟩ h.connected rfl rfl rfl⟩

omit [DecidableEq T] in
theorem inv_init (maxPendingCalls : ℤ) (failIfActorUnreachable : Bool) :
    Inv [] [] (init maxPendingCalls failIfActorUnreachable : ActorTaskSubmitter Q T) ∧
      balance (init maxPendingCalls failIfActorUnreachable : ActorTaskSubmitter Q T) = 0 := by
  have hqueued : queued (init maxPendingCalls failIfActorUnreachable : ActorTaskSubmitter Q T) = [] :=
    LawfulActorSubmitQueue.queued_init
  refine ⟨⟨LawfulActorSubmitQueue.ok_init, fun {group sendPos item} hitem => ?_, ⟨0, ?_⟩,
    rfl, by nofun, ⟨0, rfl⟩,
    by nofun, by nofun⟩, ?_⟩
  · rw [show (init maxPendingCalls failIfActorUnreachable : ActorTaskSubmitter Q T).actorSubmitQueue =
      ActorSubmitQueue.init from rfl, LawfulActorSubmitQueue.find?_init] at hitem
    cases hitem
  · rw [hqueued]
    rfl
  · unfold balance
    rw [hqueued]
    rfl

variable {done rest : List (SubmitterEvent T)}

omit [DecidableEq T] in
theorem Legal.prefix_distinct (h : Legal (done ++ rest)) :
    Distinct (done.filterMap SubmitterEvent.submitted?) := by
  have hd := h.distinct
  rw [List.filterMap_append] at hd
  constructor
  · have := hd.attempts
    rw [List.map_append] at this
    exact this.of_append_left
  · have := hd.places
    rw [List.map_append] at this
    exact this.of_append_left

omit [DecidableEq T] [ActorSubmitQueue Q T] [LawfulActorSubmitQueue Q T] in
theorem filterMap_submitted?_append (done : List (SubmitterEvent T)) (e : SubmitterEvent T) :
    (done ++ [e]).filterMap SubmitterEvent.submitted? =
      done.filterMap SubmitterEvent.submitted? ++ e.submitted?.toList := by
  rw [List.filterMap_append]
  cases e <;> rfl

variable {events : List (SubmitterEvent T)}

/-- A legal run succeeds, with the invariant at every moment. -/
theorem run_inv (timeoutMs : ℕ) (maxPendingCalls : ℤ) (failIfActorUnreachable : Bool)
    (hlegal : Legal events) (h : events = done ++ rest) :
    ∃ s out, runSteps (step timeoutMs)
      (init maxPendingCalls failIfActorUnreachable : ActorTaskSubmitter Q T)
        done = .ok (s, out) ∧ Inv (done.filterMap SubmitterEvent.submitted?) out s := by
  have hinit := (inv_init (Q := Q) maxPendingCalls failIfActorUnreachable).1
  apply runSteps_ok (P := fun done s out => Inv (done.filterMap SubmitterEvent.submitted?) out s) hinit
  intro before e after s out hdone hinv
  have hsplit : events = (before ++ [e]) ++ (after ++ rest) := by
    rw [h, hdone]
    simp
  rw [hsplit] at hlegal
  have hdistinct := hlegal.prefix_distinct
  rw [filterMap_submitted?_append] at hdistinct ⊢
  obtain ⟨s', o, hs', hinv', -⟩ := hinv.step timeoutMs hdistinct (hlegal.messages e (by simp))
  exact ⟨s', o, hs', hinv'⟩

/-- What was sent or posted to fail is in flight or was handled, and no attempt twice. -/
structure HandledOnce (out : List (SubmitterOutput T)) (s : ActorTaskSubmitter Q T) : Prop where
  kept : (out.filterMap SubmitterOutput.sent?).Perm
    (out.filterMap SubmitterOutput.handled? ++ s.inFlight)
  once : ((out.filterMap SubmitterOutput.handled? ++ s.inFlight).map TaskSpecification.attempt).Nodup

/-- The counter is the number of pending calls, and calls are rejected only because of these. -/
structure Accounted (s : ActorTaskSubmitter Q T) : Prop where
  count : s.curPendingCalls = s.queued.length + s.inFlight.length
  full : s.pendingTasksFull = true ↔
    0 < s.maxPendingCalls ∧ s.maxPendingCalls ≤ s.queued.length + s.inFlight.length

omit [DecidableEq T] in
theorem accounted_iff : Accounted s ↔ s.balance = 0 := by
  unfold balance
  constructor
  · intro h
    rw [h.count]
    omega
  · intro h
    have hcount : s.curPendingCalls = s.queued.length + s.inFlight.length := by omega
    refine ⟨hcount, ?_⟩
    rw [pendingTasksFull, hcount, Bool.and_eq_true, decide_eq_true_iff, decide_eq_true_iff]

omit [DecidableEq T] in
theorem Inv.handledOnce (hdistinct : Distinct submitted) (h : Inv submitted out s) :
    HandledOnce out s := by
  constructor
  · rw [← Multiset.coe_eq_coe, h.sent, ← Multiset.coe_add, add_comm]
  · obtain ⟨gone, hgone⟩ := h.known
    have hnodup : (Multiset.map TaskSpecification.attempt
      (submitted : Multiset (TaskSpecification T))).Nodup :=
      hdistinct.attempts
    have hsplit : (submitted : Multiset (TaskSpecification T)) =
        ((out.filterMap SubmitterOutput.handled? ++ s.inFlight : List (TaskSpecification T)) :
          Multiset (TaskSpecification T)) + (s.queued + gone) := by
      rw [hgone, ← Multiset.coe_add]
      abel
    rw [hsplit, Multiset.map_add] at hnodup
    exact (Multiset.nodup_add.mp hnodup).1

theorem run_step (timeoutMs : ℕ) (maxPendingCalls : ℤ) (failIfActorUnreachable : Bool)
    (hlegal : Legal events) (h : events = done ++ e :: rest)
    (hrun : runSteps (step timeoutMs)
      (init maxPendingCalls failIfActorUnreachable : ActorTaskSubmitter Q T)
      done = .ok (s, out)) :
    ∃ s' out', runSteps (step timeoutMs)
        (init maxPendingCalls failIfActorUnreachable : ActorTaskSubmitter Q T) (done ++ [e]) =
          .ok (s', out') ∧
      s'.balance = s.balance + if s.failsQueued e then 1 else 0 := by
  obtain ⟨s₁, out₁, hrun₁, hinv⟩ :=
    run_inv (Q := Q) timeoutMs maxPendingCalls failIfActorUnreachable hlegal h
  rw [hrun] at hrun₁
  cases hrun₁
  have hsplit : events = (done ++ [e]) ++ rest := by
    rw [h, List.append_assoc, List.singleton_append]
  rw [hsplit] at hlegal
  have hdistinct := hlegal.prefix_distinct
  rw [filterMap_submitted?_append] at hdistinct
  obtain ⟨s', o, hs', -, hbalance⟩ := hinv.step timeoutMs hdistinct (hlegal.messages e (by simp))
  refine ⟨s', out ++ o, ?_, hbalance⟩
  rw [runSteps_append_eq_ok]
  exact ⟨s, out, o, hrun, runSteps_cons_eq_ok.mpr ⟨s', o, [], hs', rfl, (List.append_nil _).symm⟩, rfl⟩

/-- What holds of zero, and is kept by the steps that raise the balance, holds of the balance. -/
theorem run_balance_rule {P : ℤ → Prop} (hzero : P 0) (timeoutMs : ℕ) (maxPendingCalls : ℤ)
    (failIfActorUnreachable : Bool) (hlegal : Legal events)
    (hstep : ∀ done e rest, events = done ++ e :: rest → ∀ s out,
      runSteps (step timeoutMs)
        (init maxPendingCalls failIfActorUnreachable : ActorTaskSubmitter Q T) done =
        .ok (s, out) → P s.balance → P (s.balance + if s.failsQueued e then 1 else 0))
    (done : List (SubmitterEvent T)) :
    ∀ rest, events = done ++ rest → ∃ s out,
      runSteps (step timeoutMs)
        (init maxPendingCalls failIfActorUnreachable : ActorTaskSubmitter Q T) done =
        .ok (s, out) ∧ P s.balance := by
  induction done using List.reverseRecOn with
  | nil =>
    exact fun rest _ => ⟨_, [], rfl,
      (inv_init (Q := Q) maxPendingCalls failIfActorUnreachable).2 ▸ hzero⟩
  | append_singleton done e ih =>
    intro rest h
    rw [List.append_assoc, List.singleton_append] at h
    obtain ⟨s, out, hrun, hs⟩ := ih _ h
    obtain ⟨s', out', hrun', hbalance⟩ :=
      run_step timeoutMs maxPendingCalls failIfActorUnreachable hlegal h hrun
    exact ⟨s', out', hrun', hbalance ▸ hstep done e rest h s out hrun hs⟩

/-- Without such a failure the balance stays zero. -/
theorem run_balance (timeoutMs : ℕ) (maxPendingCalls : ℤ) (failIfActorUnreachable : Bool)
    (hlegal : Legal events) (hcalm : ∀ done e rest, events = done ++ e :: rest → ∀ s out,
      runSteps (step timeoutMs)
        (init maxPendingCalls failIfActorUnreachable : ActorTaskSubmitter Q T) done =
        .ok (s, out) → s.failsQueued e = false) (done : List (SubmitterEvent T)) :
    ∀ rest, events = done ++ rest → ∃ s out,
      runSteps (step timeoutMs)
        (init maxPendingCalls failIfActorUnreachable : ActorTaskSubmitter Q T) done =
        .ok (s, out) ∧ s.balance = 0 :=
  run_balance_rule (P := (· = 0)) rfl timeoutMs maxPendingCalls failIfActorUnreachable hlegal
    (fun done e rest h s out hrun hs => by
      rw [hs, hcalm done e rest h s out hrun, if_neg Bool.false_ne_true, add_zero]) done

/-- Whatever fails, the counter is never below the number of pending calls: as long as calls are
accepted, fewer are pending than are allowed. -/
theorem run_pendingCalls_le (timeoutMs : ℕ) (maxPendingCalls : ℤ) (failIfActorUnreachable : Bool)
    {events : List (SubmitterEvent T)} (hlegal : Legal events) (done rest : List (SubmitterEvent T))
    (h : events = done ++ rest) : ∃ s out,
      runSteps (step timeoutMs)
        (init maxPendingCalls failIfActorUnreachable : ActorTaskSubmitter Q T) done =
        .ok (s, out) ∧ HandledOnce out s ∧ s.queued.length + s.inFlight.length ≤ s.curPendingCalls ∧
      (0 < s.maxPendingCalls → s.pendingTasksFull = false →
        s.queued.length + s.inFlight.length < s.maxPendingCalls) := by
  obtain ⟨s, out, hrun, hs⟩ := run_balance_rule (Q := Q) (P := (0 ≤ ·)) le_rfl timeoutMs maxPendingCalls
    failIfActorUnreachable hlegal (fun _ _ _ _ s _ _ hs => by split_ifs <;> omega) done rest h
  obtain ⟨s₁, out₁, hrun₁, hinv⟩ :=
    run_inv (Q := Q) timeoutMs maxPendingCalls failIfActorUnreachable hlegal h
  rw [hrun] at hrun₁
  cases hrun₁
  rw [h] at hlegal
  unfold balance at hs
  refine ⟨s, out, hrun, hinv.handledOnce hlegal.prefix_distinct, by omega, fun hmax hfull => ?_⟩
  rw [pendingTasksFull, Bool.and_eq_false_iff, decide_eq_false_iff_not,
    decide_eq_false_iff_not] at hfull
  omega

/-- **The pending calls of an actor.**  In every legal run each attempt that was sent or posted to
fail is handled once; and the counter is right at every moment if and only if no dependency
resolution ends with an error while its call is still queued. -/
theorem run_accounted_iff_failsQueued (timeoutMs : ℕ) (maxPendingCalls : ℤ)
    (failIfActorUnreachable : Bool)
    {events : List (SubmitterEvent T)} (hlegal : Legal events) :
    (∀ done rest, events = done ++ rest → ∃ s out,
      runSteps (step timeoutMs)
        (init maxPendingCalls failIfActorUnreachable : ActorTaskSubmitter Q T) done =
        .ok (s, out) ∧ HandledOnce out s ∧ Accounted s) ↔
    ∀ done e rest, events = done ++ e :: rest → ∀ s out,
      runSteps (step timeoutMs)
        (init maxPendingCalls failIfActorUnreachable : ActorTaskSubmitter Q T) done =
        .ok (s, out) → s.failsQueued e = false := by
  constructor
  · intro h done e rest hevents s out hrun
    obtain ⟨s₁, out₁, hrun₁, -, hbefore⟩ := h done (e :: rest) hevents
    rw [hrun] at hrun₁
    cases hrun₁
    obtain ⟨s', out', hrun', hbalance⟩ :=
      run_step timeoutMs maxPendingCalls failIfActorUnreachable hlegal
      hevents hrun
    obtain ⟨s₂, out₂, hrun₂, -, hafter⟩ := h (done ++ [e]) rest (by rw [hevents, List.append_assoc,
      List.singleton_append])
    rw [hrun'] at hrun₂
    cases hrun₂
    rw [accounted_iff.mp hbefore, accounted_iff.mp hafter] at hbalance
    cases hfails : s.failsQueued e with
    | false => rfl
    | true =>
      rw [hfails] at hbalance
      exact absurd hbalance (by decide)
  · intro hcalm done rest hevents
    obtain ⟨s, out, hrun, hzero⟩ :=
      run_balance timeoutMs maxPendingCalls failIfActorUnreachable hlegal hcalm
      done rest hevents
    obtain ⟨s₁, out₁, hrun₁, hinv⟩ :=
      run_inv (Q := Q) timeoutMs maxPendingCalls failIfActorUnreachable hlegal
      hevents
    rw [hrun] at hrun₁
    cases hrun₁
    rw [hevents] at hlegal
    exact ⟨s, out, hrun, hinv.handledOnce hlegal.prefix_distinct, accounted_iff.mpr hzero⟩

/-! ### Two runs -/

/-- A first call of a method. -/
def firstCall : TaskSpecification ℕ := ⟨1, 0, "", 0, "method", [], []⟩

/-- A call up to its callback from the resolver, with the status given. -/
def resolvedWith (status : Status) : List (SubmitterEvent ℕ) :=
  [.submitTask firstCall, .postResolution 0, .runPosted 0, .takeCallback 0 status, .runCallback 0 id]

/-- A call that is resolved, pushed to the actor and replied. -/
def repliedCall : List (SubmitterEvent ℕ) :=
  resolvedWith .ok ++ [.connectActor ⟨"node", "ip", 0, "worker"⟩ 0 id, .reply (1, 0) .ok {},
    .handlePushTaskReply 0, .finishReply 0 false false]

theorem legal_repliedCall : Legal repliedCall := by
  refine ⟨⟨by decide, by decide⟩, ?_⟩
  simp [repliedCall, resolvedWith, LegalEvent]

theorem legal_resolvedWith (status : Status) : Legal (resolvedWith status) := by
  refine ⟨⟨List.nodup_singleton _, List.nodup_singleton _⟩, ?_⟩
  simp [resolvedWith, LegalEvent]

theorem run_accounted_repliedCall :
    ∃ s out, runSteps (step 0) (init 1 true : ActorTaskSubmitter (SequentialActorSubmitQueue ℕ) ℕ)
      repliedCall =
      .ok (s, out) ∧ HandledOnce out s ∧ Accounted s := by
  refine (run_accounted_iff_failsQueued 0 1 true legal_repliedCall).mpr ?_ repliedCall []
    (List.append_nil _).symm
  have hcheck : ∀ i : Fin 9, ((runSteps (step 0)
      (init 1 true : ActorTaskSubmitter (SequentialActorSubmitQueue ℕ) ℕ)
      (repliedCall.take i)).toOption.elim false
        (fun r => (repliedCall.drop i).head?.elim false (fun e => !r.1.failsQueued e))) = true := by
    decide +kernel
  intro done e rest h s out hrun
  have hlt : done.length < 9 := by
    have hlen := congrArg List.length h
    rw [List.length_append, List.length_cons] at hlen
    have hnine : repliedCall.length = 9 := rfl
    omega
  have hi := hcheck ⟨done.length, hlt⟩
  simp only [h, List.take_left', List.drop_left'] at hi
  rw [hrun] at hi
  simpa [Except.toOption] using hi

/-- The call whose dependencies fail still counts. -/
theorem run_pendingCalls_le_failed : ∃ s out,
    runSteps (step 0) (init 1 true : ActorTaskSubmitter (SequentialActorSubmitQueue ℕ) ℕ)
      (resolvedWith (.ioError "")) = .ok (s, out) ∧
      s.queued.length + s.inFlight.length ≤ s.curPendingCalls := by
  obtain ⟨s, out, hrun, -, hle, -⟩ := run_pendingCalls_le (Q := SequentialActorSubmitQueue ℕ) 0 1 true
    (legal_resolvedWith (.ioError "")) _ [] (List.append_nil _).symm
  exact ⟨s, out, hrun, hle⟩

/-- A call whose dependencies fail: nothing is pending, and the next call is rejected. -/
theorem failedDependency_not_accounted :
    Legal (resolvedWith (.ioError "")) ∧ ∃ s out,
      runSteps (step 0) (init 1 true : ActorTaskSubmitter (SequentialActorSubmitQueue ℕ) ℕ)
        (resolvedWith (.ioError "")) = .ok (s, out) ∧
      s.queued = [] ∧ s.inFlight = [] ∧ s.pendingTasksFull = true ∧ ¬ Accounted s := by
  have hlegal := legal_resolvedWith (.ioError "")
  obtain ⟨s, out, hrun, -⟩ := run_inv (Q := SequentialActorSubmitQueue ℕ) 0 1 true hlegal
    (List.append_nil _).symm
  have hcheck : (runSteps (step 0) (init 1 true : ActorTaskSubmitter (SequentialActorSubmitQueue ℕ) ℕ)
      (resolvedWith (.ioError ""))).toOption.map
        (fun r => (r.1.queued.length, r.1.inFlight.length, r.1.curPendingCalls, r.1.pendingTasksFull)) =
          some (0, 0, 1, true) := by
    decide +kernel
  rw [hrun, Except.toOption, Option.map_some, Option.some.injEq] at hcheck
  obtain ⟨hqueued, hin, hcount, hfull⟩ := by simpa only [Prod.mk.injEq] using hcheck
  refine ⟨hlegal, s, out, hrun, List.length_eq_zero_iff.mp hqueued,
    List.length_eq_zero_iff.mp hin, hfull, ?_⟩
  intro haccounted
  have h := haccounted.count
  rw [hqueued, hin, hcount] at h
  exact absurd h (by decide)

end ActorTaskSubmitter
end RayTfm.CoreWorker
