import RayTfm.Lib.NestedDict
import RayTfm.Lib.Runs
import RayTfm.Py

/-! # The actor-wide back-pressure budget of streaming generators

All generator tasks of an actor share one `ActorWideGeneratorBackpressureWaiter`
(`core_worker/generator_waiter.cc`): a group of objects is admitted while fewer than
`backpressureThreshold` generated objects are not yet consumed.  `ReserveActorWideSlot` waits until
that is so, `ReleaseActorWideSlot` takes an admission back, `OnConsumedForTask` is a report of the
consumer, `TeardownTask` ends a task.

The mutex makes every operation one step, except that a reservation gives the mutex up while it
waits: a waiting thread is in `parked`, and each of its wake-ups (signalled, timed out or spurious)
is a step of its own.  `BudgetEvent` are the steps in any order, `step` is what one does.

`Moves` says of an operation that the shared totals change by as much as the share of its task,
whatever it is called with; the budget follows from it for all runs. -/

namespace RayTfm

/-- The counters of one generator task. -/
structure ActorTaskBackpressureMetadata where
  perTaskGenerated : ℤ := 0
  perTaskConsumed : ℤ := 0
  taskAlive : Bool := true
deriving DecidableEq

/-- The totals that all tasks of the actor share. -/
structure ActorWideGeneratorBackpressureWaiter where
  backpressureThreshold : ℤ
  totalObjectsGenerated : ℤ := 0
  totalObjectsConsumed : ℤ := 0
deriving DecidableEq

/-- What the environment sees of an operation. -/
inductive WaiterOutput where
  /-- A reservation returns OK and its group is admitted. -/
  | admitted (task : ℕ) (numObjects : ℤ)
  /-- A reservation returns OK for a task that has been torn down. -/
  | notAlive (task : ℕ)
  /-- A reservation returns the status of `check_signals`. -/
  | interrupted (task : ℕ)
  /-- All waiting threads are signalled. -/
  | signalAll
deriving DecidableEq

namespace ActorWideGeneratorBackpressureWaiter

/-- The objects that have been generated and not consumed. -/
def unconsumed (w : ActorWideGeneratorBackpressureWaiter) : ℤ :=
  w.totalObjectsGenerated - w.totalObjectsConsumed

/-- The condition of the waiting loop of `ReserveActorWideSlot`. -/
def Blocks (w : ActorWideGeneratorBackpressureWaiter) (metadata : ActorTaskBackpressureMetadata) :
    Prop :=
  metadata.taskAlive = true ∧ w.backpressureThreshold ≤ w.totalObjectsGenerated - w.totalObjectsConsumed

instance (w : ActorWideGeneratorBackpressureWaiter) (metadata : ActorTaskBackpressureMetadata) :
    Decidable (w.Blocks metadata) := by
  unfold Blocks
  infer_instance

/-- The signal of an operation that has lowered the number of unconsumed objects. -/
def signalBelow (w : ActorWideGeneratorBackpressureWaiter) : List WaiterOutput :=
  if w.totalObjectsGenerated - w.totalObjectsConsumed < w.backpressureThreshold then [.signalAll]
  else []

/-- `ReserveActorWideSlot` from the waiting loop on; `none` when it goes on waiting. -/
def reserveActorWideSlot (w : ActorWideGeneratorBackpressureWaiter)
    (metadata : ActorTaskBackpressureMetadata)
    (task : ℕ) (numObjects : ℤ) :
    Option (ActorWideGeneratorBackpressureWaiter × ActorTaskBackpressureMetadata × List WaiterOutput) :=
  if w.Blocks metadata then none
  else if metadata.taskAlive = false then some (w, metadata, [.notAlive task])
  else
    some ({ w with totalObjectsGenerated := w.totalObjectsGenerated + numObjects },
      { metadata with perTaskGenerated := metadata.perTaskGenerated + numObjects },
      [.admitted task numObjects])

def releaseActorWideSlot (w : ActorWideGeneratorBackpressureWaiter)
    (metadata : ActorTaskBackpressureMetadata)
    (numObjects : ℤ) :
    ActorWideGeneratorBackpressureWaiter × ActorTaskBackpressureMetadata × List WaiterOutput :=
  if metadata.taskAlive = false then (w, metadata, [])
  else
    let releasable := min numObjects (metadata.perTaskGenerated - metadata.perTaskConsumed)
    if releasable ≤ 0 then (w, metadata, [])
    else
      let w := { w with totalObjectsGenerated := w.totalObjectsGenerated - releasable }
      (w, { metadata with perTaskGenerated := metadata.perTaskGenerated - releasable }, w.signalBelow)

def onConsumedForTask (w : ActorWideGeneratorBackpressureWaiter)
    (metadata : ActorTaskBackpressureMetadata)
    (total : ℤ) :
    ActorWideGeneratorBackpressureWaiter × ActorTaskBackpressureMetadata × List WaiterOutput :=
  if metadata.taskAlive = false then (w, metadata, [])
  else
    -- the reported total may not line up with what was admitted
    let clampedTotal := min total metadata.perTaskGenerated
    let delta := clampedTotal - metadata.perTaskConsumed
    if delta ≤ 0 then (w, metadata, [])
    else
      let w := { w with totalObjectsConsumed := w.totalObjectsConsumed + delta }
      (w, { metadata with perTaskConsumed := clampedTotal }, w.signalBelow)

def teardownTask (w : ActorWideGeneratorBackpressureWaiter) (metadata : ActorTaskBackpressureMetadata) :
    ActorWideGeneratorBackpressureWaiter × ActorTaskBackpressureMetadata × List WaiterOutput :=
  if metadata.taskAlive = false then (w, metadata, [])
  else
    let outstanding := metadata.perTaskGenerated - metadata.perTaskConsumed
    let w :=
      if 0 < outstanding then { w with totalObjectsGenerated := w.totalObjectsGenerated -
        outstanding } else w
    (w, { metadata with taskAlive := false }, [.signalAll])

end ActorWideGeneratorBackpressureWaiter

open ActorWideGeneratorBackpressureWaiter

/-- The waiter of an actor, its generator tasks and the threads that wait in a reservation. -/
structure ActorBudget where
  waiter : ActorWideGeneratorBackpressureWaiter
  tasks : Dict ℕ ActorTaskBackpressureMetadata
  /-- The task and the group of each waiting thread. -/
  parked : Dict ℕ (ℕ × ℤ)

/-- The steps of the threads. -/
inductive BudgetEvent where
  /-- A generator task starts. -/
  | newTask (task : ℕ)
  /-- A thread calls `ReserveActorWideSlot`. -/
  | reserve (thread task : ℕ) (numObjects : ℤ)
  /-- A waiting thread wakes up and checks for signals. -/
  | wake (thread : ℕ) (signalsOk : Bool)
  | release (task : ℕ) (numObjects : ℤ)
  | consumed (task : ℕ) (total : ℤ)
  | teardown (task : ℕ)

/-- Groups are not empty. -/
def BudgetEvent.Positive : BudgetEvent → Prop
  | .reserve _ _ numObjects => 0 < numObjects
  | _ => True

/-- Why a step cannot be taken. -/
inductive NoStep where
  | taskExists
  | noTask
  | threadWaits
  | threadRuns
deriving DecidableEq

namespace ActorBudget

/-- The actor before its first generator task. -/
def start (actorCap : ℤ) : ActorBudget where
  waiter := { backpressureThreshold := actorCap }
  tasks := Dict.empty
  parked := Dict.empty

/-- The result of an operation on one task. -/
def update (s : ActorBudget) (task : ℕ)
    (r : ActorWideGeneratorBackpressureWaiter × ActorTaskBackpressureMetadata × List WaiterOutput) :
    ActorBudget × List WaiterOutput :=
  ({ s with waiter := r.1, tasks := s.tasks.set task r.2.1 }, r.2.2)

/-- A thread at the waiting loop of a reservation. -/
def waitLoop (s : ActorBudget) (thread task : ℕ) (metadata : ActorTaskBackpressureMetadata)
    (numObjects : ℤ) :
    ActorBudget × List WaiterOutput :=
  match s.waiter.reserveActorWideSlot metadata task numObjects with
  | none => ({ s with parked := s.parked.set thread (task, numObjects) }, [])
  | some r => s.update task r

/-- The metadata of a task. -/
def metadata (s : ActorBudget) (task : ℕ) : Except NoStep ActorTaskBackpressureMetadata :=
  match s.tasks.get? task with
  | none => .error .noTask
  | some m => .ok m

def step (s : ActorBudget) : BudgetEvent → Except NoStep (ActorBudget × List WaiterOutput)
  | .newTask task =>
    match s.tasks.get? task with
    | some _ => .error .taskExists
    | none => .ok ({ s with tasks := s.tasks.set task {} }, [])
  | .reserve thread task numObjects =>
    match s.parked.get? thread with
    | some _ => .error .threadWaits
    | none => do
        let m ← s.metadata task
        .ok (s.waitLoop thread task m numObjects)
  | .wake thread signalsOk =>
    match s.parked.get? thread with
    | none => .error .threadRuns
    | some (task, numObjects) =>
      let s := { s with parked := s.parked.erase thread }
      if signalsOk = false then .ok (s, [.interrupted task])
      else do
        let m ← s.metadata task
        .ok (s.waitLoop thread task m numObjects)
  | .release task numObjects => do
      let m ← s.metadata task
      .ok (s.update task (s.waiter.releaseActorWideSlot m numObjects))
  | .consumed task total => do
      let m ← s.metadata task
      .ok (s.update task (s.waiter.onConsumedForTask m total))
  | .teardown task => do
      let m ← s.metadata task
      .ok (s.update task (s.waiter.teardownTask m))

end ActorBudget

/-! ### What an operation moves -/

namespace ActorTaskBackpressureMetadata

/-- The objects that a task holds of the budget. -/
def share (metadata : ActorTaskBackpressureMetadata) : ℤ :=
  if metadata.taskAlive = true then metadata.perTaskGenerated - metadata.perTaskConsumed else 0

variable {metadata : ActorTaskBackpressureMetadata}

theorem share_of_alive (h : metadata.taskAlive = true) :
    metadata.share = metadata.perTaskGenerated - metadata.perTaskConsumed := if_pos h

theorem share_of_not_alive (h : metadata.taskAlive = false) :
    metadata.share = 0 := if_neg (by simp [h])

end ActorTaskBackpressureMetadata

/-- The objects of the group that was admitted last. -/
def lastAdmitted (out : List WaiterOutput) : ℤ :=
  out.foldl (fun last o => match o with
    | .admitted _ numObjects => numObjects
    | _ => last) 0

theorem lastAdmitted_admitted (out : List WaiterOutput) (task : ℕ) (numObjects : ℤ) :
    lastAdmitted (out ++ [.admitted task numObjects]) = numObjects := by
  rw [lastAdmitted, List.foldl_append]
  rfl

theorem lastAdmitted_of_not_admitted (out : List WaiterOutput) {o : List WaiterOutput}
    (h : ∀ task numObjects, WaiterOutput.admitted task numObjects ∉ o) :
    lastAdmitted (out ++ o) = lastAdmitted out := by
  induction o generalizing out with
  | nil => rw [List.append_nil]
  | cons x o ih =>
    have hrest := ih (out ++ [x]) (fun t n hmem => h t n (.tail _ hmem))
    rw [List.append_assoc, List.singleton_append] at hrest
    rw [hrest, lastAdmitted, List.foldl_append]
    cases x with
    | admitted t n => exact absurd List.mem_cons_self (h t n)
    | notAlive t => rfl
    | interrupted t => rfl
    | signalAll => rfl

namespace ActorWideGeneratorBackpressureWaiter

variable {w : ActorWideGeneratorBackpressureWaiter} {metadata : ActorTaskBackpressureMetadata}

/-- The totals change by what the share of the task changes by, the share stays at least zero, and
the totals exceed the threshold by less than the group admitted last. -/
structure Moves (w : ActorWideGeneratorBackpressureWaiter) (metadata : ActorTaskBackpressureMetadata)
    (r : ActorWideGeneratorBackpressureWaiter × ActorTaskBackpressureMetadata × List WaiterOutput) :
    Prop where
  threshold : r.1.backpressureThreshold = w.backpressureThreshold
  unconsumed : r.1.unconsumed - w.unconsumed = r.2.1.share - metadata.share
  share_nonneg : 0 ≤ metadata.share → 0 ≤ r.2.1.share
  below : 0 ≤ metadata.share → ∀ out, w.unconsumed < w.backpressureThreshold + lastAdmitted out →
    r.1.unconsumed < w.backpressureThreshold + lastAdmitted (out ++ r.2.2)

theorem Moves.refl : w.Moves metadata (w, metadata, []) where
  threshold := rfl
  unconsumed := by simp
  share_nonneg := id
  below := by
    intro _ out h
    rwa [List.append_nil]

variable
  {r : ActorWideGeneratorBackpressureWaiter × ActorTaskBackpressureMetadata × List WaiterOutput}

/-- An operation that admits nothing and lowers the number of unconsumed objects. -/
theorem Moves.of_le (hthreshold : r.1.backpressureThreshold = w.backpressureThreshold)
    (hunconsumed : r.1.unconsumed - w.unconsumed = r.2.1.share - metadata.share)
    (hshare : 0 ≤ metadata.share → 0 ≤ r.2.1.share ∧ r.2.1.share ≤ metadata.share)
    (hout : ∀ task numObjects, WaiterOutput.admitted task numObjects ∉ r.2.2) : w.Moves metadata r where
  threshold := hthreshold
  unconsumed := hunconsumed
  share_nonneg := fun h => (hshare h).1
  below := by
    intro h out hlt
    rw [lastAdmitted_of_not_admitted out hout]
    omega

theorem not_admitted_signalBelow (w : ActorWideGeneratorBackpressureWaiter) (task : ℕ)
    (numObjects : ℤ) :
    WaiterOutput.admitted task numObjects ∉ w.signalBelow := by
  unfold signalBelow
  split_ifs
  · simp
  · exact List.not_mem_nil

theorem reserveActorWideSlot_moves {task : ℕ} {numObjects : ℤ}
    (hpos : 0 < numObjects) (h : w.reserveActorWideSlot metadata task numObjects = some r) :
    w.Moves metadata r := by
  unfold reserveActorWideSlot at h
  by_cases hblocks : w.Blocks metadata
  · rw [if_pos hblocks] at h
    cases h
  rw [if_neg hblocks] at h
  by_cases halive : metadata.taskAlive = false
  · rw [if_pos halive] at h
    cases h
    exact .of_le rfl (by simp) (fun hnonneg => ⟨hnonneg, le_rfl⟩) (by simp)
  · rw [if_neg halive] at h
    cases h
    rw [Bool.not_eq_false] at halive
    have hfree : w.unconsumed < w.backpressureThreshold := by
      by_contra hge
      exact hblocks ⟨halive, not_lt.mp hge⟩
    have hshare := metadata.share_of_alive halive
    have hshare' : ({ metadata with perTaskGenerated := metadata.perTaskGenerated + numObjects } :
        ActorTaskBackpressureMetadata).share = metadata.share + numObjects := by
      rw [hshare]
      exact (if_pos halive).trans (add_sub_right_comm _ _ _)
    constructor
    · rfl
    · rw [hshare']
      unfold unconsumed
      ring
    · intro hnonneg
      rw [hshare']
      omega
    · intro _ out _
      rw [lastAdmitted_admitted]
      unfold unconsumed at hfree ⊢
      simp only
      omega

theorem releaseActorWideSlot_moves (numObjects : ℤ) :
    w.Moves metadata (w.releaseActorWideSlot metadata numObjects) := by
  unfold releaseActorWideSlot
  by_cases halive : metadata.taskAlive = false
  · rw [if_pos halive]
    exact .refl
  rw [if_neg halive]
  rw [Bool.not_eq_false] at halive
  generalize hreleasable :
    min numObjects (metadata.perTaskGenerated - metadata.perTaskConsumed) = releasable
  by_cases hle : releasable ≤ 0
  · rw [if_pos hle]
    exact .refl
  rw [if_neg hle]
  have hshare := metadata.share_of_alive halive
  have hmin : releasable ≤ metadata.share := by
    rw [hshare, ← hreleasable]
    exact min_le_right _ _
  have hshare' : ({ metadata with perTaskGenerated := metadata.perTaskGenerated - releasable } :
      ActorTaskBackpressureMetadata).share = metadata.share - releasable := by
    rw [hshare]
    exact (if_pos halive).trans (sub_right_comm _ _ _)
  apply Moves.of_le
  · rfl
  · simp only
    rw [hshare']
    unfold unconsumed
    ring
  · intro _
    rw [hshare']
    omega
  · exact not_admitted_signalBelow _

theorem onConsumedForTask_moves (total : ℤ) :
    w.Moves metadata (w.onConsumedForTask metadata total) := by
  unfold onConsumedForTask
  by_cases halive : metadata.taskAlive = false
  · rw [if_pos halive]
    exact .refl
  rw [if_neg halive]
  rw [Bool.not_eq_false] at halive
  generalize hclamped : min total metadata.perTaskGenerated = clampedTotal
  by_cases hle : clampedTotal - metadata.perTaskConsumed ≤ 0
  · rw [if_pos hle]
    exact .refl
  rw [if_neg hle]
  have hshare := metadata.share_of_alive halive
  have hmin : clampedTotal ≤ metadata.perTaskGenerated := by
    rw [← hclamped]
    exact min_le_right _ _
  have hshare' : ({ metadata with perTaskConsumed :=
    clampedTotal } : ActorTaskBackpressureMetadata).share =
      metadata.perTaskGenerated - clampedTotal := if_pos halive
  apply Moves.of_le
  · rfl
  · simp only
    rw [hshare', hshare]
    unfold unconsumed
    ring
  · intro _
    rw [hshare', hshare]
    omega
  · exact not_admitted_signalBelow _

theorem teardownTask_moves (hnonneg : 0 ≤ metadata.share) :
    w.Moves metadata (w.teardownTask metadata) := by
  unfold teardownTask
  by_cases halive : metadata.taskAlive = false
  · rw [if_pos halive]
    exact .refl
  rw [if_neg halive]
  rw [Bool.not_eq_false] at halive
  have hshare := metadata.share_of_alive halive
  have hgone : ({ metadata with taskAlive := false } : ActorTaskBackpressureMetadata).share = 0 :=
    ActorTaskBackpressureMetadata.share_of_not_alive rfl
  apply Moves.of_le
  · simp only
    split_ifs <;> rfl
  · simp only
    rw [hgone]
    split_ifs with hpos
    · unfold unconsumed
      rw [hshare]
      ring
    · omega
  · intro _
    rw [hgone]
    exact ⟨le_rfl, hnonneg⟩
  · simp

end ActorWideGeneratorBackpressureWaiter

/-! ### The budget in every run -/

namespace ActorBudget

/-- The shared totals are those of the live tasks, none of which holds less than nothing. -/
structure BudgetInv (actorCap : ℤ) (s : ActorBudget) (out : List WaiterOutput) : Prop where
  threshold : s.waiter.backpressureThreshold = actorCap
  unconsumed : s.waiter.unconsumed = s.tasks.sum (fun _ m => m.share)
  share_nonneg : ∀ task m, s.tasks.get? task = some m → 0 ≤ m.share
  below : s.waiter.unconsumed < actorCap + lastAdmitted out
  parked_pos : ∀ thread task numObjects, s.parked.get? thread = some (task, numObjects) → 0 < numObjects

variable {actorCap : ℤ} {s s' : ActorBudget} {out : List WaiterOutput} {task thread : ℕ}
    {numObjects : ℤ}
  {m : ActorTaskBackpressureMetadata}

theorem start_inv (hcap : 1 ≤ actorCap) : BudgetInv actorCap (start actorCap) [] where
  threshold := rfl
  unconsumed := rfl
  share_nonneg := nofun
  below := by
    show (0 : ℤ) - 0 < actorCap + 0
    omega
  parked_pos := nofun

theorem metadata_eq_ok : s.metadata task = .ok m ↔ s.tasks.get? task = some m := by
  unfold metadata
  cases s.tasks.get? task with
  | none => exact ⟨nofun, nofun⟩
  | some m' => simp

theorem sum_share_set (hm : s.tasks.get? task = some m) (m' : ActorTaskBackpressureMetadata) :
    (s.tasks.set task m').sum (fun _ m => m.share) =
      s.tasks.sum (fun _ m => m.share) + (m'.share - m.share) := by
  rw [Dict.sum_set, Dict.sum_erase hm]
  ring

theorem BudgetInv.update (h : BudgetInv actorCap s out) (hm : s.tasks.get? task = some m)
    {r : ActorWideGeneratorBackpressureWaiter × ActorTaskBackpressureMetadata × List WaiterOutput}
    (hr : s.waiter.Moves m r) : BudgetInv actorCap (s.update task r).1
      (out ++ (s.update task r).2) := by
  have hshare := h.share_nonneg task m hm
  constructor
  · exact hr.threshold.trans h.threshold
  · have hmoved := hr.unconsumed
    have hbefore := h.unconsumed
    show r.1.unconsumed = (s.tasks.set task r.2.1).sum (fun _ m => m.share)
    rw [sum_share_set hm]
    omega
  · intro task' m' hm'
    change (s.tasks.set task r.2.1).get? task' = some m' at hm'
    rw [Dict.get?_set] at hm'
    split_ifs at hm'
    · cases hm'
      exact hr.share_nonneg hshare
    · exact h.share_nonneg task' m' hm'
  · have hbelow := hr.below hshare out
    rw [h.threshold] at hbelow
    exact hbelow h.below
  · exact h.parked_pos

theorem BudgetInv.waitLoop (h : BudgetInv actorCap s out) (thread : ℕ) (hm : s.tasks.get? task = some m)
    (hpos : 0 < numObjects) :
    BudgetInv actorCap (s.waitLoop thread task m numObjects).1
      (out ++ (s.waitLoop thread task m numObjects).2) := by
  unfold ActorBudget.waitLoop
  cases hr : s.waiter.reserveActorWideSlot m task numObjects with
  | some r => exact h.update hm (reserveActorWideSlot_moves hpos hr)
  | none =>
    simp only [List.append_nil]
    refine { h with parked_pos := ?_ }
    intro thread' task' numObjects' hget
    rw [Dict.get?_set] at hget
    split_ifs at hget
    · cases hget
      exact hpos
    · exact h.parked_pos _ _ _ hget

theorem BudgetInv.unpark (h : BudgetInv actorCap s out) (thread : ℕ) :
    BudgetInv actorCap { s with parked := s.parked.erase thread } out := by
  refine { h with parked_pos := ?_ }
  intro thread' task' numObjects' hget
  rw [Dict.get?_erase] at hget
  split_ifs at hget
  exact h.parked_pos _ _ _ hget

variable {o : List WaiterOutput}

theorem BudgetInv.step (h : BudgetInv actorCap s out) {e : BudgetEvent} (hpos : e.Positive)
    (hstep : s.step e = .ok (s', o)) : BudgetInv actorCap s' (out ++ o) := by
  cases e with
  | newTask task =>
    rw [ActorBudget.step] at hstep
    cases hget : s.tasks.get? task with
    | some m =>
      rw [hget] at hstep
      cases hstep
    | none =>
      rw [hget] at hstep
      cases hstep
      rw [List.append_nil]
      refine { h with unconsumed := ?_, share_nonneg := ?_ }
      · rw [h.unconsumed, Dict.sum_set_of_get?_eq_none hget]
        exact (add_zero _).symm
      · intro task' m' hm'
        rw [Dict.get?_set] at hm'
        split_ifs at hm'
        · cases hm'
          exact le_rfl
        · exact h.share_nonneg task' m' hm'
  | reserve thread task numObjects =>
    rw [ActorBudget.step] at hstep
    cases hpark : s.parked.get? thread with
    | some p =>
      rw [hpark] at hstep
      cases hstep
    | none =>
      rw [hpark] at hstep
      obtain ⟨m, hm, hstep⟩ := bind_eq_ok.mp hstep
      have hloop := h.waitLoop thread (metadata_eq_ok.mp hm) hpos
      rwa [Except.ok.inj hstep] at hloop
  | wake thread signalsOk =>
    rw [ActorBudget.step] at hstep
    cases hpark : s.parked.get? thread with
    | none =>
      rw [hpark] at hstep
      cases hstep
    | some p =>
      obtain ⟨task, numObjects⟩ := p
      rw [hpark] at hstep
      split_ifs at hstep
      · cases hstep
        have hfrom := h.unpark thread
        refine { hfrom with below := ?_ }
        rw [lastAdmitted_of_not_admitted out (by simp)]
        exact hfrom.below
      · obtain ⟨m, hm, hstep⟩ := bind_eq_ok.mp hstep
        have hloop := (h.unpark thread).waitLoop thread (metadata_eq_ok.mp hm)
          (h.parked_pos _ _ _ hpark)
        rwa [Except.ok.inj hstep] at hloop
  | release task numObjects =>
    obtain ⟨m, hm, hstep⟩ := bind_eq_ok.mp hstep
    cases hstep
    exact h.update (metadata_eq_ok.mp hm) (releaseActorWideSlot_moves numObjects)
  | consumed task total =>
    obtain ⟨m, hm, hstep⟩ := bind_eq_ok.mp hstep
    cases hstep
    exact h.update (metadata_eq_ok.mp hm) (onConsumedForTask_moves total)
  | teardown task =>
    obtain ⟨m, hm, hstep⟩ := bind_eq_ok.mp hstep
    cases hstep
    have hm := metadata_eq_ok.mp hm
    exact h.update hm (teardownTask_moves (h.share_nonneg task m hm))

theorem run_budgetInv (hcap : 1 ≤ actorCap) {events : List BudgetEvent}
    (hpos : ∀ e ∈ events, e.Positive)
    (hrun : runSteps step (start actorCap) events = .ok (s, out)) : BudgetInv actorCap s out := by
  have hinv := runSteps_inv (P := fun done s out => (∀ e ∈ done, e.Positive) → BudgetInv actorCap s out)
    (fun _ => start_inv hcap) ?_ hrun
  · exact hinv hpos
  · intro done e s out s' o ih hstep hdone
    exact (ih (fun e he => hdone e (List.mem_append_left _ he))).step
      (hdone e (List.mem_append_right _ (.head _))) hstep

/-! ### Reservations that do not wait -/

theorem waitLoop_parked (h : s.waiter.unconsumed < s.waiter.backpressureThreshold) (thread task : ℕ)
    (m : ActorTaskBackpressureMetadata) (numObjects : ℤ) :
    (s.waitLoop thread task m numObjects).1.parked = s.parked := by
  have hfree : ¬ s.waiter.Blocks m := fun hblocks => absurd hblocks.2 (not_le.mpr h)
  unfold waitLoop reserveActorWideSlot
  rw [if_neg hfree]
  split_ifs <;> rfl

/-- With room in the budget no call and no wake-up of a reservation ends in waiting. -/
theorem notMem_parked_of_room (h : s.waiter.unconsumed < s.waiter.backpressureThreshold)
    {e : BudgetEvent}
    (he : (∃ task n, e = .reserve thread task n) ∨ ∃ signalsOk, e = .wake thread signalsOk)
    (hstep : s.step e = .ok (s', o)) : thread ∉ s'.parked.keys := by
  obtain ⟨task, n, rfl⟩ | ⟨signalsOk, rfl⟩ := he
  · rw [step] at hstep
    cases hpark : s.parked.get? thread with
    | some p =>
      rw [hpark] at hstep
      cases hstep
    | none =>
      rw [hpark] at hstep
      obtain ⟨m, -, hstep⟩ := bind_eq_ok.mp hstep
      have hparked := waitLoop_parked h thread task m n
      rw [Except.ok.inj hstep] at hparked
      rw [hparked]
      exact Dict.get?_eq_none_iff.mp hpark
  · rw [step] at hstep
    cases hpark : s.parked.get? thread with
    | none =>
      rw [hpark] at hstep
      cases hstep
    | some p =>
      obtain ⟨task, n⟩ := p
      rw [hpark] at hstep
      have hgone : thread ∉ (s.parked.erase thread).keys :=
        Dict.get?_eq_none_iff.mp (by rw [Dict.get?_erase, if_pos rfl])
      split_ifs at hstep
      · cases hstep
        exact hgone
      · obtain ⟨m, -, hstep⟩ := bind_eq_ok.mp hstep
        have hparked := waitLoop_parked (s := { s with parked := s.parked.erase thread }) h
          thread task m n
        rw [Except.ok.inj hstep] at hparked
        rw [hparked]
        exact hgone

/-- The budget of an actor in every run of its tasks: what is unconsumed is what the live tasks
hold, which is less than the cap and the last group, and nothing once all tasks are torn down; and
when the live tasks hold nothing, no reservation waits. -/
theorem budget_exact {actorCap : ℤ} (hcap : 1 ≤ actorCap) {events : List BudgetEvent}
    (hpos : ∀ e ∈ events, e.Positive) {s : ActorBudget} {out : List WaiterOutput}
    (hrun : runSteps step (start actorCap) events = .ok (s, out)) :
    s.waiter.totalObjectsGenerated - s.waiter.totalObjectsConsumed =
        s.tasks.sum (fun _ m => if m.taskAlive = true then m.perTaskGenerated - m.perTaskConsumed
          else 0) ∧
      (∀ task m, s.tasks.get? task = some m → m.taskAlive = true → 0 ≤ m.perTaskGenerated -
        m.perTaskConsumed) ∧
      s.waiter.totalObjectsGenerated - s.waiter.totalObjectsConsumed < actorCap + lastAdmitted out ∧
      ((∀ task m, s.tasks.get? task = some m → m.taskAlive = false) →
        s.waiter.totalObjectsGenerated - s.waiter.totalObjectsConsumed = 0) ∧
      ((∀ task m, s.tasks.get? task = some m → m.taskAlive = true → m.perTaskGenerated -
        m.perTaskConsumed = 0) →
        ∀ thread e s' o, ((∃ task n, e = .reserve thread task n) ∨ ∃ signalsOk,
          e = .wake thread signalsOk) →
          s.step e = .ok (s', o) → thread ∉ s'.parked.keys) := by
  have hinv := run_budgetInv hcap hpos hrun
  have hzero : (∀ task m, s.tasks.get? task = some m → m.share = 0) → s.waiter.unconsumed = 0 := by
    intro hshare
    rw [hinv.unconsumed]
    refine List.sum_eq_zero (fun n hn => ?_)
    obtain ⟨e, he, rfl⟩ := List.mem_map.mp hn
    exact hshare e.1 e.2 (Dict.get?_eq_some_iff.mpr he)
  refine ⟨hinv.unconsumed, ?_, hinv.below, ?_, ?_⟩
  · intro task m hm halive
    rw [← ActorTaskBackpressureMetadata.share_of_alive halive]
    exact hinv.share_nonneg task m hm
  · intro hdead
    exact hzero (fun task m hm => ActorTaskBackpressureMetadata.share_of_not_alive (hdead task m hm))
  · intro hempty thread e s' o he hstep
    refine notMem_parked_of_room ?_ he hstep
    rw [hinv.threshold, hzero]
    · omega
    · intro task m hm
      by_cases halive : m.taskAlive = true
      · rw [ActorTaskBackpressureMetadata.share_of_alive halive]
        exact hempty task m hm halive
      · exact if_neg halive

/-- A thread waits behind a group of three, until a report of the consumer; the other task is torn
down. -/
theorem budget_exact_waiting :
    ∃ s out, runSteps step (start 2)
        [.newTask 0, .newTask 1, .reserve 10 0 3, .reserve 11 1 1, .consumed 0 7, .wake 11 true,
          .teardown 1] =
        .ok (s, out) ∧
      s.waiter.totalObjectsGenerated - s.waiter.totalObjectsConsumed < 2 + lastAdmitted out := by
  have hrun : ∃ s out, runSteps step (start 2)
      [.newTask 0, .newTask 1, .reserve 10 0 3, .reserve 11 1 1, .consumed 0 7, .wake 11 true,
        .teardown 1] =
      .ok (s, out) := ⟨_, _, rfl⟩
  obtain ⟨s, out, hrun⟩ := hrun
  exact ⟨s, out, hrun, (budget_exact (by decide) (by simp [BudgetEvent.Positive]) hrun).2.2.1⟩

end ActorBudget
end RayTfm
