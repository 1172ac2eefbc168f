import RayTfm.Lib.Dict
import RayTfm.Py

/-! # Instances of the autoscaler

An instance goes through the statuses of its life one transition at a time (`getValidTransitions`),
and keeps the history of them.  `Instance.WellFormed` says that the history is a path of valid
transitions from a status in which instances are created to the current one; creating and updating
an instance gives well-formed ones (`createInstance_ok`, `updateInstance_ok`). -/

namespace RayTfm.Autoscaler

/-- A failed `assert` with its message, and the other exceptions that the autoscaler meets. -/
inductive AutoscalerError where
  | assertionError (msg : String)
  | subscriberError (msg : String)
  | keyError
  | valueError (msg : String)
deriving DecidableEq, Repr

/-- `assert condition, msg`. -/
def assertThat (condition : Bool) (msg : String) : Except AutoscalerError Unit :=
  if condition then .ok () else .error (.assertionError msg)

@[simp] theorem assertThat_true (msg : String) : assertThat true msg = .ok () := rfl

theorem assertThat_eq_ok {condition : Bool} {msg : String} {u : Unit} :
    assertThat condition msg = .ok u ↔ condition = true := by
  cases condition
  · exact ⟨nofun, nofun⟩
  · exact ⟨fun _ => rfl, fun _ => rfl⟩

/-- `Instance.InstanceStatus`. -/
inductive InstanceStatus where
  | unknown
  | queued
  | requested
  | allocated
  | rayInstalling
  | rayRunning
  | rayStopRequested
  | rayStopping
  | rayStopped
  | terminating
  | terminated
  | allocationFailed
  | rayInstallFailed
  | terminationFailed
  | allocationTimeout
deriving DecidableEq, Repr

/-- `Instance.InstanceStatus.Name`. -/
def InstanceStatus.name : InstanceStatus → String
  | .unknown => "UNKNOWN"
  | .queued => "QUEUED"
  | .requested => "REQUESTED"
  | .allocated => "ALLOCATED"
  | .rayInstalling => "RAY_INSTALLING"
  | .rayRunning => "RAY_RUNNING"
  | .rayStopRequested => "RAY_STOP_REQUESTED"
  | .rayStopping => "RAY_STOPPING"
  | .rayStopped => "RAY_STOPPED"
  | .terminating => "TERMINATING"
  | .terminated => "TERMINATED"
  | .allocationFailed => "ALLOCATION_FAILED"
  | .rayInstallFailed => "RAY_INSTALL_FAILED"
  | .terminationFailed => "TERMINATION_FAILED"
  | .allocationTimeout => "ALLOCATION_TIMEOUT"

/-- `NodeKind`. -/
inductive NodeKind where
  | unmanaged
  | head
  | worker
deriving DecidableEq, Repr

/-- `Instance.StatusHistory`. -/
structure StatusHistory where
  instanceStatus : InstanceStatus
  details : String
deriving DecidableEq, Repr

/-- `Instance`; what is not set is empty. -/
structure Instance where
  instanceId : String
  cloudInstanceId : String
  nodeId : String
  status : InstanceStatus
  instanceType : String
  version : ℕ
  statusHistory : List StatusHistory
  launchRequestId : String
  nodeKind : NodeKind
  launchConfigHash : String
deriving DecidableEq, Repr

/-- `InstanceUpdateEvent`; what is not set is empty. -/
structure InstanceUpdateEvent where
  instanceId : String
  newInstanceStatus : InstanceStatus
  details : String
  upsert : Bool
  instanceType : String
  cloudInstanceId : String
  nodeKind : NodeKind
  rayNodeId : String
  launchRequestId : String
deriving DecidableEq, Repr

/-! ### `InstanceUtil` -/

/-- `InstanceUtil.get_valid_transitions`. -/
def getValidTransitions : InstanceStatus → List InstanceStatus
  | .queued => [.requested, .terminated]
  | .requested => [.allocated, .queued, .allocationFailed]
  | .allocated =>
    [.rayInstalling, .rayRunning, .allocationTimeout, .rayStopping, .rayStopped, .terminating,
      .terminated]
  | .rayInstalling => [.rayRunning, .rayInstallFailed, .rayStopped, .terminating, .terminated]
  | .rayRunning => [.rayStopRequested, .rayStopping, .rayStopped, .terminating, .terminated]
  | .rayStopRequested => [.rayStopping, .rayStopped, .rayRunning, .terminated]
  | .allocationTimeout => [.terminating, .terminated]
  | .rayStopping => [.rayStopped, .terminating, .terminated]
  | .rayStopped => [.terminating, .terminated]
  | .terminating => [.terminated, .terminationFailed]
  | .terminationFailed => [.terminating, .terminated]
  | .terminated => []
  | .allocationFailed => []
  | .rayInstallFailed => [.terminating, .terminated]
  | .unknown => []

/-- Depth-first search for the statuses that are reachable from `start`, as deep as the fuel
allows. -/
def dfs : ℕ → List InstanceStatus → InstanceStatus → List InstanceStatus
  | 0, visited, _ => visited
  | fuel + 1, visited, start =>
    (getValidTransitions start).foldl (fun visited nextNode =>
      if nextNode ∈ visited then visited else dfs fuel (nextNode :: visited) nextNode) visited

/-- `InstanceUtil.get_reachable_statuses`; no search is deeper than there are statuses. -/
def getReachableStatuses (status : InstanceStatus) : List InstanceStatus := dfs 15 [] status

/-- `InstanceUtil.is_ray_running_reachable`. -/
def isRayRunningReachable (status : InstanceStatus) : Bool := .rayRunning ∈ getReachableStatuses status

namespace Instance

/-- `InstanceUtil._record_status_transition`. -/
def recordStatusTransition (inst : Instance) (status : InstanceStatus) (details : String) : Instance :=
  { inst with statusHistory := inst.statusHistory ++ [⟨status, details⟩] }

/-- `InstanceUtil.new_instance`. -/
def newInstance (instanceId instanceType : String) (status : InstanceStatus) (details : String) :
    Instance :=
  recordStatusTransition ⟨instanceId, "", "", status, instanceType, 0, [], "", .unmanaged, ""⟩
    status details

/-- `InstanceUtil.set_status`: nothing if the transition is not a valid one. -/
def setStatus (inst : Instance) (newInstanceStatus : InstanceStatus) (details : String) :
    Option Instance :=
  if newInstanceStatus ∉ getValidTransitions inst.status then none
  else some (recordStatusTransition { inst with status := newInstanceStatus } newInstanceStatus details)

end Instance

/-! ### Reachable statuses -/

/-! ### Creating and updating an instance -/

/-- `InstanceManager._apply_update`. -/
def applyUpdate (inst : Instance) (update : InstanceUpdateEvent) : Except AutoscalerError Instance :=
  match update.newInstanceStatus with
  | .allocated => do
      assertThat (update.cloudInstanceId ≠ "") "ALLOCATED update must have cloud_instance_id"
      assertThat (update.nodeKind ∈ [NodeKind.worker, .head]) "ALLOCATED update must have node_kind as WORKER or HEAD"
      assertThat (update.instanceType ≠ "") "ALLOCATED update must have instance_type"
      assertThat (update.cloudInstanceId ≠ "") "ALLOCATED update must have cloud_instance_id"
      return { inst with
        cloudInstanceId := update.cloudInstanceId
        nodeKind := update.nodeKind
        instanceType := update.instanceType
        nodeId := update.rayNodeId }
  | .rayRunning => do
      assertThat (update.rayNodeId ≠ "") "RAY_RUNNING update must have ray_node_id"
      return { inst with nodeId := update.rayNodeId }
  | .requested => do
      assertThat (update.launchRequestId ≠ "") "REQUESTED update must have launch_request_id"
      assertThat (update.instanceType ≠ "") "REQUESTED update must have instance_type"
      return { inst with launchRequestId := update.launchRequestId, instanceType := update.instanceType }
  | .terminating => do
      assertThat (update.cloudInstanceId ≠ "") "TERMINATING update must have cloud instance id"
      return inst
  | _ => return inst

/-- The statuses in which an instance is created. -/
def initialStatuses : List InstanceStatus := [.allocated, .queued, .terminating]

/-- `InstanceManager._create_instance`. -/
def createInstance (update : InstanceUpdateEvent) : Except AutoscalerError Instance := do
  assertThat update.upsert "upsert must be true for creating new instance."
  assertThat (update.newInstanceStatus ∈ initialStatuses)
    "Invalid status for new instance, must be one of [ALLOCATED, QUEUED, TERMINATING]"
  applyUpdate (.newInstance update.instanceId update.instanceType update.newInstanceStatus
    update.details) update

/-- `InstanceManager._update_instance`. -/
def updateInstance (inst : Instance) (update : InstanceUpdateEvent) : Except AutoscalerError Instance :=
  match inst.setStatus update.newInstanceStatus "" with
  | none => .error (.assertionError ("Invalid status transition from " ++ inst.status.name ++ " to " ++
      update.newInstanceStatus.name))
  | some inst => applyUpdate inst update

/-- The instance that an update makes of the stored one, or of none. -/
def upsertInstance (stored : Option Instance) (update : InstanceUpdateEvent) :
    Except AutoscalerError Instance :=
  match stored with
  | some inst => updateInstance inst update
  | none => createInstance update

/-! ### Well-formed instances -/

/-- The statuses that an instance went through. -/
def Instance.statuses (inst : Instance) : List InstanceStatus :=
  inst.statusHistory.map (·.instanceStatus)

/-- The history is a path of valid transitions that begins where instances are created and ends in
the status. -/
structure Instance.WellFormed (inst : Instance) : Prop where
  initial : ∃ status ∈ initialStatuses, inst.statuses.head? = some status
  path : inst.statuses.IsChain (fun a b => b ∈ getValidTransitions a)
  last : inst.statuses.getLast? = some inst.status

/-- What an update records: the identity stays, and the history grows by the new status. -/
structure Recorded (inst inst' : Instance) : Prop where
  instanceId : inst'.instanceId = inst.instanceId
  status : inst'.status = inst.status
  statusHistory : inst'.statusHistory = inst.statusHistory

variable {inst inst' : Instance}

theorem applyUpdate_recorded {update : InstanceUpdateEvent} (h : applyUpdate inst update = .ok inst') : Recorded inst inst' := by
  unfold applyUpdate at h
  split at h
  · obtain ⟨_, -, h⟩ := bind_eq_ok.mp h
    obtain ⟨_, -, h⟩ := bind_eq_ok.mp h
    obtain ⟨_, -, h⟩ := bind_eq_ok.mp h
    obtain ⟨_, -, h⟩ := bind_eq_ok.mp h
    cases h
    exact ⟨rfl, rfl, rfl⟩
  · obtain ⟨_, -, h⟩ := bind_eq_ok.mp h
    cases h
    exact ⟨rfl, rfl, rfl⟩
  · obtain ⟨_, -, h⟩ := bind_eq_ok.mp h
    obtain ⟨_, -, h⟩ := bind_eq_ok.mp h
    cases h
    exact ⟨rfl, rfl, rfl⟩
  · obtain ⟨_, -, h⟩ := bind_eq_ok.mp h
    cases h
    exact ⟨rfl, rfl, rfl⟩
  · cases h
    exact ⟨rfl, rfl, rfl⟩

theorem Instance.WellFormed.congr (h : inst.WellFormed)
    (hhistory : inst'.statusHistory = inst.statusHistory) (hstatus : inst'.status = inst.status) :
    inst'.WellFormed := by
  have hstatuses : inst'.statuses = inst.statuses := by rw [statuses, hhistory, statuses]
  refine ⟨?_, ?_, ?_⟩
  · rw [hstatuses]; exact h.initial
  · rw [hstatuses]; exact h.path
  · rw [hstatuses, hstatus]; exact h.last

/-- A new instance has its id, the status of the update, and a history of this status alone. -/
theorem createInstance_ok {update : InstanceUpdateEvent} (h : createInstance update = .ok inst) :
    inst.WellFormed ∧ inst.instanceId = update.instanceId ∧ inst.status = update.newInstanceStatus ∧
      inst.statuses = [update.newInstanceStatus] := by
  obtain ⟨_, -, h⟩ := bind_eq_ok.mp h
  obtain ⟨_, hinitial, h⟩ := bind_eq_ok.mp h
  have hinitial := of_decide_eq_true (assertThat_eq_ok.mp hinitial)
  have hrec := applyUpdate_recorded h
  have hstatuses : inst.statuses = [update.newInstanceStatus] := by
    rw [Instance.statuses, hrec.statusHistory]
    rfl
  refine ⟨⟨⟨update.newInstanceStatus, hinitial, ?_⟩, ?_, ?_⟩, hrec.instanceId, hrec.status, hstatuses⟩
  · rw [hstatuses, List.head?_cons]
  · rw [hstatuses]; exact .singleton _
  · rw [hstatuses, hrec.status]; rfl

theorem updateInstance_ok {update : InstanceUpdateEvent} (h : updateInstance inst update = .ok inst') :
    update.newInstanceStatus ∈ getValidTransitions inst.status ∧ inst'.instanceId = inst.instanceId ∧
      inst'.status = update.newInstanceStatus ∧
      inst'.statuses = inst.statuses ++ [update.newInstanceStatus] := by
  unfold updateInstance Instance.setStatus at h
  split at h
  · cases h
  · next moved hmoved =>
      split at hmoved
      · cases hmoved
      · next hvalid =>
          cases hmoved
          have hrec := applyUpdate_recorded h
          refine ⟨not_not.mp hvalid, hrec.instanceId, hrec.status, ?_⟩
          rw [Instance.statuses, hrec.statusHistory, Instance.statuses]
          exact List.map_append

theorem Instance.WellFormed.update {update : InstanceUpdateEvent} (hwf : inst.WellFormed)
    (h : updateInstance inst update = .ok inst') : inst'.WellFormed := by
  obtain ⟨hvalid, _, hstatus, hstatuses⟩ := updateInstance_ok h
  obtain ⟨first, hfirst, hhead⟩ := hwf.initial
  refine ⟨⟨first, hfirst, ?_⟩, ?_, ?_⟩
  · rw [hstatuses, List.head?_append, hhead]
    rfl
  · rw [hstatuses, List.isChain_append]
    refine ⟨hwf.path, .singleton _, fun a ha b hb => ?_⟩
    rw [hwf.last] at ha
    cases ha
    cases hb
    exact hvalid
  · rw [hstatuses, hstatus, List.getLast?_concat]

theorem upsertInstance_ok {update : InstanceUpdateEvent} {stored : Option Instance}
    (hstored : ∀ old, stored = some old → old.WellFormed ∧ old.instanceId = update.instanceId)
    (h : upsertInstance stored update = .ok inst) :
    inst.WellFormed ∧ inst.instanceId = update.instanceId ∧
      inst.statuses = stored.elim [] Instance.statuses ++ [update.newInstanceStatus] := by
  cases stored with
  | none =>
    obtain ⟨hwf, hid, _, hstatuses⟩ := createInstance_ok h
    exact ⟨hwf, hid, hstatuses⟩
  | some old =>
    obtain ⟨hwf, hid⟩ := hstored old rfl
    obtain ⟨_, hid', _, hstatuses⟩ := updateInstance_ok h
    exact ⟨hwf.update h, hid'.trans hid, hstatuses⟩

end RayTfm.Autoscaler
