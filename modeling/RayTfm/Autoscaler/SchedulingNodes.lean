import RayTfm.Autoscaler.ResourceRequests

/-! # Scheduling nodes

The resource scheduler works on nodes: one for each instance that runs ray or may run it, and one
for each node that is to be launched.  A node has the resources that are still available on it, for
pending demand and for the cluster's resource constraint, and the requests that were scheduled on
it. -/

namespace RayTfm.Autoscaler

/-- `NodeStatus`. -/
inductive NodeStatus where
  | unspecified
  | running
  | dead
  | idle
  | draining
deriving DecidableEq, Repr

/-- `NodeState`, with the node id in hexadecimal. -/
structure NodeState where
  nodeId : String
  instanceId : String
  rayNodeTypeName : String
  availableResources : Dict String ℚ
  totalResources : Dict String ℚ
  dynamicLabels : Dict String String
  labels : Dict String String
  status : NodeStatus
  idleDurationMs : ℤ
deriving DecidableEq

/-- `AutoscalerInstance`. -/
structure AutoscalerInstance where
  cloudInstanceId : Option String
  rayNode : Option NodeState
  imInstance : Option Instance
deriving DecidableEq

/-- `NodeTypeConfig`, with what it asserts of its counts. -/
structure NodeTypeConfig where
  name : String
  minWorkerNodes : ℕ
  maxWorkerNodes : ℕ
  min_le_max : minWorkerNodes ≤ maxWorkerNodes
  idleTimeoutS : Option ℚ
  priority : ℤ
  resources : Dict String ℚ
  labels : Dict String String
  launchConfigHash : String
deriving DecidableEq

/-- The node type configs by name. -/
structure NodeTypeConfigs where
  configs : Dict String NodeTypeConfig
  named : ∀ e ∈ configs.entries, e.2.name = e.1

/-! ### In-place resizing of pods -/

/-- `IPPRGroupSpec`, with the limits. -/
structure IPPRGroupSpec where
  maxCpu : ℚ
  maxMemory : ℤ
deriving DecidableEq, Repr

/-- `IPPRStatus`. -/
structure IPPRStatus where
  cloudInstanceId : String
  spec : IPPRGroupSpec
  currentCpu : ℚ
  currentMemory : ℤ
  desiredCpu : ℚ
  desiredMemory : ℤ
  resizingAt : Option ℤ
  k8sResizeStatus : Option String
  k8sResizeMessage : Option String
  suggestedMaxCpu : Option ℚ
  suggestedMaxMemory : Option ℤ
  lastFailedAt : Option ℤ
  rayletId : Option String
deriving DecidableEq, Repr

namespace IPPRStatus

/-- `IPPRStatus.queue_resize_request`. -/
def queueResizeRequest (s : IPPRStatus) (desiredCpu : ℚ) (desiredMemory : ℤ) : IPPRStatus :=
  if desiredCpu ≠ s.desiredCpu ∨ desiredMemory ≠ s.desiredMemory then
    { s with
      desiredCpu := desiredCpu
      desiredMemory := desiredMemory
      resizingAt := none
      k8sResizeStatus := some "new"
      k8sResizeMessage := none }
  else s

/-- `IPPRStatus.has_resize_request_to_send`. -/
def hasResizeRequestToSend (s : IPPRStatus) : Bool := s.rayletId ≠ none ∧ s.k8sResizeStatus = some "new"

/-- `IPPRStatus.is_in_progress`. -/
def isInProgress (s : IPPRStatus) : Bool := s.resizingAt ≠ none ∨ s.hasResizeRequestToSend

/-- `IPPRStatus.max_cpu`. -/
def maxCpu (s : IPPRStatus) : ℚ := s.suggestedMaxCpu.getD s.spec.maxCpu

/-- `IPPRStatus.max_memory`. -/
def maxMemory (s : IPPRStatus) : ℤ := s.suggestedMaxMemory.getD s.spec.maxMemory

/-- `IPPRStatus.can_resize_up`. -/
def canResizeUp (s : IPPRStatus) : Bool :=
  s.lastFailedAt = none ∧ s.k8sResizeStatus = none ∧ s.resizingAt = none ∧
    (s.currentCpu < s.maxCpu ∨ s.currentMemory < s.maxMemory)

end IPPRStatus

/-! ### Nodes -/

/-- `TerminationRequest.Cause`. -/
inductive TerminationCause where
  | unknown
  | idle
  | maxNumNodePerType
  | maxNumNodes
  | outdated
deriving DecidableEq, Repr

/-- `TerminationRequest`, without its id and details. -/
structure TerminationRequest where
  rayNodeId : String
  instanceId : String
  cause : TerminationCause
  instanceType : String
  idleDurationMs : Option ℤ
  maxNumNodesPerType : Option ℕ
  maxNumNodes : Option ℕ
  instanceStatus : InstanceStatus
deriving DecidableEq, Repr

/-- `SchedulingNodeStatus`. -/
inductive SchedulingNodeStatus where
  | toLaunch
  | schedulable
  | toTerminate
deriving DecidableEq, Repr

/-- `ResourceRequestSource`. -/
inductive ResourceRequestSource where
  | pendingDemand
  | clusterResourceConstraint
deriving DecidableEq, Repr

/-- One value for each source of requests. -/
structure BySource (V : Type) where
  pendingDemand : V
  clusterResourceConstraint : V
deriving DecidableEq

namespace BySource

variable {V : Type}

/-- The value of a source. -/
def get (b : BySource V) : ResourceRequestSource → V
  | .pendingDemand => b.pendingDemand
  | .clusterResourceConstraint => b.clusterResourceConstraint

/-- Another value for a source. -/
def set (b : BySource V) (v : V) : ResourceRequestSource → BySource V
  | .pendingDemand => { b with pendingDemand := v }
  | .clusterResourceConstraint => { b with clusterResourceConstraint := v }

/-- A function of each value. -/
def map (f : V → V) (b : BySource V) : BySource V := ⟨f b.pendingDemand, f b.clusterResourceConstraint⟩

@[simp] theorem get_set_self (b : BySource V) (v : V) (s : ResourceRequestSource) :
    (b.set v s).get s = v := by
  cases s <;> rfl

end BySource

/-- `SchedulingNode`. -/
structure SchedulingNode where
  nodeType : String
  status : SchedulingNodeStatus
  schedRequests : BySource (List ResourceRequest)
  availableResourcesForSched : BySource (Dict String ℚ)
  totalResources : Dict String ℚ
  ipprStatus : Option IPPRStatus
  labels : Dict String String
  terminationRequest : Option TerminationRequest
  imInstanceId : Option String
  imInstanceStatus : Option InstanceStatus
  rayNodeId : String
  idleDurationMs : ℤ
  launchConfigHash : String
  nodeKind : NodeKind
  priority : ℤ
deriving DecidableEq

namespace SchedulingNode

/-- `SchedulingNode.from_node_config`. -/
def fromNodeConfig (nodeConfig : NodeTypeConfig) (status : SchedulingNodeStatus) (nodeKind : NodeKind)
    (imInstanceId : Option String) (imInstanceStatus : Option InstanceStatus) : SchedulingNode where
  nodeType := nodeConfig.name
  status := status
  schedRequests := ⟨[], []⟩
  availableResourcesForSched := ⟨nodeConfig.resources, nodeConfig.resources⟩
  totalResources := nodeConfig.resources
  ipprStatus := none
  labels := nodeConfig.labels
  terminationRequest := none
  imInstanceId := imInstanceId
  imInstanceStatus := imInstanceStatus
  rayNodeId := ""
  idleDurationMs := 0
  launchConfigHash := ""
  nodeKind := nodeKind
  priority := nodeConfig.priority

/-- The node of an instance that runs ray. -/
def fromRayNode (inst : Instance) (rayNode : NodeState) (nodeConfig : Option NodeTypeConfig) :
    SchedulingNode where
  nodeType := inst.instanceType
  status := .schedulable
  schedRequests := ⟨[], []⟩
  availableResourcesForSched := ⟨rayNode.availableResources, rayNode.totalResources⟩
  totalResources := rayNode.totalResources
  ipprStatus := none
  labels := rayNode.labels.setAll rayNode.dynamicLabels.entries
  terminationRequest := none
  imInstanceId := some inst.instanceId
  imInstanceStatus := some inst.status
  rayNodeId := inst.nodeId
  idleDurationMs := rayNode.idleDurationMs
  launchConfigHash := inst.launchConfigHash
  nodeKind := inst.nodeKind
  priority := (nodeConfig.map (·.priority)).getD 0

/-- The node of a pending instance whose node type is no longer configured. -/
def fromUnconfigured (inst : Instance) : SchedulingNode where
  nodeType := inst.instanceType
  status := .toTerminate
  schedRequests := ⟨[], []⟩
  availableResourcesForSched := ⟨Dict.empty, Dict.empty⟩
  totalResources := Dict.empty
  ipprStatus := none
  labels := Dict.empty
  terminationRequest :=
    some ⟨"", inst.instanceId, .outdated, inst.instanceType, none, none, none, inst.status⟩
  imInstanceId := some inst.instanceId
  imInstanceStatus := some inst.status
  rayNodeId := ""
  idleDurationMs := 0
  launchConfigHash := ""
  nodeKind := .worker
  priority := 0

/-- `SchedulingNode.is_schedulable`. -/
def isSchedulable (inst : AutoscalerInstance) : Bool :=
  match inst.imInstance with
  | none => false
  | some imInstance => isRayRunningReachable imInstance.status

/-- `SchedulingNode.new`. -/
def new (inst : AutoscalerInstance) (nodeTypeConfigs : Dict String NodeTypeConfig)
    (disableLaunchConfigCheck : Bool) :
    Option SchedulingNode :=
  if isSchedulable inst = false then none
  else
    match inst.imInstance with
    | none => none
    | some imInstance =>
      let nodeConfig := nodeTypeConfigs.get? imInstance.instanceType
      if imInstance.status = .rayRunning then
        match inst.rayNode with
        | none => none
        | some rayNode => some (fromRayNode imInstance rayNode nodeConfig)
      else
        match nodeConfig with
        | none => if disableLaunchConfigCheck then none else some (fromUnconfigured imInstance)
        | some nodeConfig =>
          some (fromNodeConfig nodeConfig .schedulable imInstance.nodeKind (some imInstance.instanceId)
            (some imInstance.status))

/-- The termination request for a node. -/
def terminationRequestFor (node : SchedulingNode) (cause : TerminationCause) (idleDurationMs : Option ℤ)
    (maxNumNodesPerType maxNumNodes : Option ℕ) : TerminationRequest where
  rayNodeId := node.rayNodeId
  instanceId := node.imInstanceId.getD ""
  cause := cause
  instanceType := node.nodeType
  idleDurationMs := idleDurationMs
  maxNumNodesPerType := maxNumNodesPerType
  maxNumNodes := maxNumNodes
  instanceStatus := node.imInstanceStatus.getD .unknown

/-- The node is to be terminated. -/
def terminate (node : SchedulingNode) (request : TerminationRequest) : SchedulingNode :=
  { node with status := .toTerminate, terminationRequest := some request }

/-- `SchedulingNode.update_total_resources`, for one resource. -/
def updateTotalResource (node : SchedulingNode) (e : String × ℚ) : SchedulingNode :=
  let delta := e.2 - (node.totalResources.get? e.1).getD 0
  { node with
    totalResources := node.totalResources.set e.1 (max 0 e.2)
    availableResourcesForSched := node.availableResourcesForSched.map (fun available =>
      available.set e.1 (max 0 ((available.get? e.1).getD 0 + delta))) }

/-- `SchedulingNode.update_total_resources`. -/
def updateTotalResources (node : SchedulingNode) (newTotalResources : List (String × ℚ)) :
    SchedulingNode :=
  newTotalResources.foldl updateTotalResource node

end SchedulingNode

/-! ### Scheduling requests on a node -/

/-- `IMPLICIT_RESOURCE_PREFIX`. -/
def implicitResourcePrefix : String := "node:__internal_implicit_resource_"

/-- The resource is there without being listed. -/
def isImplicitResource (name : String) : Bool := implicitResourcePrefix.toList.isPrefixOf name.toList

/-- `_fits`. -/
def fits (node resources : Dict String ℚ) : Bool :=
  resources.entries.all (fun e => e.2 ≤ (node.get? e.1).getD (if isImplicitResource e.1 then 1 else 0))

/-- `_inplace_subtract`, for one resource. -/
def subtractOne (node : Dict String ℚ) (e : String × ℚ) : Except AutoscalerError (Dict String ℚ) :=
  if e.2 = 0 then .ok node
  else do
    assertThat (e.1 ∈ node.keys ∨ isImplicitResource e.1) e.1
    let left := (node.get? e.1).getD 1 - e.2
    assertThat (0 ≤ left) e.1
    return node.set e.1 left

/-- `_inplace_subtract`. -/
def inplaceSubtract (node resources : Dict String ℚ) : Except AutoscalerError (Dict String ℚ) :=
  resources.entries.foldlM subtractOne node

/-- The node's label satisfies the constraint. -/
def LabelSelectorConstraint.holds (labels : Dict String String)
    (constraint : LabelSelectorConstraint) : Bool :=
  match constraint.operator with
  | .labelIn => labels.get? constraint.labelKey ∈ constraint.labelValues.map some
  | .labelNotIn => labels.get? constraint.labelKey ∉ constraint.labelValues.map some
  | .unspecified => false

namespace SchedulingNode

/-- `SchedulingNode._satisfies_label_constraints`. -/
def satisfiesLabelConstraints (node : SchedulingNode) (schedRequests : List ResourceRequest) : ℕ :=
  (schedRequests.findSome? (fun req =>
    (req.labelSelectors.findIdx?
      (fun selector => selector.labelConstraints.all (·.holds node.labels))).map (fun i =>
      req.labelSelectors.length - i))).getD 0

/-- The scores are compared lexicographically. -/
abbrev UtilizationScore : Type := ℕ ×ₗ Bool ×ₗ ℕ ×ₗ ℚ ×ₗ ℚ

/-- The utilization of a resource with the given total. -/
def utilization (available : Dict String ℚ) (e : String × ℚ) : ℚ :=
  (e.2 - (available.get? e.1).getD 0) / e.2

/-- `AUTOSCALER_CONSERVE_GPU_NODES`. -/
def autoscalerConserveGpuNodes : Bool := true

/-- `SchedulingNode._compute_score`. -/
def computeScore (node : SchedulingNode) (source : ResourceRequestSource) :
    Except AutoscalerError UtilizationScore := do
  let schedRequests := node.schedRequests.get source
  let available := node.availableResourcesForSched.get source
  let schedResourceTypes := (schedRequests.flatMap (fun req =>
    (req.resourcesBundle.entries.filter (fun e => 0 < e.2)).map Prod.fst)).dedup
  let numMatchingResourceTypes := (schedResourceTypes.filter (· ∈ node.totalResources.keys)).length
  let utilByResources ← (node.totalResources.entries.filter
    (fun e => e.2 ≠ 0 ∧ e.1 ∈ available.keys)).mapM (fun e => do
    assertThat (0 ≤ utilization available e ∧ utilization available e ≤ 1) "Invalid utilization"
    return e.2 * utilization available e ^ 3)
  let isGpuNode := decide (0 < (node.totalResources.get? "GPU").getD 0)
  let anyGpuRequests := schedRequests.any (fun r => "GPU" ∈ r.resourcesBundle.keys)
  let gpuOk := !(autoscalerConserveGpuNodes && isGpuNode && !anyGpuRequests)
  return toLex (node.satisfiesLabelConstraints schedRequests,
    toLex (gpuOk, toLex (numMatchingResourceTypes,
    toLex (utilByResources.min?.getD 0,
      if utilByResources = [] then 0 else utilByResources.sum / utilByResources.length))))

/-- The node has a label that the request must not meet. -/
def hasLabel (node : SchedulingNode) (label : NodeLabel) : Bool :=
  node.labels.get? label.labelName = some label.labelValue

/-- `SchedulingNode._add_label`. -/
def addLabel (node : SchedulingNode) (label : NodeLabel) : Except AutoscalerError SchedulingNode := do
  assertThat (node.labels.get? label.labelName = none ∨ node.labels.get? label.labelName =
    some label.labelValue)
    ("Label " ++ label.labelName ++ " already exists with value " ++
      (node.labels.get? label.labelName).getD "" ++
      ", cannot set to " ++ label.labelValue)
  return { node with labels := node.labels.set label.labelName label.labelValue }

/-- `SchedulingNode._try_schedule_one`: the node with the request, if it can be scheduled. -/
def tryScheduleOne (node : SchedulingNode) (request : ResourceRequest)
    (source : ResourceRequestSource) :
    Except AutoscalerError (Option SchedulingNode) :=
  if request.labelSelectors ≠ [] ∧ node.satisfiesLabelConstraints [request] = 0 then .ok none
  else if request.antiAffinities.any node.hasLabel then .ok none
  else if fits (node.availableResourcesForSched.get source) request.resourcesBundle =
    false then .ok none
  else do
    let available ← inplaceSubtract (node.availableResourcesForSched.get source) request.resourcesBundle
    let node := { node with
      availableResourcesForSched := node.availableResourcesForSched.set available source
      schedRequests := node.schedRequests.set (node.schedRequests.get source ++ [request]) source }
    let node ← request.antiAffinities.foldlM addLabel node
    return some node

end SchedulingNode

/-- The two requests are serialized alike. -/
def ResourceRequest.sameShape (r r' : ResourceRequest) : Bool :=
  r.resourcesBundle.entries.isPerm r'.resourcesBundle.entries && r.placementConstraints =
    r'.placementConstraints &&
    r.labelSelectors = r'.labelSelectors

/-- How far a node has come with the requests; `shapes` is the `UnschedulableRequestCache`. -/
structure Attempt where
  node : SchedulingNode
  unschedulableRequests : List ResourceRequest
  shapes : List ResourceRequest

/-- The loop of `SchedulingNode.try_schedule`, for one request. -/
def Attempt.step (source : ResourceRequestSource) (a : Attempt) (r : ResourceRequest) :
    Except AutoscalerError Attempt :=
  if a.shapes.any r.sameShape then .ok {
    a with unschedulableRequests := a.unschedulableRequests ++ [r] }
  else do
    match ← a.node.tryScheduleOne r source with
    | none => return ⟨a.node, a.unschedulableRequests ++ [r], r :: a.shapes⟩
    | some node =>
      return ⟨node, a.unschedulableRequests, if a.node.labels.size < node.labels.size then []
        else a.shapes⟩

/-- `SchedulingNode.try_schedule`: the node, the requests that remain, and the score. -/
def SchedulingNode.trySchedule (node : SchedulingNode) (requests : List ResourceRequest)
    (source : ResourceRequestSource) :
    Except AutoscalerError
      (SchedulingNode × List ResourceRequest × SchedulingNode.UtilizationScore) := do
  let a ← requests.foldlM (Attempt.step source) ⟨node, [], []⟩
  let score ← a.node.computeScore source
  return (a.node, a.unschedulableRequests, score)

end RayTfm.Autoscaler
