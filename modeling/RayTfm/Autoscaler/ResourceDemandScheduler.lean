import RayTfm.Autoscaler.SchedulingNodes
import RayTfm.Lib.Grouping

/-! # The resource demand scheduler

The scheduler goes over one list of nodes in passes: outdated nodes, the minimum and the maximum of
each node type, the maximum of the cluster, and three kinds of demand; the last pass, over idle
nodes, is left out.  A node that is to be terminated stays in the list, and the nodes that one type
needs for its minimum are one object (`selectNodesToTerminate`). -/

namespace RayTfm.Autoscaler

/-- `SchedulingRequest`. -/
structure SchedulingRequest where
  disableLaunchConfigCheck : Bool
  nodeTypeConfigs : NodeTypeConfigs
  maxNumNodes : Option ℕ
  idleTimeoutS : Option ℚ
  resourceRequests : List ResourceRequestByCount
  gangResourceRequests : List GangResourceRequest
  clusterResourceConstraints : List ClusterResourceConstraint
  currentInstances : List AutoscalerInstance
  cloudResourceAvailabilities : Dict String ℚ
  recoverableResourceAvailabilities : Dict String ℚ
  ipprSpecs : Option (Dict String IPPRGroupSpec)
  ipprStatuses : Dict String IPPRStatus

/-- `ScheduleContext`; the node types that are available are computed from the nodes. -/
structure ScheduleContext where
  nodeTypeConfigs : NodeTypeConfigs
  disableLaunchConfigCheck : Bool
  maxNumNodes : Option ℕ
  idleTimeoutS : Option ℚ
  nodes : List SchedulingNode
  ipprSpecs : Option (Dict String IPPRGroupSpec)
  cloudResourceAvailabilities : Dict String ℚ
  recoverableResourceAvailabilities : Dict String ℚ

/-! ### The context -/

/-- The nodes of the instances, each with the cloud instance whose status it shares, and the
statuses. -/
structure Attaching where
  nodes : List (SchedulingNode × Option String)
  ipprStatuses : Dict String IPPRStatus

/-- The cloud instance whose resizing status the node of an instance gets. -/
def ipprInstance (req : SchedulingRequest) (inst : AutoscalerInstance) (node : SchedulingNode) :
    Option String :=
  match inst.cloudInstanceId, req.ipprSpecs with
  | some cloudInstanceId, some groups =>
    if cloudInstanceId ∈ req.ipprStatuses.keys ∧
      node.nodeType ∈ groups.keys then some cloudInstanceId else none
  | _, _ => none

/-- The loop of `from_schedule_request`, for one instance. -/
def Attaching.add (req : SchedulingRequest) (w : Attaching) (inst : AutoscalerInstance) : Attaching :=
  match SchedulingNode.new inst req.nodeTypeConfigs.configs req.disableLaunchConfigCheck with
  | none => w
  | some node =>
    match ipprInstance req inst node with
    | none => { w with nodes := w.nodes ++ [(node, none)] }
    | some cloudInstanceId =>
      { nodes := w.nodes ++ [(node, some cloudInstanceId)]
        ipprStatuses :=
          match w.ipprStatuses.get? cloudInstanceId with
          | none => w.ipprStatuses
          | some status =>
            if node.rayNodeId = "" then w.ipprStatuses
            else w.ipprStatuses.set cloudInstanceId { status with rayletId := some node.rayNodeId } }

/-- The nodes of a request. -/
def requestNodes (req : SchedulingRequest) : List SchedulingNode :=
  let w := req.currentInstances.foldl (Attaching.add req) ⟨[], req.ipprStatuses⟩
  w.nodes.map (fun e => { e.1 with ipprStatus := e.2.bind w.ipprStatuses.get? })

namespace ScheduleContext

/-- `ScheduleContext.from_schedule_request`. -/
def fromScheduleRequest (req : SchedulingRequest) : ScheduleContext where
  nodeTypeConfigs := req.nodeTypeConfigs
  disableLaunchConfigCheck := req.disableLaunchConfigCheck
  maxNumNodes := req.maxNumNodes
  idleTimeoutS := req.idleTimeoutS
  nodes := requestNodes req
  ipprSpecs := req.ipprSpecs
  cloudResourceAvailabilities := req.cloudResourceAvailabilities
  recoverableResourceAvailabilities := req.recoverableResourceAvailabilities

/-- `ScheduleContext.update`. -/
def update (ctx : ScheduleContext) (newNodes : List SchedulingNode) : ScheduleContext :=
  { ctx with nodes := newNodes }

/-- `ScheduleContext._compute_available_node_types`. -/
def nodeTypeAvailable (ctx : ScheduleContext) : Dict String ℤ :=
  Dict.ofList (ctx.nodeTypeConfigs.configs.entries.map (fun e =>
    (e.1, (e.2.maxWorkerNodes : ℤ) - (ctx.nodes.filter (fun node => node.nodeType = e.1)).length)))

/-- `ScheduleContext.get_cluster_shape`, for one node type. -/
def clusterShape (ctx : ScheduleContext) (nodeType : String) : ℕ :=
  (ctx.nodes.filter (fun node => node.status ≠ .toTerminate ∧ node.nodeType = nodeType)).length

end ScheduleContext

/-! ### Outdated nodes and the minimum of each node type -/

/-- The config of the node's type has changed. -/
def isOutdated (configs : Dict String NodeTypeConfig) (node : SchedulingNode) : Bool :=
  match configs.get? node.nodeType with
  | none => true
  | some config => config.launchConfigHash ≠ "" ∧ config.launchConfigHash ≠ node.launchConfigHash

/-- The loop of `_terminate_outdated_nodes`, for one node. -/
def terminateIfOutdated (configs : Dict String NodeTypeConfig) (node : SchedulingNode) :
    SchedulingNode :=
  if node.status ≠ .schedulable then node
  else if node.nodeKind = .head then node
  else if isOutdated configs node then node.terminate
    (node.terminationRequestFor .outdated none none none)
  else node

/-- `_terminate_outdated_nodes`. -/
def terminateOutdatedNodes (ctx : ScheduleContext) : ScheduleContext :=
  if ctx.disableLaunchConfigCheck then ctx
  else ctx.update (ctx.nodes.map (terminateIfOutdated ctx.nodeTypeConfigs.configs))

/-- The nodes that a type needs for its minimum: one object, as often as it is needed. -/
def missingNodes (ctx : ScheduleContext) (e : String × NodeTypeConfig) : List SchedulingNode :=
  List.replicate (e.2.minWorkerNodes - ctx.clusterShape e.1)
    (.fromNodeConfig e.2 .toLaunch .worker none none)

/-- `_enforce_min_workers_per_type`. -/
def enforceMinWorkersPerType (ctx : ScheduleContext) : ScheduleContext :=
  ctx.update (ctx.nodeTypeConfigs.configs.entries.flatMap (missingNodes ctx) ++ ctx.nodes)

/-! ### The maximum counts -/

/-- The average utilization of the resources of a node. -/
def averageUtilization (node : SchedulingNode) : ℚ :=
  let utils := (node.totalResources.entries.filter (fun e => 0 < e.2)).map
    (SchedulingNode.utilization (node.availableResourcesForSched.get .pendingDemand))
  if utils = [] then 0 else utils.sum / utils.length

/-- `_sort_nodes_for_termination`. -/
def sortNodesForTermination (node : SchedulingNode) : Bool ×ₗ ℤ ×ₗ ℚ :=
  toLex (decide (node.rayNodeId ≠ ""), toLex (-node.idleDurationMs, averageUtilization node))

/-- The termination of a node that was selected for one of the maximum counts. -/
def terminateFor (cause : TerminationCause) (maxNumNodesPerType maxNumNodes : Option ℕ)
    (node : SchedulingNode) :
    SchedulingNode :=
  node.terminate (node.terminationRequestFor cause none maxNumNodesPerType maxNumNodes)

/-- The two entries of the list are one object: nodes that were added for the minimum of their
type. -/
def sameObject (node other : SchedulingNode) : Bool :=
  node.status = .toLaunch ∧ other.status = .toLaunch ∧ node.nodeType = other.nodeType

/-- `_select_nodes_to_terminate`: the terminated and the remaining nodes.  What is one object with a
terminated node is terminated with it. -/
def selectNodesToTerminate (nodes : List SchedulingNode) (numToTerminate : ℕ) (cause : TerminationCause)
    (maxNumNodesPerType maxNumNodes : Option ℕ) : List SchedulingNode × List SchedulingNode :=
  let nodes := sortBy sortNodesForTermination nodes
  let headNode := nodes.find? (fun node => node.nodeKind = .head)
  let nodes := nodes.eraseP (fun node => node.nodeKind = .head)
  let terminatedNodes := nodes.take numToTerminate
  let remainedNodes := nodes.drop numToTerminate ++ headNode.toList
  (terminatedNodes.map (terminateFor cause maxNumNodesPerType maxNumNodes),
    remainedNodes.map (fun node =>
      if terminatedNodes.any (sameObject node) then terminateFor cause maxNumNodesPerType
        maxNumNodes node else node))

/-- `_enforce_max_workers_per_type`, for the nodes of one type. -/
def enforceMaxOfType (configs : Dict String NodeTypeConfig) (nodes : List SchedulingNode)
    (nodeType : String) :
    Except AutoscalerError (List SchedulingNode × List SchedulingNode) :=
  match configs.get? nodeType with
  | none => .error .keyError
  | some config =>
    if nodes.length ≤ config.maxWorkerNodes then .ok ([], nodes)
    else .ok (selectNodesToTerminate nodes (nodes.length - config.maxWorkerNodes) .maxNumNodePerType
      (some config.maxWorkerNodes) none)

/-- `_enforce_max_workers_per_type`. -/
def enforceMaxWorkersPerType (ctx : ScheduleContext) : Except AutoscalerError ScheduleContext := do
  let terminatingNodes := ctx.nodes.filter (fun node => node.status = .toTerminate)
  let nonTerminatingNodes := ctx.nodes.filter (fun node => node.status ≠ .toTerminate)
  let selected ← (distinct (nonTerminatingNodes.map (·.nodeType))).mapM (fun nodeType =>
    enforceMaxOfType ctx.nodeTypeConfigs.configs
      (nonTerminatingNodes.filter (fun node => node.nodeType = nodeType))
      nodeType)
  let newNodes := (terminatingNodes ++ selected.flatMap Prod.fst) ++ selected.flatMap Prod.snd
  assertThat (ctx.nodes.length = newNodes.length)
    "The number of nodes should be the same after enforcing max nodes per type."
  return ctx.update newNodes

/-- The number of nodes beyond the maximum of the cluster; a maximum of zero is none. -/
def numBeyondMax (maxNumNodes : Option ℕ) (count : ℕ) : ℕ :=
  match maxNumNodes with
  | none => 0
  | some 0 => 0
  | some numMaxNodes => count - numMaxNodes

/-- `_enforce_max_workers_global`. -/
def enforceMaxWorkersGlobal (ctx : ScheduleContext) : Except AutoscalerError ScheduleContext :=
  let terminatingNodes := ctx.nodes.filter (fun node => node.status = .toTerminate)
  let nonTerminatingNodes := ctx.nodes.filter (fun node => node.status ≠ .toTerminate)
  let numToTerminate := numBeyondMax ctx.maxNumNodes nonTerminatingNodes.length
  if numToTerminate = 0 then .ok ctx
  else do
    let selected := selectNodesToTerminate nonTerminatingNodes numToTerminate .maxNumNodes none
      ctx.maxNumNodes
    assertThat (selected.1.length = numToTerminate) "Terminating nodes, failed to satisfy max_num_nodes"
    let newNodes := (terminatingNodes ++ selected.1) ++ selected.2
    assertThat (ctx.nodes.length = newNodes.length)
      "The number of nodes should be the same after enforcing max nodes."
    return ctx.update newNodes

/-! ### The best node for some requests -/

/-- The two nodes have the same state for `NodeStateCache`. -/
def sameState (source : ResourceRequestSource) (node other : SchedulingNode) : Bool :=
  node.nodeType = other.nodeType && node.nodeKind = other.nodeKind &&
    node.totalResources.entries.isPerm other.totalResources.entries &&
    (node.availableResourcesForSched.get source).entries.isPerm
      (other.availableResourcesForSched.get source).entries &&
    node.labels.entries.isPerm other.labels.entries

/-- `ScheduleResult`. -/
structure ScheduleResult where
  node : SchedulingNode
  infeasibleRequests : List ResourceRequest
  idx : ℕ
  score : SchedulingNode.UtilizationScore

/-- The states that were seen, and the results. -/
structure BestSearch where
  seenStates : List SchedulingNode
  results : List ScheduleResult

/-- The loop of `_sched_best_node`, for one node and its index. -/
def BestSearch.step (requests : List ResourceRequest) (source : ResourceRequestSource) (w : BestSearch)
    (e : SchedulingNode × ℕ) : Except AutoscalerError BestSearch :=
  if e.1.imInstanceStatus ≠ some .rayRunning ∧ w.seenStates.any (sameState source e.1) then .ok w
  else do
    let seenStates := if e.1.imInstanceStatus = some .rayRunning then w.seenStates
      else e.1 :: w.seenStates
    let (node, remaining, score) ← e.1.trySchedule requests source
    if remaining.length = requests.length then return ⟨seenStates, w.results⟩
    else return ⟨seenStates, w.results ++ [⟨node, remaining, e.2, score⟩]⟩

/-- The key by which the results are sorted. -/
def rankResult (ctx : ScheduleContext) (r : ScheduleResult) :
    SchedulingNode.UtilizationScore ×ₗ ℚ ×ₗ ℤ ×ₗ ℚ :=
  toLex (r.score, toLex ((ctx.recoverableResourceAvailabilities.get? r.node.nodeType).getD 1,
    toLex (r.node.priority, (ctx.cloudResourceAvailabilities.get? r.node.nodeType).getD 1)))

/-- `_sched_best_node`: the best node with what it leaves of the requests and of the nodes, if there
is one. -/
def schedBestNode (ctx : ScheduleContext) (requests : List ResourceRequest)
    (nodes : List SchedulingNode)
    (source : ResourceRequestSource) :
    Except AutoscalerError (Option (SchedulingNode × List ResourceRequest × List SchedulingNode)) := do
  let w ← nodes.zipIdx.foldlM (BestSearch.step requests source) ⟨[], []⟩
  match sortBy (fun r => OrderDual.toDual (rankResult ctx r)) w.results with
  | [] => return none
  | best :: _ => return some (best.node, best.infeasibleRequests, nodes.eraseIdx best.idx)

/-! ### Scheduling requests -/

/-- The key by which the requests are sorted. -/
def sortResourceRequest (req : ResourceRequest) : ℕ ×ₗ ℕ ×ₗ ℕ ×ₗ ℚ ×ₗ List (String ×ₗ ℚ) :=
  toLex (req.placementConstraints.length,
    toLex (((req.labelSelectors.head?.map (·.labelConstraints.length)).getD 0),
      toLex (req.resourcesBundle.size, toLex (req.resourcesBundle.values.sum,
        sortBy id (req.resourcesBundle.entries.map toLex)))))

/-- How far the requests have come: the nodes that are done, the requests and the candidates that
remain. -/
structure Trying where
  targetNodes : List SchedulingNode
  requests : List ResourceRequest
  nodes : List SchedulingNode

/-- The loops of `_try_schedule` over nodes that exist: the best node is taken until no node is
left.  Each round takes one node. -/
def schedOnNodes (ctx : ScheduleContext) (source : ResourceRequestSource)
    (onBest : SchedulingNode → SchedulingNode) :
    ℕ → Trying → Except AutoscalerError Trying
  | 0, w => .ok w
  | fuel + 1, w =>
    if w.requests = [] ∨ w.nodes = [] then .ok w
    else do
      match ← schedBestNode ctx w.requests w.nodes source with
      | none => return w
      | some (best, requests, nodes) =>
        schedOnNodes ctx source onBest fuel ⟨w.targetNodes ++ [onBest best], requests, nodes⟩

/-- While a resize is under way the node counts with what is desired. -/
def useDesired (node : SchedulingNode) : SchedulingNode :=
  match node.ipprStatus with
  | none => node
  | some status =>
    if status.isInProgress then
      node.updateTotalResources [("CPU", status.desiredCpu), ("memory", status.desiredMemory)]
    else node

/-- The node may be resized. -/
def canResizeUp (node : SchedulingNode) : Bool := (node.ipprStatus.map (·.canResizeUp)).getD false

/-- A candidate for resizing counts with the most that it can get. -/
def useMaximum (node : SchedulingNode) : SchedulingNode :=
  match node.ipprStatus with
  | none => node
  | some status => node.updateTotalResources [("CPU", status.maxCpu), ("memory", status.maxMemory)]

/-- The node is to be resized. -/
def queueResize (node : SchedulingNode) : SchedulingNode :=
  { node with ipprStatus := node.ipprStatus.map (fun status => status.queueResizeRequest status.maxCpu status.maxMemory) }

/-- The cloud instance that a candidate for resizing is kept under. -/
def resizeKey (node : SchedulingNode) : String := (node.ipprStatus.map (·.cloudInstanceId)).getD ""

/-- `_to_launch_node_with_ippr_caps`. -/
def toLaunchNodeWithIpprCaps (ctx : ScheduleContext) (nodeType : String) :
    Except AutoscalerError SchedulingNode :=
  match ctx.nodeTypeConfigs.configs.get? nodeType with
  | none => .error .keyError
  | some config =>
    let node := SchedulingNode.fromNodeConfig config .toLaunch .worker none none
    match ctx.ipprSpecs.bind (·.get? nodeType) with
    | none => .ok node
    | some group =>
      .ok (node.updateTotalResources
        [("CPU", max group.maxCpu ((node.totalResources.get? "CPU").getD 0)),
          ("memory", max (group.maxMemory : ℚ) ((node.totalResources.get? "memory").getD 0))])

/-- How far the launching of new nodes has come. -/
structure Launching where
  targetNodes : List SchedulingNode
  requests : List ResourceRequest
  nodePools : List SchedulingNode
  nodeTypeAvailable : Dict String ℤ

/-- The cluster has as many nodes as it may have. -/
def maxReached (ctx : ScheduleContext) (targetNodes : List SchedulingNode) : Bool :=
  match ctx.maxNumNodes with
  | none => false
  | some maxNumNodes => maxNumNodes ≤ targetNodes.length

/-- The node that joins the pool after one of its type was taken, if there is still one
available. -/
def nextPoolNodes (ctx : ScheduleContext) (nodeType : String) (available : ℤ) :
    Except AutoscalerError (List SchedulingNode) :=
  if 0 < available then do
    let node ← toLaunchNodeWithIpprCaps ctx nodeType
    return [node]
  else return []

/-- The loop of `_try_schedule` over nodes that can be launched.  Each round places a request. -/
def schedOnNewNodes (ctx : ScheduleContext) (source : ResourceRequestSource) :
    ℕ → Launching → Except AutoscalerError Launching
  | 0, w => .ok w
  | fuel + 1, w =>
    if w.requests = [] ∨ w.nodePools = [] ∨ maxReached ctx w.targetNodes then .ok w
    else do
      match ← schedBestNode ctx w.requests w.nodePools source with
      | none => return w
      | some (best, requests, nodePools) =>
        let available := (w.nodeTypeAvailable.get? best.nodeType).getD 0 - 1
        let newNodes ← nextPoolNodes ctx best.nodeType available
        schedOnNewNodes ctx source fuel
          ⟨w.targetNodes ++ [best], requests, nodePools ++ newNodes,
            w.nodeTypeAvailable.set best.nodeType available⟩

/-- The candidates for resizing that were not taken, as they were. -/
def notResized (candidates taken : List SchedulingNode) : List SchedulingNode :=
  ((Dict.ofList (candidates.map (fun node => (resizeKey node, node)))).eraseAll
    (taken.map resizeKey)).values

/-- `_try_schedule`: the nodes with the requests that they got, and the infeasible requests. -/
def trySchedule (ctx : ScheduleContext) (requestsToSched : List ResourceRequest)
    (source : ResourceRequestSource) :
    Except AutoscalerError (List SchedulingNode × List ResourceRequest) := do
  let requests := sortBy (fun req => OrderDual.toDual (sortResourceRequest req)) requestsToSched
  let existingNodes := ctx.nodes.map useDesired
  let w ← schedOnNodes ctx source id existingNodes.length ⟨[], requests, existingNodes⟩
  let existingNodes := w.targetNodes ++ w.nodes
  let candidates := existingNodes.filter canResizeUp
  let resized ← schedOnNodes ctx source queueResize candidates.length
    ⟨[], w.requests, candidates.map useMaximum⟩
  let targetNodes := existingNodes.filter (fun node => !canResizeUp node) ++ resized.targetNodes ++
    notResized candidates resized.targetNodes
  let nodePools ← ((ctx.nodeTypeAvailable.entries.filter (fun e => 0 < e.2)).map Prod.fst).mapM
    (toLaunchNodeWithIpprCaps ctx)
  let launched ← schedOnNewNodes ctx source resized.requests.length
    ⟨targetNodes, resized.requests, nodePools, ctx.nodeTypeAvailable⟩
  return (launched.targetNodes, launched.requests)

/-! ### Demands -/

/-- `_enforce_resource_constraints`. -/
def enforceResourceConstraints (ctx : ScheduleContext) (constraints : List ClusterResourceConstraint) :
    Except AutoscalerError (ScheduleContext × List ClusterResourceConstraint) := do
  assertThat (constraints.length ≤ 1) "Max 1 cluster resource constraint is supported."
  match constraints with
  | [] => return (ctx, [])
  | constraint :: _ =>
    let (nodes, infeasible) ← trySchedule ctx (ungroupByCount constraint.resourceRequests)
      .clusterResourceConstraint
    if infeasible ≠ [] then return (ctx, [constraint])
    else return (ctx.update nodes, [])

/-- The key by which the gang requests are sorted. -/
def sortGangResourceRequests (req : GangResourceRequest) : ℕ ×ₗ ℕ :=
  toLex ((req.requests.map (fun r => r.placementConstraints.length)).sum, req.requests.length)

/-- The requests of a gang request that are to be placed. -/
def gangRequests (gangReq : GangResourceRequest) : List ResourceRequest :=
  match gangReq.bundleSelectors with
  | [] => gangReq.requests
  | resourceRequests :: _ => resourceRequests

/-- The loop of `_sched_gang_resource_requests`, for one gang request. -/
def schedGang (w : ScheduleContext × List GangResourceRequest) (gangReq : GangResourceRequest) :
    Except AutoscalerError (ScheduleContext × List GangResourceRequest) := do
  let requests ← combineRequestsWithAffinity (gangRequests gangReq)
  let (nodes, infeasible) ← trySchedule w.1 requests .pendingDemand
  if infeasible ≠ [] then return (w.1, w.2 ++ [gangReq])
  else return (w.1.update nodes, w.2)

/-- `_sched_gang_resource_requests`. -/
def schedGangResourceRequests (ctx : ScheduleContext) (gangRequests : List GangResourceRequest) :
    Except AutoscalerError (ScheduleContext × List GangResourceRequest) :=
  (sortBy (fun req => OrderDual.toDual (sortGangResourceRequests req)) gangRequests).foldlM
    schedGang (ctx, [])

/-- `_sched_resource_requests`. -/
def schedResourceRequests (ctx : ScheduleContext) (requests : List ResourceRequest) :
    Except AutoscalerError (ScheduleContext × List ResourceRequest) := do
  let (nodes, infeasible) ← trySchedule ctx requests .pendingDemand
  return (ctx.update nodes, infeasible)

/-! ### The passes -/

/-- The counts are enforced. -/
def enforceCounts (req : SchedulingRequest) : Except AutoscalerError ScheduleContext := do
  let ctx := terminateOutdatedNodes (.fromScheduleRequest req)
  let ctx ← enforceMaxWorkersPerType (enforceMinWorkersPerType ctx)
  enforceMaxWorkersGlobal ctx

end RayTfm.Autoscaler
