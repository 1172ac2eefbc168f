import RayTfm.Raylet.RequestOrder

/-! # Scheduling the bundles of a placement group

The four policies for the bundles of a placement group.  Packing and spreading subtract each placed
request from the view of the cluster, so that the next one sees what is left, and add everything
back at the end, also when they fail half-way; the strict policies leave the view alone.

A node is `none` where the code has `NodeID::Nil`; a set of nodes is a list in the order in which it
is iterated. -/

namespace RayTfm.Raylet

/-! ### Results and options -/

/-- `SchedulingResultStatusCode`. -/
inductive SchedulingResultStatusCode where
  | failed
  | infeasible
  | success
  | partialSuccess
deriving DecidableEq, Repr

/-- `SchedulingResult`. -/
structure SchedulingResult (N : Type) where
  status : SchedulingResultStatusCode
  selectedNodes : List (Option N)
deriving DecidableEq, Repr

namespace SchedulingResult

/-- `SchedulingResult::Infeasible`. -/
def infeasible {N : Type} : SchedulingResult N := ⟨.infeasible, []⟩

/-- `SchedulingResult::Failed`. -/
def failed {N : Type} : SchedulingResult N := ⟨.failed, []⟩

/-- `SchedulingResult::Success`. -/
def successful {N : Type} (nodes : List (Option N)) : SchedulingResult N := ⟨.success, nodes⟩

end SchedulingResult

/-- The bundle policies of `SchedulingType`. -/
inductive SchedulingType where
  | bundlePack
  | bundleSpread
  | bundleStrictPack
  | bundleStrictSpread
deriving DecidableEq, Repr

/-- `SchedulingOptions`: what bundle policies read.  `bundleLocations` are the nodes in the bundle
locations of the scheduling context, when it has any. -/
structure SchedulingOptions (N : Type) where
  schedulingType : SchedulingType
  bundleStrictPackSoftTargetNodeId : Option N
  bundleLocations : Option (List N)

/-! ### The best node -/

/-- `FixedPoint::Double`, as the exact quotient. -/
def double (quantity : ℤ) : ℚ := quantity / kResourceUnitScaling

/-- `LeastResourceScorer::Calculate`. -/
def calculate (requested available : ℤ) : Except RayError ℚ := do
  rayCheck (0 ≤ available) "Available resource should be nonnegative."
  return if available = 0 then 0 else double (available - requested) / double available

/-- `LeastResourceScorer::Score`. -/
def score (requiredResources : ResourceRequest) (nodeResources : NodeResources) :
    Except RayError ℚ := do
  if !(← nodeResources.isAvailable requiredResources false) then
    return -1
  requiredResources.resources.resourceIds.foldlM (fun nodeScore resourceId => do
    let resourceScore ← calculate (requiredResources.get resourceId)
      (nodeResources.available.get resourceId)
    return nodeScore + resourceScore) 0

section policies
variable {N : Type} [DecidableEq N]

/-- One candidate of the loop of `GetBestNode`. -/
def scoreNode (manager : ClusterResourceManager N) (requiredResources : ResourceRequest)
    (best : Option N × ℚ)
    (nodeId : N) : Except RayError (Option N × ℚ) := do
  let nodeResources ← manager.getNodeResources nodeId
  let nodeScore ← score requiredResources nodeResources
  return if best.1 = none ∨ best.2 < nodeScore then (some nodeId, nodeScore) else best

/-- `BundleSchedulingPolicy::GetBestNode`. -/
def getBestNode (manager : ClusterResourceManager N) (requiredResources : ResourceRequest)
    (candidateNodes : List N) :
    Except RayError (Option N) := do
  let best ← candidateNodes.foldlM (scoreNode manager requiredResources) (none, -1)
  return if 0 ≤ best.2 then best.1 else none

/-- `BundleSchedulingPolicy::IsRequestFeasible`. -/
def isRequestFeasible (manager : ClusterResourceManager N) (requests : List ResourceRequest)
    (candidateNodes : List N) : Except RayError Bool :=
  requests.allM (fun request => candidateNodes.anyM
    (fun nodeId => manager.hasFeasibleResources nodeId request))

/-! ### Taking resources and giving them back -/

/-- `RAY_CHECK(SubtractNodeAvailableResources(…))`. -/
def takeResources (manager : ClusterResourceManager N) (nodeId : N) (request : ResourceRequest) :
    Except RayError (ClusterResourceManager N) := do
  let subtracted := manager.subtractNodeAvailableResources nodeId request
  rayCheck subtracted.1 "SubtractNodeAvailableResources"
  return subtracted.2

/-- One step of the loop that releases what was deducted. -/
def releaseResources (manager : ClusterResourceManager N) (assigned : Option N × ResourceRequest) :
    Except RayError (ClusterResourceManager N) :=
  match assigned.1 with
  | none => .ok manager
  | some nodeId => do
      let added := manager.addNodeAvailableResources nodeId assigned.2.resources
      rayCheck added.1 "AddNodeAvailableResources"
      return added.2

/-- The loop that releases the resources temporarily deducted. -/
def releaseAll (manager : ClusterResourceManager N) (resultNodes : List (Option N))
    (requests : List ResourceRequest) :
    Except RayError (ClusterResourceManager N) :=
  (resultNodes.zip requests).foldlM releaseResources manager

/-- `SortSchedulingResult` of a successful result. -/
def sortSchedulingResult (resultNodes : List (Option N)) (sortedIndex : List ℕ) : SchedulingResult N :=
  .successful (scatter (sortedIndex.zip resultNodes) (List.replicate resultNodes.length none))

/-! ### PACK -/

/-- The loop that schedules more requests on one node: the view, the nodes chosen so far and the
requests that are left. -/
def packOnNode (nodeId : N) : List (ℕ × ResourceRequest) → ClusterResourceManager N → List (Option N) →
    Except RayError (ClusterResourceManager N × List (Option N) × List (ℕ × ResourceRequest))
  | [], manager, resultNodes => .ok (manager, resultNodes, [])
  | (index, request) :: requests, manager, resultNodes => do
      if ← manager.hasAvailableResources nodeId request false then
        let manager ← takeResources manager nodeId request
        packOnNode nodeId requests manager (resultNodes.set index (some nodeId))
      else
        let (manager, resultNodes, left) ← packOnNode nodeId requests manager resultNodes
        return (manager, resultNodes, (index, request) :: left)

theorem packOnNode_length {nodeId : N} {requests left : List (ℕ × ResourceRequest)}
    {manager manager' : ClusterResourceManager N} {resultNodes resultNodes' : List (Option N)}
    (h : packOnNode nodeId requests manager resultNodes = .ok (manager', resultNodes', left)) :
    left.length ≤ requests.length := by
  induction requests generalizing manager manager' resultNodes resultNodes' left with
  | nil =>
    cases h
    exact le_refl _
  | cons entry requests ih =>
    obtain ⟨index, request⟩ := entry
    rw [packOnNode] at h
    obtain ⟨available, -, h⟩ := bind_eq_ok.mp h
    cases available with
    | true =>
      obtain ⟨manager₁, -, h⟩ := bind_eq_ok.mp h
      exact le_trans (ih h) (Nat.le_succ _)
    | false =>
      obtain ⟨⟨manager₁, resultNodes₁, left₁⟩, hrest, h⟩ := bind_eq_ok.mp h
      cases h
      exact Nat.succ_le_succ (ih hrest)

/-- The main loop of `BundlePackSchedulingPolicy::Schedule`. -/
def packLoop (manager : ClusterResourceManager N) (candidateNodes : List N)
    (resultNodes : List (Option N)) :
    List (ℕ × ResourceRequest) →
      Except RayError (ClusterResourceManager N × List (Option N) × List (ℕ × ResourceRequest))
  | [] => .ok (manager, resultNodes, [])
  | (index, request) :: requests =>
    match getBestNode manager request candidateNodes with
    | .error e => .error e
    | .ok none => .ok (manager, resultNodes, (index, request) :: requests)
    | .ok (some bestNodeId) =>
      match takeResources manager bestNodeId request with
      | .error e => .error e
      | .ok taken =>
        match _hmore : packOnNode bestNodeId requests taken
          (resultNodes.set index (some bestNodeId)) with
        | .error e => .error e
        | .ok (packed, resultNodes, left) =>
          packLoop packed (candidateNodes.filter (· ≠ bestNodeId)) resultNodes left
termination_by requests => requests.length
decreasing_by exact Nat.lt_succ_of_le (packOnNode_length _hmore)

/-- `BundlePackSchedulingPolicy::Schedule`. -/
def schedulePack (sort : StdSort ℕ) (ids : StringIdMap) (manager : ClusterResourceManager N)
    (requests : List ResourceRequest) (candidateNodes : List N) :
    Except RayError (SchedulingResult N × ClusterResourceManager N) := do
  rayCheck (!requests.isEmpty) "!resource_request_list.empty()"
  if candidateNodes.isEmpty then
    return (.infeasible, manager)
  let (sortedIndex, sortedRequests) := sortRequiredResources sort ids requests
  if !(← isRequestFeasible manager sortedRequests candidateNodes) then
    return (.infeasible, manager)
  let (packed, resultNodes, left) ← packLoop manager candidateNodes
    (List.replicate sortedRequests.length none)
    ((List.range sortedRequests.length).zip sortedRequests)
  let released ← releaseAll packed resultNodes sortedRequests
  if !left.isEmpty then
    return (.failed, released)
  return (sortSchedulingResult resultNodes sortedIndex, released)

/-! ### SPREAD -/

/-- The main loop of `BundleSpreadSchedulingPolicy::Schedule`.  The selected nodes are a hash set in
the source and stand here in the order of their selection. -/
def spreadLoop : List ResourceRequest → ClusterResourceManager N → List N → List N → List (Option N) →
    Except RayError (ClusterResourceManager N × List (Option N))
  | [], manager, _, _, resultNodes => .ok (manager, resultNodes)
  | request :: requests, manager, candidateNodes, selectedNodes, resultNodes => do
      match ← getBestNode manager request candidateNodes with
      | some bestNodeId =>
        let manager ← takeResources manager bestNodeId request
        spreadLoop requests manager (candidateNodes.filter (· ≠ bestNodeId))
          (selectedNodes ++ [bestNodeId])
          (resultNodes ++ [some bestNodeId])
      | none =>
        match ← getBestNode manager request selectedNodes with
        | some bestNodeId =>
          let manager ← takeResources manager bestNodeId request
          spreadLoop requests manager candidateNodes selectedNodes (resultNodes ++ [some bestNodeId])
        | none => return (manager, resultNodes)

/-- `BundleSpreadSchedulingPolicy::Schedule`. -/
def scheduleSpread (sort : StdSort ℕ) (ids : StringIdMap) (manager : ClusterResourceManager N)
    (requests : List ResourceRequest) (candidateNodes : List N) :
    Except RayError (SchedulingResult N × ClusterResourceManager N) := do
  rayCheck (!requests.isEmpty) "!resource_request_list.empty()"
  if candidateNodes.isEmpty then
    return (.infeasible, manager)
  let (sortedIndex, sortedRequests) := sortRequiredResources sort ids requests
  if !(← isRequestFeasible manager sortedRequests candidateNodes) then
    return (.infeasible, manager)
  let (spread, resultNodes) ← spreadLoop sortedRequests manager candidateNodes [] []
  let released ← releaseAll spread resultNodes sortedRequests
  if resultNodes.length ≠ sortedRequests.length then
    return (.failed, released)
  return (sortSchedulingResult resultNodes sortedIndex, released)

/-! ### STRICT_PACK -/

/-- The loop of `BundleStrictPackSchedulingPolicy::Schedule` over the resources of one request.  The
sums are of `int64` in the source. -/
def aggregateResources (aggregated : ResourceSet) (request : ResourceRequest) : ResourceSet :=
  request.resources.resourceIds.foldl (fun aggregated resourceId =>
    aggregated.set resourceId (aggregated.get resourceId + request.get resourceId)) aggregated

/-- The aggregated request of `BundleStrictPackSchedulingPolicy::Schedule`. -/
def aggregateRequests (requests : List ResourceRequest) : ResourceRequest :=
  requests.foldl (fun aggregated request =>
    { aggregated with
      resources := aggregateResources aggregated.resources request
      labelSelector := request.labelSelector.foldl addConstraint aggregated.labelSelector })
    ⟨DefaultMap.empty, false, []⟩

/-- The loop that removes the candidates on which a request is not feasible. -/
def feasibleNodes (manager : ClusterResourceManager N) (request : ResourceRequest) :
    List N → Except RayError (List N)
  | [] => .ok []
  | nodeId :: candidateNodes => do
      let feasible ← manager.hasFeasibleResources nodeId request
      let left ← feasibleNodes manager request candidateNodes
      return if feasible then nodeId :: left else left

/-- The soft target node of `BundleStrictPackSchedulingPolicy::Schedule`, if it is a candidate and
available. -/
def bestTargetNode (manager : ClusterResourceManager N) (request : ResourceRequest)
    (softTarget : Option N)
    (candidateNodes : List N) : Except RayError (Option N) :=
  match softTarget with
  | none => .ok none
  | some target => if target ∈ candidateNodes then getBestNode manager request [target] else .ok none

/-- The node of `BundleStrictPackSchedulingPolicy::Schedule`. -/
def bestPackNode (manager : ClusterResourceManager N) (request : ResourceRequest)
    (softTarget : Option N)
    (candidateNodes : List N) : Except RayError (Option N) := do
  match ← bestTargetNode manager request softTarget candidateNodes with
  | some bestNodeId => return some bestNodeId
  | none => getBestNode manager request candidateNodes

/-- `BundleStrictPackSchedulingPolicy::Schedule`. -/
def scheduleStrictPack (manager : ClusterResourceManager N) (requests : List ResourceRequest)
    (options : SchedulingOptions N) (candidateNodes : List N) :
    Except RayError (SchedulingResult N × ClusterResourceManager N) := do
  rayCheck (!requests.isEmpty) "!resource_request_list.empty()"
  if candidateNodes.isEmpty then
    return (.infeasible, manager)
  let aggregatedRequest := aggregateRequests requests
  let candidateNodes ← feasibleNodes manager aggregatedRequest candidateNodes
  if candidateNodes.isEmpty then
    return (.infeasible, manager)
  match ← bestPackNode manager aggregatedRequest options.bundleStrictPackSoftTargetNodeId
    candidateNodes with
  | some bestNodeId => return (.successful (List.replicate requests.length (some bestNodeId)), manager)
  | none => return (.failed, manager)

/-! ### STRICT_SPREAD -/

/-- `BundleStrictSpreadSchedulingPolicy::ExcludeNodesAlreadyContainingBundles`. -/
def excludeNodesAlreadyContainingBundles (candidateNodes : List N) (options : SchedulingOptions N) :
    List N :=
  candidateNodes.filter (fun nodeId => !(options.bundleLocations.getD []).contains nodeId)

/-- The main loop of `BundleStrictSpreadSchedulingPolicy::Schedule`. -/
def strictSpreadLoop (manager : ClusterResourceManager N) :
    List ResourceRequest → List N → List (Option N) →
    Except RayError (List (Option N))
  | [], _, resultNodes => .ok resultNodes
  | request :: requests, candidateNodes, resultNodes => do
      match ← getBestNode manager request candidateNodes with
      | some bestNodeId =>
        strictSpreadLoop manager requests (candidateNodes.filter (· ≠ bestNodeId))
          (resultNodes ++ [some bestNodeId])
      | none => return resultNodes

/-- `BundleStrictSpreadSchedulingPolicy::Schedule`. -/
def scheduleStrictSpread (sort : StdSort ℕ) (ids : StringIdMap) (manager : ClusterResourceManager N)
    (requests : List ResourceRequest) (options : SchedulingOptions N) (candidateNodes : List N) :
    Except RayError (SchedulingResult N × ClusterResourceManager N) := do
  rayCheck (!requests.isEmpty) "!resource_request_list.empty()"
  let candidateNodes := excludeNodesAlreadyContainingBundles candidateNodes options
  if candidateNodes.isEmpty then
    return (.infeasible, manager)
  if requests.length > candidateNodes.length then
    return (.infeasible, manager)
  let (sortedIndex, sortedRequests) := sortRequiredResources sort ids requests
  if !(← isRequestFeasible manager sortedRequests candidateNodes) then
    return (.infeasible, manager)
  let resultNodes ← strictSpreadLoop manager sortedRequests candidateNodes []
  if resultNodes.length ≠ sortedRequests.length then
    return (.failed, manager)
  return (sortSchedulingResult resultNodes sortedIndex, manager)

/-! ### The four policies -/

/-- `CompositeBundleSchedulingPolicy::Schedule` without a strategy for label domains. -/
def schedule (sort : StdSort ℕ) (ids : StringIdMap) (manager : ClusterResourceManager N)
    (requests : List ResourceRequest) (options : SchedulingOptions N) (candidateNodes : List N) :
    Except RayError (SchedulingResult N × ClusterResourceManager N) :=
  match options.schedulingType with
  | .bundlePack => schedulePack sort ids manager requests candidateNodes
  | .bundleSpread => scheduleSpread sort ids manager requests candidateNodes
  | .bundleStrictPack => scheduleStrictPack manager requests options candidateNodes
  | .bundleStrictSpread => scheduleStrictSpread sort ids manager requests options candidateNodes

end policies

end RayTfm.Raylet
