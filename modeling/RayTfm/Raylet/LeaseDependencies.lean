import RayTfm.Lib.Dict
import RayTfm.Lib.Runs
import RayTfm.Raylet.Check

/-! # Lease dependencies

The model of `LeaseDependencyManager` (`raylet/lease_dependency_manager.cc`): which objects the
queued leases, the `ray.get` and the `ray.wait` requests of the workers need, which of these are
local, and which pulls are open at the object manager.

The types of object, worker and lease ids and of task keys are parameters.  A hash set is a list
without repetitions and a hash map a dictionary; the object manager hands out the ids of pulls from
1 on.  Of the object references only the ids are kept, and of the metrics the counter of waiting
leases, whose decrement checks that the key is there. -/

namespace RayTfm.Raylet

/-! ### The state -/

section state
variable (O W L K : Type) [DecidableEq O] [DecidableEq W] [DecidableEq L] [DecidableEq K]

/-- `ObjectDependencies`. -/
structure ObjectDependencies where
  dependentLeases : List L
  dependentGetRequests : Dict W ℤ
  dependentWaitRequests : List W
  waitRequestId : ℕ
deriving DecidableEq

/-- `LeaseDependencies`. -/
structure LeaseDependencies where
  dependencies : List O
  numMissingDependencies : ℤ
  pullRequestId : ℕ
  taskKey : K
deriving DecidableEq

/-- The maps of `LeaseDependencyManager` and the next id of `PullManager`. -/
structure LeaseDependencyManager where
  queuedLeaseRequests : Dict L (LeaseDependencies O K)
  getRequests : Dict (W × ℤ) (List O × ℕ)
  workerToRequests : Dict W (List ℤ)
  waitRequests : Dict W (List O)
  requiredObjects : Dict O (ObjectDependencies W L)
  localObjects : List O
  waitingLeasesCounter : Dict K ℤ
  nextReqId : ℕ

/-- What the object manager and the caller get to see. -/
inductive Event where
  | pull (id : ℕ)
  | cancelPull (id : ℕ)
  | leaseReady (lease : L) (ready : Bool)
  | readyLeases (leases : List L)
  | waitingLeases (leases : List L)
deriving DecidableEq, Repr

/-- The operations. -/
inductive Op where
  | startOrUpdateWaitRequest (worker : W) (requiredObjects : List O)
  | cancelWaitRequest (worker : W)
  | startGetRequest (worker : W) (requiredObjects : List O) (getRequestId : ℤ)
  | cancelGetRequest (worker : W) (requestId : ℤ)
  | cancelGetRequests (worker : W)
  | requestLeaseDependencies (lease : L) (requiredObjects : List O) (taskKey : K)
  | removeLeaseDependencies (lease : L)
  | handleObjectLocal (object : O)
  | handleObjectMissing (object : O)

end state

variable {O W L K : Type} [DecidableEq O] [DecidableEq W] [DecidableEq L] [DecidableEq K]

/-- `ObjectDependencies::Empty`. -/
def ObjectDependencies.isEmpty (d : ObjectDependencies W L) : Bool :=
  d.dependentLeases.isEmpty && d.dependentGetRequests.entries.isEmpty && d.dependentWaitRequests.isEmpty

namespace LeaseDependencyManager

/-- The state of a new manager. -/
def init : LeaseDependencyManager O W L K :=
  ⟨Dict.empty, Dict.empty, Dict.empty, Dict.empty, Dict.empty, [], Dict.empty, 1⟩

/-- The next state, and what an operation puts out. -/
abbrev Outcome (O W L K : Type) [DecidableEq O] [DecidableEq W] [DecidableEq L] [DecidableEq K] :
    Type :=
  LeaseDependencyManager O W L K × List (Event L)

variable (m : LeaseDependencyManager O W L K)

/-- `ObjectManager::Pull`. -/
def pull : LeaseDependencyManager O W L K × ℕ := ({ m with nextReqId := m.nextReqId + 1 }, m.nextReqId)

/-! ### Required objects -/

/-- `GetOrInsertRequiredObject`, with a change of the entry. -/
def requireObject (change : ObjectDependencies W L → ObjectDependencies W L) (object : O) :
    LeaseDependencyManager O W L K :=
  let d := (m.requiredObjects.get? object).getD ⟨[], Dict.empty, [], 0⟩
  { m with requiredObjects := m.requiredObjects.set object (change d) }

/-- `RemoveObjectIfNotNeeded`, for the entry of an object. -/
def removeObjectIfNotNeeded (object : O) (d : ObjectDependencies W L) :
    LeaseDependencyManager O W L K × List (Event L) :=
  if d.isEmpty then
    ({ m with requiredObjects := m.requiredObjects.erase object },
      if 0 < d.waitRequestId then [.cancelPull d.waitRequestId] else [])
  else (m, [])

/-- What the cancellations do with an object: the entry must be there, is changed and removed if it
is not needed any more. -/
def releaseObject (change : ObjectDependencies W L → ObjectDependencies W L) (object : O) :
    Except RayError (Outcome O W L K) := do
  let d ← rayFind (m.requiredObjects.get? object) ""
  let m := { m with requiredObjects := m.requiredObjects.set object (change d) }
  return m.removeObjectIfNotNeeded object (change d)

/-! ### Waiting leases -/

/-- `CounterMap::Increment`. -/
def incrementCounter (counter : Dict K ℤ) (key : K) : Dict K ℤ :=
  counter.set key ((counter.get? key).getD 0 + 1)

/-- `CounterMap::Decrement`. -/
def decrementCounter (counter : Dict K ℤ) (key : K) : Except RayError (Dict K ℤ) := do
  let count ← rayFind (counter.get? key) ""
  return if count - 1 ≤ 0 then counter.erase key else counter.set key (count - 1)

/-- `IncrementMissingDependencies` of a queued lease. -/
def incrementMissingDependencies (lease : L) (e : LeaseDependencies O K) :
    LeaseDependencyManager O W L K :=
  let counter := if e.numMissingDependencies = 0 then incrementCounter m.waitingLeasesCounter e.taskKey
    else m.waitingLeasesCounter
  { m with
    waitingLeasesCounter := counter
    queuedLeaseRequests :=
      m.queuedLeaseRequests.set lease
        { e with numMissingDependencies := e.numMissingDependencies + 1 } }

/-- `DecrementMissingDependencies` of a queued lease. -/
def decrementMissingDependencies (lease : L) (e : LeaseDependencies O K) :
    Except RayError (LeaseDependencyManager O W L K) := do
  let e' := { e with numMissingDependencies := e.numMissingDependencies - 1 }
  let m' := { m with queuedLeaseRequests := m.queuedLeaseRequests.set lease e' }
  if e'.numMissingDependencies = 0 then
    let counter ← decrementCounter m.waitingLeasesCounter e.taskKey
    return { m' with waitingLeasesCounter := counter }
  else return m'

/-! ### Wait requests -/

/-- The loop body of `StartOrUpdateWaitRequest`. -/
def waitForObject (worker : W) (m : LeaseDependencyManager O W L K) (object : O) :
    Except RayError (Outcome O W L K) :=
  let waitRequest := (m.waitRequests.get? worker).getD []
  if object ∈ m.localObjects then .ok (m, [])
  else if object ∈ waitRequest then .ok (m, [])
  else
    let m := { m with waitRequests := m.waitRequests.set worker (waitRequest.insert object) }
    let m := m.requireObject
      (fun d => { d with dependentWaitRequests := d.dependentWaitRequests.insert worker }) object
    match m.requiredObjects.get? object with
    | some d =>
      if d.waitRequestId = 0 then
        let p := m.pull
        .ok (p.1.requireObject (fun d => { d with waitRequestId := p.2 }) object, [.pull p.2])
      else .ok (m, [])
    | none => .ok (m, [])

/-- `StartOrUpdateWaitRequest`: an entry that stays empty is deleted. -/
def startOrUpdateWaitRequest (worker : W) (requiredObjects : List O) :
    Except RayError (Outcome O W L K) := do
  let m := { m with waitRequests := m.waitRequests.set worker ((m.waitRequests.get? worker).getD []) }
  let r ← runSteps (waitForObject worker) m requiredObjects
  if (r.1.waitRequests.get? worker).getD [] = [] then
    return ({ r.1 with waitRequests := r.1.waitRequests.erase worker }, r.2)
  else return r

/-- `CancelWaitRequest`. -/
def cancelWaitRequest (worker : W) : Except RayError (Outcome O W L K) :=
  match m.waitRequests.get? worker with
  | none => .ok (m, [])
  | some waitRequest => do
      let r ← runSteps (fun m => releaseObject m
        (fun d => { d with dependentWaitRequests := d.dependentWaitRequests.erase worker }))
          m waitRequest
      return ({ r.1 with waitRequests := r.1.waitRequests.erase worker }, r.2)

/-! ### Get requests -/

/-- One more get request of a worker for an object. -/
def addGetRequest (worker : W) (d : ObjectDependencies W L) : ObjectDependencies W L :=
  { d with dependentGetRequests :=
      d.dependentGetRequests.set worker ((d.dependentGetRequests.get? worker).getD 0 + 1) }

/-- One less get request of a worker for an object. -/
def dropGetRequest (worker : W) (d : ObjectDependencies W L) : ObjectDependencies W L :=
  let count := (d.dependentGetRequests.get? worker).getD 0 - 1
  { d with dependentGetRequests :=
      if count = 0 then (d.dependentGetRequests.set worker count).erase worker
      else d.dependentGetRequests.set worker count }

/-- `StartGetRequest`.  An `emplace` leaves a request that is there already as it is. -/
def startGetRequest (worker : W) (requiredObjects : List O) (getRequestId : ℤ) :
    Except RayError (Outcome O W L K) :=
  let m := requiredObjects.foldl (fun m object => m.requireObject (addGetRequest worker) object) m
  let p := m.pull
  let m := p.1
  let getRequests := if (m.getRequests.get? (worker, getRequestId)).isSome then m.getRequests
    else m.getRequests.set (worker, getRequestId) (requiredObjects, p.2)
  let requests := (m.workerToRequests.get? worker).getD []
  .ok ({ m with
    getRequests := getRequests
    workerToRequests := m.workerToRequests.set worker (requests.insert getRequestId) }, [.pull p.2])

/-- The part that the two forms of `CancelGetRequest` share: the request is taken out of
`get_requests_`. -/
def dropGetRequests (worker : W) (m : LeaseDependencyManager O W L K) (requestId : ℤ) :
    Except RayError (Outcome O W L K) :=
  match m.getRequests.get? (worker, requestId) with
  | none => .ok (m, [])
  | some getRequest => do
      let r ← runSteps (fun m => releaseObject m (dropGetRequest worker)) m getRequest.1
      return ({ r.1 with getRequests := r.1.getRequests.erase (worker, requestId) },
        .cancelPull getRequest.2 :: r.2)

/-- `CancelGetRequest` of one request. -/
def cancelGetRequest (worker : W) (requestId : ℤ) : Except RayError (Outcome O W L K) :=
  if (m.getRequests.get? (worker, requestId)).isNone then .ok (m, [])
  else do
    let r ← dropGetRequests worker m requestId
    let requests := ((r.1.workerToRequests.get? worker).getD []).erase requestId
    return ({ r.1 with
      workerToRequests := if requests = [] then r.1.workerToRequests.erase worker
        else r.1.workerToRequests.set worker requests }, r.2)

/-- `CancelGetRequest` of all requests of a worker. -/
def cancelGetRequests (worker : W) : Except RayError (Outcome O W L K) :=
  match m.workerToRequests.get? worker with
  | none => .ok (m, [])
  | some requests => do
      let r ← runSteps (dropGetRequests worker) m requests
      return ({ r.1 with workerToRequests := r.1.workerToRequests.erase worker }, r.2)

/-! ### Leases -/

/-- The loop over the distinct objects in `RequestLeaseDependencies`. -/
def supplyDependency (lease : L) (m : LeaseDependencyManager O W L K) (object : O) :
    Except RayError (LeaseDependencyManager O W L K) :=
  match m.queuedLeaseRequests.get? lease with
  | some e => if object ∈ m.localObjects then m.decrementMissingDependencies lease e else .ok m
  | none => .ok m

/-- `RequestLeaseDependencies`. -/
def requestLeaseDependencies (lease : L) (requiredObjects : List O) (taskKey : K) :
    Except RayError (Outcome O W L K) := do
  let deps := requiredObjects.dedup
  rayCheck (m.queuedLeaseRequests.get? lease).isNone
    "Lease depedencies can be requested only once per lease. "
  let m := { m with
    queuedLeaseRequests := m.queuedLeaseRequests.set lease ⟨deps, deps.length, 0, taskKey⟩
    waitingLeasesCounter :=
      if 0 < deps.length then incrementCounter m.waitingLeasesCounter taskKey
      else m.waitingLeasesCounter }
  let m := requiredObjects.foldl (fun m object => m.requireObject
    (fun d => { d with dependentLeases := d.dependentLeases.insert lease }) object) m
  let m ← deps.foldlM (supplyDependency lease) m
  match m.queuedLeaseRequests.get? lease with
  | some e =>
    let ready := decide (e.numMissingDependencies = 0)
    if requiredObjects.isEmpty then return (m, [.leaseReady lease ready])
    else
      let p := m.pull
      return ({ p.1 with
        queuedLeaseRequests := p.1.queuedLeaseRequests.set lease { e with pullRequestId := p.2 } },
        [.pull p.2, .leaseReady lease ready])
  | none => return (m, [])

/-- `RemoveLeaseDependencies`.  The destructor of the entry takes the lease out of the counter. -/
def removeLeaseDependencies (lease : L) : Except RayError (Outcome O W L K) := do
  let e ← rayFind (m.queuedLeaseRequests.get? lease)
    "Can't remove dependencies of tasks that are not queued."
  let r ← runSteps (fun m => releaseObject m
    (fun d => { d with dependentLeases := d.dependentLeases.erase lease })) m e.dependencies
  let counter ← if 0 < e.numMissingDependencies then decrementCounter r.1.waitingLeasesCounter e.taskKey
    else .ok r.1.waitingLeasesCounter
  return ({ r.1 with
    queuedLeaseRequests := r.1.queuedLeaseRequests.erase lease
    waitingLeasesCounter := counter },
    (if 0 < e.pullRequestId then [.cancelPull e.pullRequestId] else []) ++ r.2)

/-! ### Local objects -/

/-- The loop over the leases in `HandleObjectMissing`: the leases that are put back to waiting come
out. -/
def missForLease (m : LeaseDependencyManager O W L K) (lease : L) :
    Except RayError (LeaseDependencyManager O W L K × List L) := do
  let e ← rayFind (m.queuedLeaseRequests.get? lease) ""
  return (m.incrementMissingDependencies lease e, if e.numMissingDependencies = 0 then [lease] else [])

/-- The loop over the leases in `HandleObjectLocal`: the leases that become ready come out. -/
def supplyLease (m : LeaseDependencyManager O W L K) (lease : L) :
    Except RayError (LeaseDependencyManager O W L K × List L) := do
  let e ← rayFind (m.queuedLeaseRequests.get? lease) ""
  let m ← m.decrementMissingDependencies lease e
  return (m, if e.numMissingDependencies - 1 = 0 then [lease] else [])

/-- The loop over the waiting workers in `HandleObjectLocal`. -/
def supplyWorker (object : O) (m : LeaseDependencyManager O W L K) (worker : W) :
    Except RayError (LeaseDependencyManager O W L K) := do
  let waitRequest ← rayFind (m.waitRequests.get? worker) ""
  rayCheck (decide (object ∈ waitRequest)) ""
  let waitRequest := waitRequest.erase object
  return { m with
    waitRequests := if waitRequest = [] then m.waitRequests.erase worker
      else m.waitRequests.set worker waitRequest }

/-- `HandleObjectMissing`. -/
def handleObjectMissing (object : O) : Except RayError (Outcome O W L K) := do
  rayCheck (decide (object ∈ m.localObjects)) "Evicted object was not local "
  let m := { m with localObjects := m.localObjects.erase object }
  match m.requiredObjects.get? object with
  | none => return (m, [.waitingLeases []])
  | some d => do
      let r ← runSteps missForLease m d.dependentLeases
      return (r.1, [.waitingLeases r.2])

/-- `HandleObjectLocal`. -/
def handleObjectLocal (object : O) : Except RayError (Outcome O W L K) := do
  rayCheck (decide (object ∉ m.localObjects)) "Local object was already local "
  let m := { m with localObjects := m.localObjects.insert object }
  match m.requiredObjects.get? object with
  | none => return (m, [.readyLeases []])
  | some d => do
      let r ← runSteps supplyLease m d.dependentLeases
      let m ← d.dependentWaitRequests.foldlM (supplyWorker object) r.1
      let cancelled := if 0 < d.waitRequestId then [.cancelPull d.waitRequestId] else []
      let d' := { d with dependentWaitRequests := [], waitRequestId := 0 }
      let m := { m with requiredObjects := m.requiredObjects.set object d' }
      let removed := m.removeObjectIfNotNeeded object d'
      return (removed.1, cancelled ++ removed.2 ++ [.readyLeases r.2])

/-- One operation. -/
def step : Op O W L K → Except RayError (Outcome O W L K)
  | .startOrUpdateWaitRequest worker requiredObjects =>
      m.startOrUpdateWaitRequest worker requiredObjects
  | .cancelWaitRequest worker => m.cancelWaitRequest worker
  | .startGetRequest worker requiredObjects getRequestId => m.startGetRequest worker requiredObjects
      getRequestId
  | .cancelGetRequest worker requestId => m.cancelGetRequest worker requestId
  | .cancelGetRequests worker => m.cancelGetRequests worker
  | .requestLeaseDependencies lease requiredObjects taskKey =>
      m.requestLeaseDependencies lease requiredObjects taskKey
  | .removeLeaseDependencies lease => m.removeLeaseDependencies lease
  | .handleObjectLocal object => m.handleObjectLocal object
  | .handleObjectMissing object => m.handleObjectMissing object

end LeaseDependencyManager
end RayTfm.Raylet
