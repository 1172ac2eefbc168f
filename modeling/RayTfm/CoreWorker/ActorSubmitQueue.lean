import RayTfm.Lib.NestedDict
import RayTfm.Raylet.Check

/-! # The submit queues of an actor

A caller keeps the calls of an actor in a queue until their dependencies are resolved.  The
sequential queue sends the calls of a concurrency group in the order of their sequence numbers, and
retries as they come; the out-of-order queue sends every call whose dependencies are resolved.

The queues are tables by concurrency group and sequence number.  The hash tables are iterated in
some order, so `PopNextTaskToSend` may find any of the calls that can be sent first; its last
argument says which one. -/

namespace RayTfm.CoreWorker
open Raylet

/-- The parts of a task that the queues and the executor read. -/
structure TaskSpecification (T : Type) where
  taskId : T
  attemptNumber : ℕ
  concurrencyGroupName : String
  concurrencyGroupSequenceNumber : ℕ
  functionDescriptor : String
  dependencies : List String
  argDataSizes : List ℕ
deriving DecidableEq

/-- `IsRetry`. -/
def TaskSpecification.isRetry {T : Type} (spec : TaskSpecification T) : Bool := 0 < spec.attemptNumber

/-- Requests per concurrency group, with a mark whether the dependencies are resolved. -/
abbrev Requests (T : Type) := Dict String (Dict ℕ (TaskSpecification T × Bool))

/-- The first candidate in the order of the hash table. -/
def pick {A : Type} (hash : ℕ) (l : List A) : Option A := l[hash % l.length]?

/-- The ids of the calls of a table. -/
def Requests.taskIds {T : Type} (m : Requests T) : List T :=
  (Nested.items m).map (fun item => item.2.2.1.taskId)

/-- `IActorSubmitQueue`. -/
class ActorSubmitQueue (Q : Type) (T : outParam Type) where
  init : Q
  emplace (q : Q) (concurrencyGroup : String) (sequenceNo : ℕ) (spec : TaskSpecification T) :
    Except RayError Q
  contains (q : Q) (concurrencyGroup : String) (sequenceNo : ℕ) : Bool
  markDependencyFailed (q : Q) (concurrencyGroup : String) (sequenceNo : ℕ) : Q
  markTaskCanceled (q : Q) (concurrencyGroup : String) (sequenceNo : ℕ) : Q
  markDependencyResolved (q : Q) (concurrencyGroup : String) (sequenceNo : ℕ) : Except RayError Q
  clearAllTasks (q : Q) : List T × Q
  popNextTaskToSend (q : Q) (hash : ℕ) : Option ((TaskSpecification T × Bool) × Q)

/-- `SequentialActorSubmitQueue`. -/
structure SequentialActorSubmitQueue (T : Type) where
  requestsPerGroup : Requests T
  retryRequestsPerGroup : Requests T

/-- `OutofOrderActorSubmitQueue`. -/
structure OutofOrderActorSubmitQueue (T : Type) where
  pendingQueuePerGroup : Requests T
  sendingQueuePerGroup : Requests T

variable {T : Type}

/-! ### The sequential queue -/

namespace SequentialActorSubmitQueue

/-- `Emplace`. -/
def emplace (q : SequentialActorSubmitQueue T) (concurrencyGroup : String) (sequenceNo : ℕ)
    (spec : TaskSpecification T) : Except RayError (SequentialActorSubmitQueue T) :=
  if spec.isRetry then do
    rayCheck (Nested.find? q.retryRequestsPerGroup concurrencyGroup sequenceNo).isNone ""
    return { q with
      retryRequestsPerGroup :=
        Nested.insert q.retryRequestsPerGroup concurrencyGroup sequenceNo (spec, false) }
  else do
    rayCheck (Nested.find? q.requestsPerGroup concurrencyGroup sequenceNo).isNone ""
    return { q with
      requestsPerGroup := Nested.insert q.requestsPerGroup concurrencyGroup sequenceNo (spec, false) }

/-- `Contains`. -/
def contains (q : SequentialActorSubmitQueue T) (concurrencyGroup : String) (sequenceNo : ℕ) : Bool :=
  (Nested.find? q.requestsPerGroup concurrencyGroup sequenceNo).isSome ||
    (Nested.find? q.retryRequestsPerGroup concurrencyGroup sequenceNo).isSome

/-- The body of `MarkDependencyFailed` and of `MarkTaskCanceled`. -/
def removeTask (q : SequentialActorSubmitQueue T) (concurrencyGroup : String) (sequenceNo : ℕ) :
    SequentialActorSubmitQueue T :=
  if (Nested.find? q.requestsPerGroup concurrencyGroup sequenceNo).isSome then
    { q with requestsPerGroup := Nested.remove q.requestsPerGroup concurrencyGroup sequenceNo }
  else
    { q with
      retryRequestsPerGroup := Nested.remove q.retryRequestsPerGroup concurrencyGroup sequenceNo }

/-- `MarkDependencyFailed`. -/
def markDependencyFailed (q : SequentialActorSubmitQueue T) (concurrencyGroup : String)
    (sequenceNo : ℕ) : SequentialActorSubmitQueue T := q.removeTask concurrencyGroup sequenceNo

/-- `MarkTaskCanceled`. -/
def markTaskCanceled (q : SequentialActorSubmitQueue T) (concurrencyGroup : String)
    (sequenceNo : ℕ) : SequentialActorSubmitQueue T := q.removeTask concurrencyGroup sequenceNo

/-- `MarkDependencyResolved`. -/
def markDependencyResolved (q : SequentialActorSubmitQueue T) (concurrencyGroup : String)
    (sequenceNo : ℕ) : SequentialActorSubmitQueue T :=
  match Nested.find? q.requestsPerGroup concurrencyGroup sequenceNo with
  | some (spec, _) =>
    { q with
      requestsPerGroup := Nested.insert q.requestsPerGroup concurrencyGroup sequenceNo (spec, true) }
  | none =>
    match Nested.find? q.retryRequestsPerGroup concurrencyGroup sequenceNo with
    | some (spec, _) =>
      { q with
        retryRequestsPerGroup :=
          Nested.insert q.retryRequestsPerGroup concurrencyGroup sequenceNo (spec, true) }
    | none => q

/-- `ClearAllTasks`. -/
def clearAllTasks (q : SequentialActorSubmitQueue T) : List T × SequentialActorSubmitQueue T :=
  (Requests.taskIds q.requestsPerGroup ++ Requests.taskIds q.retryRequestsPerGroup,
    ⟨Dict.empty, Dict.empty⟩)

/-- The retries that can be sent. -/
def readyRetries (q : SequentialActorSubmitQueue T) : List (String × ℕ × TaskSpecification T × Bool) :=
  (Nested.items q.retryRequestsPerGroup).filter (fun item => item.2.2.2)

/-- The heads of the groups that can be sent. -/
def readyHeads (q : SequentialActorSubmitQueue T) : List (String × ℕ × TaskSpecification T × Bool) :=
  (q.requestsPerGroup.entries.filterMap (fun e => e.2.begin?.map (fun head => (e.1, head)))).filter
    (fun item => item.2.2.2)

/-- `PopNextTaskToSend`; the mark says whether the receiver skips its queue. -/
def popNextTaskToSend (q : SequentialActorSubmitQueue T) (hash : ℕ) :
    Option ((TaskSpecification T × Bool) × SequentialActorSubmitQueue T) :=
  match pick hash q.readyRetries with
  | some (concurrencyGroup, sequenceNo, spec, _) =>
    some ((spec, true), { q with
      retryRequestsPerGroup :=
        Nested.remove q.retryRequestsPerGroup concurrencyGroup sequenceNo })
  | none =>
    match pick hash q.readyHeads with
    | some (concurrencyGroup, sequenceNo, spec, _) =>
      some ((spec, false), { q with
        requestsPerGroup := Nested.remove q.requestsPerGroup concurrencyGroup sequenceNo })
    | none => none

instance : ActorSubmitQueue (SequentialActorSubmitQueue T) T where
  init := ⟨Dict.empty, Dict.empty⟩
  emplace := emplace
  contains := contains
  markDependencyFailed := markDependencyFailed
  markTaskCanceled := markTaskCanceled
  markDependencyResolved q concurrencyGroup sequenceNo :=
    .ok (q.markDependencyResolved concurrencyGroup sequenceNo)
  clearAllTasks := clearAllTasks
  popNextTaskToSend := popNextTaskToSend

end SequentialActorSubmitQueue

/-! ### The out-of-order queue -/

namespace OutofOrderActorSubmitQueue

/-- `Emplace`; looking for the group makes an empty one. -/
def emplace (q : OutofOrderActorSubmitQueue T) (concurrencyGroup : String) (position : ℕ)
    (spec : TaskSpecification T) : Except RayError (OutofOrderActorSubmitQueue T) := do
  let sending := (q.sendingQueuePerGroup.get? concurrencyGroup).getD Dict.empty
  rayCheck (sending.get? position).isNone ""
  rayCheck (Nested.find? q.pendingQueuePerGroup concurrencyGroup position).isNone ""
  return {
    pendingQueuePerGroup := Nested.insert q.pendingQueuePerGroup concurrencyGroup position (spec, false)
    sendingQueuePerGroup := q.sendingQueuePerGroup.set concurrencyGroup sending }

/-- `Contains`. -/
def contains (q : OutofOrderActorSubmitQueue T) (concurrencyGroup : String) (position : ℕ) : Bool :=
  (Nested.find? q.pendingQueuePerGroup concurrencyGroup position).isSome ||
    (Nested.find? q.sendingQueuePerGroup concurrencyGroup position).isSome

/-- `MarkDependencyFailed`. -/
def markDependencyFailed (q : OutofOrderActorSubmitQueue T) (concurrencyGroup : String)
    (position : ℕ) : OutofOrderActorSubmitQueue T :=
  { q with pendingQueuePerGroup := Nested.remove q.pendingQueuePerGroup concurrencyGroup position }

/-- `MarkTaskCanceled`. -/
def markTaskCanceled (q : OutofOrderActorSubmitQueue T) (concurrencyGroup : String)
    (position : ℕ) : OutofOrderActorSubmitQueue T :=
  if (Nested.find? q.pendingQueuePerGroup concurrencyGroup position).isSome then
    { q with pendingQueuePerGroup := Nested.remove q.pendingQueuePerGroup concurrencyGroup position }
  else
    { q with sendingQueuePerGroup := Nested.remove q.sendingQueuePerGroup concurrencyGroup position }

/-- `MarkDependencyResolved`. -/
def markDependencyResolved (q : OutofOrderActorSubmitQueue T) (concurrencyGroup : String)
    (position : ℕ) : Except RayError (OutofOrderActorSubmitQueue T) := do
  let (spec, _) ← rayFind (Nested.find? q.pendingQueuePerGroup concurrencyGroup position) ""
  return {
    pendingQueuePerGroup := Nested.remove q.pendingQueuePerGroup concurrencyGroup position
    sendingQueuePerGroup :=
      if (Nested.find? q.sendingQueuePerGroup concurrencyGroup position).isSome then
        q.sendingQueuePerGroup
      else Nested.insert q.sendingQueuePerGroup concurrencyGroup position (spec, true) }

/-- `ClearAllTasks`. -/
def clearAllTasks (q : OutofOrderActorSubmitQueue T) : List T × OutofOrderActorSubmitQueue T :=
  (Requests.taskIds q.pendingQueuePerGroup ++ Requests.taskIds q.sendingQueuePerGroup,
    ⟨Dict.empty, Dict.empty⟩)

/-- The first calls of the groups that can be sent. -/
def readyHeads (q : OutofOrderActorSubmitQueue T) : List (String × ℕ × TaskSpecification T × Bool) :=
  q.sendingQueuePerGroup.entries.filterMap (fun e => e.2.begin?.map (fun head => (e.1, head)))

/-- `PopNextTaskToSend`. -/
def popNextTaskToSend (q : OutofOrderActorSubmitQueue T) (hash : ℕ) :
    Option ((TaskSpecification T × Bool) × OutofOrderActorSubmitQueue T) :=
  match pick hash q.readyHeads with
  | some (concurrencyGroup, position, spec, _) =>
    some ((spec, true), { q with
      sendingQueuePerGroup := Nested.remove q.sendingQueuePerGroup concurrencyGroup position })
  | none => none

instance : ActorSubmitQueue (OutofOrderActorSubmitQueue T) T where
  init := ⟨Dict.empty, Dict.empty⟩
  emplace := emplace
  contains := contains
  markDependencyFailed := markDependencyFailed
  markTaskCanceled := markTaskCanceled
  markDependencyResolved := markDependencyResolved
  clearAllTasks := clearAllTasks
  popNextTaskToSend := popNextTaskToSend

end OutofOrderActorSubmitQueue
end RayTfm.CoreWorker
