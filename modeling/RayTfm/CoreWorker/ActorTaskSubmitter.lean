import RayTfm.CoreWorker.ActorSubmitQueue
import RayTfm.Lib.Runs

/-! # The submitter of actor tasks

The model of `ActorTaskSubmitter` of `core_worker/task_submission/actor_task_submitter.cc` for one
actor that has not been reported dead.  A critical section is one step.  What a thread, the event
loop or the resolver still has to do between two critical sections is part of the state: lists of
tasks at which any place can be the next, so that a run is any interleaving.

The calls of the task manager are outputs, and its answers come with the event.  In a submitter that
was told that the actor is dead the branches for `DEAD` would matter, which are left out here. -/

namespace RayTfm.CoreWorker
open Raylet

/-- The states of an actor that is not dead. -/
inductive ActorState where
  | dependenciesUnready
  | alive
  | restarting
deriving DecidableEq, Repr

/-- `rpc::Address`. -/
structure Address where
  nodeId : String
  ipAddress : String
  port : ℕ
  workerId : String
deriving DecidableEq, Repr

/-- The statuses with which a push ends. -/
inductive Status where
  | ok
  | ioError (msg : String)
  | schedulingCancelled
deriving DecidableEq, Repr

/-- `rpc::PushTaskReply`. -/
structure PushTaskReply where
  isRetryableError : Bool := false
  wasCancelledBeforeRunning : Bool := false
  workerExiting : Bool := false
  isApplicationError : Bool := false
deriving DecidableEq, Repr

/-- The `rpc::ErrorType`s that the submitter gives. -/
inductive ErrorType where
  | dependencyResolutionFailed
  | taskCancelled
  | actorDied
  | actorUnavailable
  | taskExecutionException
deriving DecidableEq, Repr

/-- What the submitter tells the task manager about a task. -/
inductive TaskAction where
  | markDependenciesResolved
  | markTaskWaitingForExecution (nodeId workerId : String)
  | markTaskCanceled
  | markGeneratorFailedAndResubmit
  | completePendingTask (isApplicationError : Bool)
  | failPendingTask (error : ErrorType)
  | failOrRetryPendingTask (error : ErrorType)
deriving DecidableEq, Repr

/-- A call of `HandlePushTaskReply`. -/
structure ReplyCall (T : Type) where
  status : Status
  reply : PushTaskReply
  taskSpec : TaskSpecification T
deriving DecidableEq

/-- What a step puts out. -/
inductive SubmitterOutput (T : Type) where
  | taskManager (taskId : T) (action : TaskAction)
  | pushTask (taskSpec : TaskSpecification T) (intendedWorkerId : String) (sequenceNumber : ℕ)
      (skipQueue : Bool)
  | postFailure (taskSpec : TaskSpecification T)
  | handled (taskSpec : TaskSpecification T)
  | sendCancelLocalTask (taskSpec : TaskSpecification T) (nodeId workerId : String)
  | retryCancelTask (taskSpec : TaskSpecification T)
deriving DecidableEq

/-- A task attempt. -/
def TaskSpecification.attempt {T : Type} (spec : TaskSpecification T) : T × ℕ :=
  (spec.taskId, spec.attemptNumber)

/-- The place of a task in the submit queue. -/
def TaskSpecification.place {T : Type} (spec : TaskSpecification T) : String × ℕ :=
  (spec.concurrencyGroupName, spec.concurrencyGroupSequenceNumber)

/-- `ActorTaskSubmitter` with the `ClientQueue` of the actor, and what is under way: `submitting`
are the tasks that are queued and not posted, `posted` the closures of `SubmitTask` in the event
loop, `resolving` the callbacks that the resolver keeps, `taken` those that it is about to call;
`cancelling` are the tasks whose cancellation has left the queue; `calls` are the calls of
`HandlePushTaskReply` that are due, `handling` those behind their first critical section. -/
structure ActorTaskSubmitter (Q T : Type) where
  state : ActorState
  numRestarts : ℤ
  clientAddress : Option Address
  workerId : String
  pendingOutOfScopeDeath : Bool
  actorSubmitQueue : Q
  waitForDeathInfoTasks : List (TaskSpecification T × ErrorType)
  inflightTaskCallbacks : Dict (T × ℕ) (TaskSpecification T)
  maxPendingCalls : ℤ
  curPendingCalls : ℤ
  failIfActorUnreachable : Bool
  generatorsToResubmit : Finset T
  pendingDependencyResolution : Finset T
  submitting : List (TaskSpecification T)
  posted : List (TaskSpecification T)
  resolving : List (TaskSpecification T)
  taken : List (TaskSpecification T × Status)
  cancelling : List T
  calls : List (ReplyCall T)
  handling : List (ReplyCall T)

/-- What happens to a submitter.  A number says which of the things under way goes on, `hash` gives
the orders of the hash tables. -/
inductive SubmitterEvent (T : Type) where
  | submitTask (taskSpec : TaskSpecification T)
  | postResolution (k : ℕ)
  | runPosted (k : ℕ)
  | takeCallback (k : ℕ) (status : Status)
  | runCallback (k : ℕ) (hash : ℕ → ℕ)
  | cancelDependencyResolution (taskId : T)
  | connectActor (address : Address) (numRestarts : ℤ) (hash : ℕ → ℕ)
  | disconnectActor (numRestarts : ℤ)
  | actorOutOfScope
  | reply (attempt : T × ℕ) (status : Status) (reply : PushTaskReply)
  | handlePushTaskReply (k : ℕ)
  | finishReply (k : ℕ) (isTaskCanceled willRetry : Bool)
  | cancelTask (taskSpec : TaskSpecification T) (isTaskPending : Bool) (hash : ℕ → ℕ)
  | finishCancel (k : ℕ)
  | queueGeneratorForResubmit (taskSpec : TaskSpecification T)

/-- The element at a place, and the others. -/
def takeAt {A : Type} (k : ℕ) (l : List A) : Option (A × List A) :=
  l[k]?.map (fun a => (a, l.eraseIdx k))

namespace ActorTaskSubmitter

variable {Q T : Type} [DecidableEq T] [ActorSubmitQueue Q T]

/-- The submitter when the queue of the actor has been added. -/
def init (maxPendingCalls : ℤ) (failIfActorUnreachable : Bool) : ActorTaskSubmitter Q T where
  state := .dependenciesUnready
  numRestarts := -1
  clientAddress := none
  workerId := ""
  pendingOutOfScopeDeath := false
  actorSubmitQueue := ActorSubmitQueue.init
  waitForDeathInfoTasks := []
  inflightTaskCallbacks := Dict.empty
  maxPendingCalls := maxPendingCalls
  curPendingCalls := 0
  failIfActorUnreachable := failIfActorUnreachable
  generatorsToResubmit := ∅
  pendingDependencyResolution := ∅
  submitting := []
  posted := []
  resolving := []
  taken := []
  cancelling := []
  calls := []
  handling := []

/-- `PendingTasksFull`. -/
def pendingTasksFull (s : ActorTaskSubmitter Q T) : Bool :=
  0 < s.maxPendingCalls && s.maxPendingCalls ≤ s.curPendingCalls

/-- The state after a step, and what the step puts out. -/
abbrev Stepped (Q T : Type) := ActorTaskSubmitter Q T × List (SubmitterOutput T)

/-! ### Sending -/

/-- `PushActorTask` to the given address.  A callback that is there already stays. -/
def pushActorTask (addr : Address) (s : ActorTaskSubmitter Q T) (taskSpec : TaskSpecification T)
    (skipQueue : Bool) : Stepped Q T :=
  ({ s with
      inflightTaskCallbacks :=
        if (s.inflightTaskCallbacks.get? taskSpec.attempt).isSome then s.inflightTaskCallbacks
        else s.inflightTaskCallbacks.set taskSpec.attempt taskSpec },
    [.taskManager taskSpec.taskId (.markTaskWaitingForExecution addr.nodeId addr.workerId),
      .pushTask taskSpec s.workerId taskSpec.concurrencyGroupSequenceNumber skipQueue])

/-- A round of the loop that sends. -/
def sendTask (addr : Address) (s : ActorTaskSubmitter Q T) (taskSpec : TaskSpecification T)
    (skipQueue : Bool) : Except RayError (Stepped Q T) := do
  rayCheck (s.workerId ≠ "") ""
  return pushActorTask addr s taskSpec skipQueue

/-- A task that is not sent while the actor restarts: its failure is posted. -/
def postFailure (s : ActorTaskSubmitter Q T) (taskSpec : TaskSpecification T) (_skipQueue : Bool) :
    Except RayError (Stepped Q T) :=
  .ok ({ s with calls := s.calls ++ [⟨.ioError "The actor is restarting.", {}, taskSpec⟩] },
    [.postFailure taskSpec])

/-- The loops of `SendPendingTasks`, with a bound on the number of rounds. -/
def popLoop (body : ActorTaskSubmitter Q T → TaskSpecification T → Bool → Except RayError (Stepped Q T))
    (hash : ℕ → ℕ) : ℕ → ActorTaskSubmitter Q T → Except RayError (Stepped Q T)
  | 0, s => .ok (s, [])
  | rounds + 1, s =>
    match ActorSubmitQueue.popNextTaskToSend s.actorSubmitQueue (hash rounds) with
    | none => .ok (s, [])
    | some ((taskSpec, skipQueue), q) => do
        let r ← body { s with actorSubmitQueue := q } taskSpec skipQueue
        let rest ← popLoop body hash rounds r.1
        return (rest.1, r.2 ++ rest.2)

/-- `SendPendingTasks`; every round takes a task out of the queue. -/
def sendPendingTasks (s : ActorTaskSubmitter Q T) (hash : ℕ → ℕ) : Except RayError (Stepped Q T) :=
  let rounds := (ActorSubmitQueue.clearAllTasks s.actorSubmitQueue).1.length
  if s.pendingOutOfScopeDeath then .ok (s, [])
  else
    match s.clientAddress with
    | none =>
      if s.state = .restarting ∧ s.failIfActorUnreachable then popLoop postFailure hash rounds s
      else .ok (s, [])
    | some addr => popLoop (sendTask addr) hash rounds s

/-! ### Submitting -/

/-- The first critical section of `SubmitTask`. -/
def submitTask (s : ActorTaskSubmitter Q T) (taskSpec : TaskSpecification T) :
    Except RayError (Stepped Q T) := do
  let q ← ActorSubmitQueue.emplace s.actorSubmitQueue taskSpec.concurrencyGroupName
    taskSpec.concurrencyGroupSequenceNumber taskSpec
  return ({ s with
    actorSubmitQueue := q
    curPendingCalls := s.curPendingCalls + 1
    submitting := s.submitting ++ [taskSpec] }, [])

/-- The rest of `SubmitTask`. -/
def postResolution (s : ActorTaskSubmitter Q T) (k : ℕ) : Except RayError (Stepped Q T) :=
  match takeAt k s.submitting with
  | none => .ok (s, [])
  | some (taskSpec, submitting) =>
    .ok ({ s with
      pendingDependencyResolution := insert taskSpec.taskId s.pendingDependencyResolution
      submitting := submitting
      posted := s.posted ++ [taskSpec] }, [])

/-- The posted closure of `SubmitTask`. -/
def runPosted (s : ActorTaskSubmitter Q T) (k : ℕ) : Except RayError (Stepped Q T) :=
  match takeAt k s.posted with
  | none => .ok (s, [])
  | some (taskSpec, posted) =>
    if taskSpec.taskId ∈ s.pendingDependencyResolution then
      .ok ({ s with
        pendingDependencyResolution := s.pendingDependencyResolution.erase taskSpec.taskId
        posted := posted
        resolving := s.resolving ++ [taskSpec] }, [])
    else .ok ({ s with posted := posted }, [])

/-- The resolver is done with the dependencies of a task. -/
def takeCallback (s : ActorTaskSubmitter Q T) (k : ℕ) (status : Status) :
    Except RayError (Stepped Q T) :=
  match takeAt k s.resolving with
  | none => .ok (s, [])
  | some (taskSpec, resolving) =>
    .ok ({ s with
      resolving := resolving
      taken := s.taken ++ [(taskSpec, status)] }, [])

/-- The callback of `SubmitTask` for resolved dependencies. -/
def runCallback (s : ActorTaskSubmitter Q T) (k : ℕ) (hash : ℕ → ℕ) : Except RayError (Stepped Q T) :=
  match takeAt k s.taken with
  | none => .ok (s, [])
  | some ((taskSpec, status), taken) => do
      let s := { s with taken := taken }
      let resolved : SubmitterOutput T := .taskManager taskSpec.taskId .markDependenciesResolved
      let group := taskSpec.concurrencyGroupName
      let sendPos := taskSpec.concurrencyGroupSequenceNumber
      if ActorSubmitQueue.contains s.actorSubmitQueue group sendPos then
        if status = .ok then
          let q ← ActorSubmitQueue.markDependencyResolved s.actorSubmitQueue group sendPos
          let r ← sendPendingTasks { s with actorSubmitQueue := q } hash
          return (r.1, resolved :: r.2)
        else
          return ({ s with
            actorSubmitQueue := ActorSubmitQueue.markDependencyFailed s.actorSubmitQueue
              group sendPos },
            [resolved, .taskManager taskSpec.taskId
              (.failOrRetryPendingTask .dependencyResolutionFailed)])
      else return (s, [resolved])

/-- `CancelDependencyResolution`. -/
def cancelDependencyResolution (s : ActorTaskSubmitter Q T) (taskId : T) : ActorTaskSubmitter Q T :=
  { s with
    pendingDependencyResolution := s.pendingDependencyResolution.erase taskId
    resolving := s.resolving.filter (fun taskSpec => taskSpec.taskId ≠ taskId) }

/-! ### Connecting and disconnecting -/

/-- `FailInflightTasksOnRestart`: the calls of the callbacks. -/
def failInflightTasksOnRestart (callbacks : Dict (T × ℕ) (TaskSpecification T)) : List (ReplyCall T) :=
  callbacks.values.map (fun taskSpec => ⟨.ioError "The actor was restarted", {}, taskSpec⟩)

/-- `DisconnectRpcClient`, and the callbacks in flight taken out; they are called when the lock has
been released. -/
def disconnectRpcClient (s : ActorTaskSubmitter Q T) : ActorTaskSubmitter Q T :=
  { s with
    clientAddress := none
    workerId := ""
    inflightTaskCallbacks := Dict.empty
    calls := s.calls ++ failInflightTasksOnRestart s.inflightTaskCallbacks }

/-- `ConnectActor`. -/
def connectActor (s : ActorTaskSubmitter Q T) (address : Address) (numRestarts : ℤ) (hash : ℕ → ℕ) :
    Except RayError (Stepped Q T) :=
  if numRestarts < s.numRestarts then .ok (s, [])
  else if s.clientAddress.any (fun a => a.ipAddress = address.ipAddress ∧ a.port = address.port) then
    .ok (s, [])
  else
    sendPendingTasks { (if s.clientAddress.isSome then disconnectRpcClient s else s) with
      numRestarts := numRestarts
      state := .alive
      workerId := address.workerId
      clientAddress := some address } hash

/-- `DisconnectActor` with `dead` false. -/
def disconnectActor (s : ActorTaskSubmitter Q T) (numRestarts : ℤ) : Except RayError (Stepped Q T) := do
  rayCheck (0 < numRestarts) ""
  if numRestarts ≤ s.numRestarts then return (s, [])
  else return ({ disconnectRpcClient s with state := .restarting, numRestarts := numRestarts }, [])

/-! ### Replies -/

/-- The callback of a push: the reply of a task that has been marked as failed is ignored. -/
def onReply (s : ActorTaskSubmitter Q T) (attempt : T × ℕ) (status : Status) (reply : PushTaskReply) :
    Except RayError (Stepped Q T) :=
  match s.inflightTaskCallbacks.get? attempt with
  | none => .ok (s, [])
  | some taskSpec =>
    .ok ({ s with
      inflightTaskCallbacks := s.inflightTaskCallbacks.erase attempt
      calls := s.calls ++ [⟨status, reply, taskSpec⟩] }, [])

/-- `HandlePushTaskReply` up to the end of its first critical section. -/
def handlePushTaskReply (s : ActorTaskSubmitter Q T) (k : ℕ) : Except RayError (Stepped Q T) :=
  match takeAt k s.calls with
  | none => .ok (s, [])
  | some (call, calls) =>
    let taskId := call.taskSpec.taskId
    let resubmitGenerator := decide (taskId ∈ s.generatorsToResubmit) && decide (call.status = .ok)
    let s := { s with calls := calls, generatorsToResubmit := s.generatorsToResubmit.erase taskId }
    if resubmitGenerator then
      .ok ({ s with curPendingCalls := s.curPendingCalls - 1 },
        [.taskManager taskId .markGeneratorFailedAndResubmit, .handled call.taskSpec])
    else .ok ({ s with handling := s.handling ++ [call] }, [])

/-- What `HandleTaskCancelledBeforeExecution` does: the tasks that wait for the death info, and what
it tells the task manager. -/
def handleTaskCancelledBeforeExecution (timeoutMs : ℕ) (call : ReplyCall T) :
    List (TaskSpecification T × ErrorType) × List TaskAction :=
  if call.reply.workerExiting then
    if timeoutMs ≠ 0 then ([(call.taskSpec, .actorDied)], []) else ([], [.failPendingTask .actorDied])
  else ([], [.failPendingTask .taskCancelled])

/-- What `HandlePushTaskReply` does between its first and its last critical section. -/
def replyActions (timeoutMs : ℕ) (call : ReplyCall T) (isTaskCanceled willRetry : Bool) :
    List (TaskSpecification T × ErrorType) × List TaskAction :=
  let isRetryableException := decide (call.status = .ok) && call.reply.isRetryableError
  if (call.status = .ok ∧ call.reply.wasCancelledBeforeRunning) ∨
    call.status = .schedulingCancelled then
    handleTaskCancelledBeforeExecution timeoutMs call
  else if call.status = .ok ∧ ¬ isRetryableException then
    if isTaskCanceled ∧ ¬ call.reply.isApplicationError then ([], [.failPendingTask .taskCancelled])
    else ([], [.completePendingTask call.reply.isApplicationError])
  else
    let error := if call.status = .ok then ErrorType.taskExecutionException else .actorUnavailable
    let failed : TaskAction := .failOrRetryPendingTask error
    if willRetry then ([], [failed])
    else if call.status = .ok then ([], [failed, .completePendingTask call.reply.isApplicationError])
    else if timeoutMs ≠ 0 then ([(call.taskSpec, error)], [failed])
    else ([], [failed, .failPendingTask error])

/-- Whether `HandlePushTaskReply` cancels the dependency resolution of the task. -/
def replyCancelsResolution (call : ReplyCall T) : Bool :=
  if (call.status = .ok ∧ call.reply.wasCancelledBeforeRunning) ∨
    call.status = .schedulingCancelled then
    call.reply.workerExiting
  else !(call.status = .ok ∧ ¬ call.reply.isRetryableError)

/-- `HandlePushTaskReply` after its first critical section. -/
def finishReply (timeoutMs : ℕ) (s : ActorTaskSubmitter Q T) (k : ℕ) (isTaskCanceled willRetry : Bool) :
    Except RayError (Stepped Q T) :=
  match takeAt k s.handling with
  | none => .ok (s, [])
  | some (call, handling) =>
    let taskId := call.taskSpec.taskId
    let s := if replyCancelsResolution call then s.cancelDependencyResolution taskId else s
    let r := replyActions timeoutMs call isTaskCanceled willRetry
    .ok ({ s with
      handling := handling
      waitForDeathInfoTasks := s.waitForDeathInfoTasks ++ r.1
      curPendingCalls := s.curPendingCalls - 1 },
      r.2.map (.taskManager taskId) ++ [.handled call.taskSpec])

/-! ### Cancelling -/

/-- `CancelTask` up to its last critical section. -/
def cancelTask (s : ActorTaskSubmitter Q T) (taskSpec : TaskSpecification T) (isTaskPending : Bool)
    (hash : ℕ → ℕ) : Except RayError (Stepped Q T) := do
  let group := taskSpec.concurrencyGroupName
  let sendPos := taskSpec.concurrencyGroupSequenceNumber
  let canceled : SubmitterOutput T := .taskManager taskSpec.taskId .markTaskCanceled
  if !isTaskPending then return (s, [canceled])
  else
    let s := { s with generatorsToResubmit := s.generatorsToResubmit.erase taskSpec.taskId }
    if ActorSubmitQueue.contains s.actorSubmitQueue group sendPos then
      let r ← sendPendingTasks { s with
        actorSubmitQueue := ActorSubmitQueue.markTaskCanceled s.actorSubmitQueue group sendPos
        curPendingCalls := s.curPendingCalls - 1 } hash
      return ({ r.1 with cancelling := r.1.cancelling ++ [taskSpec.taskId] }, canceled :: r.2)
    else
      match s.clientAddress with
      | none => return (s, [canceled, .retryCancelTask taskSpec])
      | some addr => return (s, [canceled, .sendCancelLocalTask taskSpec addr.nodeId addr.workerId])

/-- The end of `CancelTask` for a task that was queued. -/
def finishCancel (s : ActorTaskSubmitter Q T) (k : ℕ) : Except RayError (Stepped Q T) :=
  match takeAt k s.cancelling with
  | none => .ok (s, [])
  | some (taskId, cancelling) =>
    .ok ({ s with cancelling := cancelling }.cancelDependencyResolution taskId,
      [.taskManager taskId (.failOrRetryPendingTask .taskCancelled)])

/-- One step; `timeoutMs` is `timeout_ms_task_wait_for_death_info`. -/
def step (timeoutMs : ℕ) (s : ActorTaskSubmitter Q T) : SubmitterEvent T → Except RayError (Stepped Q T)
  | .submitTask taskSpec => s.submitTask taskSpec
  | .postResolution k => s.postResolution k
  | .runPosted k => s.runPosted k
  | .takeCallback k status => s.takeCallback k status
  | .runCallback k hash => s.runCallback k hash
  | .cancelDependencyResolution taskId => .ok (s.cancelDependencyResolution taskId, [])
  | .connectActor address numRestarts hash => s.connectActor address numRestarts hash
  | .disconnectActor numRestarts => s.disconnectActor numRestarts
  | .actorOutOfScope => .ok ({ s with pendingOutOfScopeDeath := true }, [])
  | .reply attempt status reply => s.onReply attempt status reply
  | .handlePushTaskReply k => s.handlePushTaskReply k
  | .finishReply k isTaskCanceled willRetry => finishReply timeoutMs s k isTaskCanceled willRetry
  | .cancelTask taskSpec isTaskPending hash => s.cancelTask taskSpec isTaskPending hash
  | .finishCancel k => s.finishCancel k
  | .queueGeneratorForResubmit taskSpec =>
    .ok ({ s with generatorsToResubmit := insert taskSpec.taskId s.generatorsToResubmit }, [])

end ActorTaskSubmitter
end RayTfm.CoreWorker
