import RayTfm.Lib.Dict

/-! # Long polling

`long_poll.py`: a host keeps objects under keys, with a snapshot id for each, and clients ask it for
the objects that have changed.  A client has at most one request at the host: it is answered at once
when a snapshot id is outdated, and otherwise waits until one of its keys is notified or a time is
over.  The client sets its snapshot ids from the answer, runs the callbacks in its event loop, and
polls again after the last one.

The host runs in one event loop, so its methods are atomic between two awaits.  `step` is one atomic
piece of work of the host or of a client.  A set is listed in some order; where its order can be
seen, the step takes it as an argument.  The clients run, and the metrics are left out. -/

namespace RayTfm.Serve.LongPoll

/-- `UpdatedObject`. -/
structure UpdatedObject (V τ : Type) where
  objectSnapshot : V
  snapshotId : ℤ
  notifyTimestamp : τ

/-- What `listen_for_change` returns; an exception reaches the client as a `RayTaskError`. -/
inductive Reply (K V τ : Type) where
  | updates (updatedObjects : Dict K (UpdatedObject V τ))
  | timeOut
  | taskError

/-- A task that waits for the event of a watched key. -/
structure WaitTask (K : Type) where
  key : K
  event : ℕ
  done : Bool
deriving DecidableEq

/-- The request of a client: on its way, at one of the two awaits, or answered. -/
inductive Request (K V τ : Type) where
  | none
  | sent (keysToSnapshotIds : Dict K ℤ)
  | sleeping
  | parked (keysToSnapshotIds : Dict K ℤ) (tasks : List (WaitTask K))
  | returned (reply : Reply K V τ)

/-- A callable in the event loop of a client. -/
inductive Callable (K V τ F : Type) where
  | pollNext
  | chained (callback : F) (key : K) (update : UpdatedObject V τ) (triggerAt : ℕ)

/-- A call of a callback. -/
structure CallbackCall (K V τ F : Type) where
  callback : F
  key : K
  update : UpdatedObject V τ

/-- `LongPollClient`, with its event loop, the rest of the answer it is processing, its request, and
the callbacks called so far. -/
structure Client (K V τ F : Type) where
  keyListeners : Dict K F
  snapshotIds : Dict K ℤ
  callbacksProcessedCount : ℕ
  eventLoop : List (Callable K V τ F)
  processing : List (K × UpdatedObject V τ)
  numUpdates : ℕ
  request : Request K V τ
  calls : List (CallbackCall K V τ F)

/-- `LongPollHost`; the events are numbered. -/
structure Host (K V τ : Type) where
  snapshotIds : Dict K ℤ
  objectSnapshots : Dict K V
  notifyTimestamps : Dict K τ
  notifierEvents : Dict K (List ℕ)
  pendingClientsByNamespace : String → ℤ
  isSet : ℕ → Bool
  numEvents : ℕ

variable {K V τ F C : Type} [DecidableEq K] [DecidableEq C] (tag : K → String)

/-! ### The host -/

namespace Host

def init : Host K V τ :=
  ⟨Dict.empty, Dict.empty, Dict.empty, Dict.empty, fun _ => 0, fun _ => false, 0⟩

/-- `UpdatedObject(self.object_snapshots[key], id, self._notify_timestamps[key])`. -/
def updatedObject? (h : Host K V τ) (key : K) (id : ℤ) : Option (UpdatedObject V τ) := do
  let objectSnapshot ← h.objectSnapshots.get? key
  let notifyTimestamp ← h.notifyTimestamps.get? key
  some ⟨objectSnapshot, id, notifyTimestamp⟩

/-- One key of the check in `listen_for_change`. -/
def checkKey (h : Host K V τ) (updatedObjects : Dict K (UpdatedObject V τ)) (key : K)
    (clientSnapshotId : ℤ) : Option (Dict K (UpdatedObject V τ)) :=
  match h.snapshotIds.get? key with
  | none => some updatedObjects
  | some existingId =>
    if existingId ≠ clientSnapshotId then
      (h.updatedObject? key existingId).map (fun object => updatedObjects.set key object)
    else some updatedObjects

/-- The keys of a request with outdated snapshot ids. -/
def outdated (h : Host K V τ) (keysToSnapshotIds : Dict K ℤ) :
    Option (Dict K (UpdatedObject V τ)) :=
  keysToSnapshotIds.entries.foldlM (fun updatedObjects e => h.checkKey updatedObjects e.1 e.2)
    Dict.empty

/-- `self._pending_clients_by_namespace[namespace] += n`. -/
def addPending (h : Host K V τ) (key : K) (n : ℤ) : Host K V τ :=
  { h with
    pendingClientsByNamespace := Function.update h.pendingClientsByNamespace (tag key)
      (h.pendingClientsByNamespace (tag key) + n) }

/-- Register an event for a key. -/
def register (h : Host K V τ) (key : K) : Host K V τ :=
  let events := (h.notifierEvents.get? key).getD []
  let h := { h with
    notifierEvents := h.notifierEvents.set key (events ++ [h.numEvents])
    numEvents := h.numEvents + 1 }
  h.addPending tag key 1

/-- Register an event for every key of a request. -/
def registerAll (h : Host K V τ) : List K → Host K V τ × List (WaitTask K)
  | [] => (h, [])
  | key :: keys =>
    let r := registerAll (h.register tag key) keys
    (r.1, ⟨key, h.numEvents, false⟩ :: r.2)

/-- The clean-up of a task that is not done. -/
def unregister (h : Host K V τ) (task : WaitTask K) : Host K V τ :=
  match h.notifierEvents.get? task.key with
  | none => h
  | some eventsSet =>
    if task.event ∉ eventsSet then h
    else
      let eventsSet := eventsSet.erase task.event
      let h := { h with
        notifierEvents :=
          if eventsSet = [] then h.notifierEvents.erase task.key
          else h.notifierEvents.set task.key eventsSet }
      h.addPending tag task.key (-1)

/-- One finished task of `listen_for_change`. -/
def collectTask (h : Host K V τ) (updatedObjects : Dict K (UpdatedObject V τ))
    (task : WaitTask K) : Option (Dict K (UpdatedObject V τ)) :=
  match h.snapshotIds.get? task.key with
  | none => some updatedObjects
  | some id =>
    (h.updatedObject? task.key id).map (fun object => updatedObjects.set task.key object)

/-- The objects of the finished tasks. -/
def collect (h : Host K V τ) (done : List (WaitTask K)) : Option (Dict K (UpdatedObject V τ)) :=
  done.foldlM h.collectTask Dict.empty

/-- Take the events of a key out of the table and set them. -/
def popEvents (h : Host K V τ) (key : K) : Host K V τ :=
  match h.notifierEvents.get? key with
  | none => h
  | some eventsToNotify =>
    let h := { h with
      notifierEvents := h.notifierEvents.erase key
      isSet := fun event => eventsToNotify.contains event || h.isSet event }
    if eventsToNotify ≠ [] then h.addPending tag key (-(eventsToNotify.length : ℤ)) else h

/-- One key of `notify_changed`; `initialId` is the random number drawn for a new key. -/
def notifyKey (h : Host K V τ) (time : τ) (initialId : ℕ) (key : K) (object : V) : Host K V τ :=
  let id := match h.snapshotIds.get? key with
    | some id => id + 1
    | none => initialId
  let h := { h with
    snapshotIds := h.snapshotIds.set key id
    objectSnapshots := h.objectSnapshots.set key object
    notifyTimestamps := h.notifyTimestamps.set key time }
  h.popEvents tag key

/-- `notify_changed`. -/
def notifyChanged (h : Host K V τ) (updates : Dict K V) (time : τ) (initialId : K → ℕ) :
    Host K V τ :=
  updates.entries.foldl (fun h e => h.notifyKey tag time (initialId e.1) e.1 e.2) h

/-- One key of `remove_keys`. -/
def removeKey (h : Host K V τ) (key : K) : Host K V τ :=
  let h := { h with
    snapshotIds := h.snapshotIds.erase key
    objectSnapshots := h.objectSnapshots.erase key
    notifyTimestamps := h.notifyTimestamps.erase key }
  h.popEvents tag key

/-- `remove_keys`. -/
def removeKeys (h : Host K V τ) (keys : List K) : Host K V τ :=
  keys.foldl (fun h key => h.removeKey tag key) h

/-- `listen_for_change` up to its first await, or to its end. -/
def listenForChange (h : Host K V τ) (keysToSnapshotIds : Dict K ℤ) :
    Host K V τ × Request K V τ :=
  if keysToSnapshotIds.entries = [] then (h, .sleeping)
  else
    match h.outdated keysToSnapshotIds with
    | none => (h, .returned .taskError)
    | some updatedObjects =>
      if updatedObjects.entries ≠ [] then (h, .returned (.updates updatedObjects))
      else
        let r := h.registerAll tag keysToSnapshotIds.keys
        (r.1, .parked keysToSnapshotIds r.2)

/-- `listen_for_change` after `asyncio.wait`. -/
def resume (h : Host K V τ) (tasks : List (WaitTask K)) : Host K V τ × Request K V τ :=
  let notDone := tasks.filter (fun task => !task.done)
  let done := tasks.filter (fun task => task.done)
  let h := notDone.foldl (fun h task => h.unregister tag task) h
  if done = [] then (h, .returned .timeOut)
  else
    match h.collect done with
    | none => (h, .returned .taskError)
    | some updatedObjects => (h, .returned (.updates updatedObjects))

end Host

/-! ### The clients -/

namespace Client

/-- A client with its first `_poll_next` scheduled. -/
def init (keyListeners : Dict K F) : Client K V τ F where
  keyListeners := keyListeners
  snapshotIds := Dict.ofList (keyListeners.keys.map (fun key => (key, -1)))
  callbacksProcessedCount := 0
  eventLoop := [.pollNext]
  processing := []
  numUpdates := 0
  request := .none
  calls := []

/-- `_add_key_listeners`. -/
def addKeyListeners (c : Client K V τ F) (keyListeners : Dict K F) : Client K V τ F :=
  { c with
    snapshotIds := c.snapshotIds.setAll
      ((keyListeners.keys.filter (fun key => key ∉ c.keyListeners.keys)).map (fun key => (key, -1)))
    keyListeners := c.keyListeners.setAll keyListeners.entries }

/-- `_poll_next`. -/
def pollNext (c : Client K V τ F) : Client K V τ F :=
  { c with callbacksProcessedCount := 0, request := .sent c.snapshotIds }

/-- `_schedule_to_event_loop`. -/
def schedule (c : Client K V τ F) (callable : Callable K V τ F) : Client K V τ F :=
  { c with eventLoop := c.eventLoop ++ [callable] }

/-- `_process_update` up to its loop over the updates. -/
def processUpdate (c : Client K V τ F) (reply : Reply K V τ) : Client K V τ F :=
  match reply with
  | .taskError => c.schedule .pollNext
  | .timeOut => c.schedule .pollNext
  | .updates updates =>
    let c := if updates.entries = [] then c.schedule .pollNext else c
    { c with processing := updates.entries, numUpdates := updates.size }

/-- One round of the loop of `_process_update`; a missing listener ends it with an exception. -/
def processOne (c : Client K V τ F) (key : K) (update : UpdatedObject V τ)
    (rest : List (K × UpdatedObject V τ)) : Client K V τ F :=
  let c := { c with snapshotIds := c.snapshotIds.set key update.snapshotId }
  match c.keyListeners.get? key with
  | none => { c with processing := [] }
  | some callback =>
    { c.schedule (.chained callback key update c.numUpdates) with processing := rest }

/-- `_on_callback_completed`. -/
def onCallbackCompleted (c : Client K V τ F) (triggerAt : ℕ) : Client K V τ F :=
  let c := { c with callbacksProcessedCount := c.callbacksProcessedCount + 1 }
  if c.callbacksProcessedCount = triggerAt then c.pollNext else c

/-- The event loop runs a callable. -/
def runCallable (c : Client K V τ F) : Callable K V τ F → Client K V τ F
  | .pollNext => c.pollNext
  | .chained callback key update triggerAt =>
    let call : CallbackCall K V τ F := ⟨callback, key, update⟩
    { c with calls := c.calls ++ [call] }.onCallbackCompleted triggerAt

end Client

/-! ### The system -/

/-- The host and its clients. -/
structure World (K V τ F C : Type) where
  host : Host K V τ
  clients : C → Client K V τ F

/-- One atomic piece of work. -/
inductive Event (K V τ F C : Type) where
  /-- `notify_changed`, with the numbers drawn for new keys. -/
  | notifyChanged (updates : Dict K V) (time : τ) (initialId : K → ℕ)
  /-- `remove_keys`. -/
  | removeKeys (keys : List K)
  /-- The event loop of a client runs `_add_key_listeners`. -/
  | addKeyListeners (client : C) (keyListeners : Dict K F)
  /-- The event loop of a client runs its next callable. -/
  | runCallable (client : C)
  /-- The host starts the request of a client. -/
  | listenForChange (client : C)
  /-- The sleep of a request without keys is over. -/
  | wakeUp (client : C)
  /-- A task sees that its event is set. -/
  | finishTask (client : C) (event : ℕ)
  /-- A task of the request is done or the time is over; the tasks come in some order. -/
  | resume (client : C) (order : List (WaitTask K))
  /-- The answer reaches the client. -/
  | deliver (client : C)
  /-- The client processes the next update of the answer. -/
  | processOne (client : C)

namespace World

def init (keyListeners : C → Dict K F) : World K V τ F C :=
  ⟨.init, fun c => .init (keyListeners c)⟩

/-- Replace a client. -/
def setClient (w : World K V τ F C) (c : C) (client : Client K V τ F) : World K V τ F C :=
  { w with clients := Function.update w.clients c client }

/-- Replace the request of a client. -/
def setRequest (w : World K V τ F C) (c : C) (request : Request K V τ) : World K V τ F C :=
  w.setClient c { w.clients c with request := request }

/-- The task with an event is done. -/
def finish (event : ℕ) (task : WaitTask K) : WaitTask K :=
  if task.event = event then { task with done := true } else task

/-- One atomic piece of work, if there is something to do. -/
def step (w : World K V τ F C) : Event K V τ F C → Option (World K V τ F C)
  | .notifyChanged updates time initialId =>
    some { w with host := w.host.notifyChanged tag updates time initialId }
  | .removeKeys keys => some { w with host := w.host.removeKeys tag keys }
  | .addKeyListeners c keyListeners =>
    some (w.setClient c ((w.clients c).addKeyListeners keyListeners))
  | .runCallable c =>
    match (w.clients c).eventLoop with
    | [] => none
    | callable :: rest =>
      some (w.setClient c ({ w.clients c with eventLoop := rest }.runCallable callable))
  | .listenForChange c =>
    match (w.clients c).request with
    | .sent ids =>
      let r := w.host.listenForChange tag ids
      some ({ w with host := r.1 }.setRequest c r.2)
    | _ => none
  | .wakeUp c =>
    match (w.clients c).request with
    | .sleeping => some (w.setRequest c (.returned (.updates Dict.empty)))
    | _ => none
  | .finishTask c event =>
    match (w.clients c).request with
    | .parked ids tasks =>
      if w.host.isSet event then some (w.setRequest c (.parked ids (tasks.map (finish event))))
      else none
    | _ => none
  | .resume c order =>
    match (w.clients c).request with
    | .parked _ tasks =>
      if order.isPerm tasks then
        let r := w.host.resume tag order
        some ({ w with host := r.1 }.setRequest c r.2)
      else none
    | _ => none
  | .deliver c =>
    match (w.clients c).request with
    | .returned reply =>
      some (w.setClient c ({ w.clients c with request := .none }.processUpdate reply))
    | _ => none
  | .processOne c =>
    match (w.clients c).processing with
    | [] => none
    | (key, update) :: rest => some (w.setClient c ((w.clients c).processOne key update rest))

/-- The system after a list of pieces of work. -/
def run (w : World K V τ F C) (events : List (Event K V τ F C)) : Option (World K V τ F C) :=
  events.foldlM (step tag) w

end World
end RayTfm.Serve.LongPoll
