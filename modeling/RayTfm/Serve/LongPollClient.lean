import RayTfm.Serve.LongPollHost

/-! # The clients of the long poll

A client is about to poll, waits for an answer, or works through one (`Control`).  The updates it
has been given and those on their way are its `history`; they only grow at the end.  `Client.Ok`
says how a client stands to the host: its snapshot ids are those of the last updates, the updates of
a key come in the order of their ids and are no newer than what the host holds, and a parked request
has an event that is registered as long as its key has not changed. -/

namespace RayTfm.Serve.LongPoll

variable {K V τ F : Type}

/-- The update of a scheduled callback. -/
def Callable.update? : Callable K V τ F → Option (K × UpdatedObject V τ)
  | .pollNext => none
  | .chained _ key update _ => some (key, update)

namespace Request

/-- The snapshot ids of a request that is not answered. -/
def ids? : Request K V τ → Option (Dict K ℤ)
  | .sent ids => some ids
  | .parked ids _ => some ids
  | _ => Option.none

/-- The tasks of a parked request. -/
def tasks : Request K V τ → List (WaitTask K)
  | .parked _ tasks => tasks
  | _ => []

/-- The updates of an answer. -/
def coming : Request K V τ → List (K × UpdatedObject V τ)
  | .returned (.updates updates) => updates.entries
  | _ => []

end Request

namespace Client

variable {c : Client K V τ F}

/-- The updates of the callbacks that were called or are scheduled. -/
def seen (c : Client K V τ F) : List (K × UpdatedObject V τ) :=
  c.calls.map (fun call => (call.key, call.update)) ++ c.eventLoop.filterMap Callable.update?

/-- The updates of an answer that are not processed yet. -/
def coming (c : Client K V τ F) : List (K × UpdatedObject V τ) := c.processing ++ c.request.coming

/-- All updates that were given to the client, in order. -/
def history (c : Client K V τ F) : List (K × UpdatedObject V τ) := c.seen ++ c.coming

/-- The client is about to poll, waits for an answer, or works through one. -/
inductive Control (c : Client K V τ F) : Prop
  | poll (loop : c.eventLoop = [.pollNext]) (processing : c.processing = [])
      (request : c.request = .none)
  | asked (loop : c.eventLoop = []) (processing : c.processing = []) (request : c.request ≠ .none)
      (count : c.callbacksProcessedCount = 0)
  | answering (request : c.request = .none)
      (loop : ∀ callable ∈ c.eventLoop, ∃ callback key update,
        callable = .chained callback key update c.numUpdates)
      (count : c.callbacksProcessedCount + c.eventLoop.length + c.processing.length = c.numUpdates)
      (pos : 0 < c.eventLoop.length + c.processing.length)

theorem control_init (keyListeners : Dict K F) [DecidableEq K] :
    Control (init keyListeners : Client K V τ F) := .poll rfl rfl rfl

theorem Control.of_request (h : c.Control) (hreq : c.request ≠ .none) :
    c.eventLoop = [] ∧ c.processing = [] ∧ c.callbacksProcessedCount = 0 := by
  cases h with
  | poll _ _ request => exact absurd request hreq
  | asked loop processing _ count => exact ⟨loop, processing, count⟩
  | answering request _ _ _ => exact absurd request hreq

variable {callable : Callable K V τ F} {rest : List (Callable K V τ F)}

theorem Control.request_of_loop (h : c.Control) (hloop : c.eventLoop = callable :: rest) :
    c.request = .none := by
  cases h with
  | poll _ _ request => exact request
  | asked loop _ _ _ =>
    rw [hloop] at loop
    exact absurd loop (List.cons_ne_nil _ _)
  | answering request _ _ _ => exact request

theorem Control.setRequest (h : c.Control) (hreq : c.request ≠ .none) {r : Request K V τ}
    (hr : r ≠ .none) : Control { c with request := r } := by
  obtain ⟨hloop, hprocessing, hcount⟩ := h.of_request hreq
  exact .asked hloop hprocessing hr hcount

theorem Control.runCallable (h : c.Control) (hloop : c.eventLoop = callable :: rest) :
    Control ({ c with eventLoop := rest }.runCallable callable) := by
  cases h with
  | poll loop processing request =>
    rw [hloop, List.cons.injEq] at loop
    rw [loop.1, loop.2]
    exact .asked rfl processing (by simp [Client.runCallable, pollNext]) rfl
  | asked loop _ _ _ =>
    rw [hloop] at loop
    exact absurd loop (List.cons_ne_nil _ _)
  | answering request loop count pos =>
    obtain ⟨callback, key, update, rfl⟩ := loop callable (by rw [hloop]; exact List.mem_cons_self)
    rw [hloop, List.length_cons] at count pos
    unfold Client.runCallable onCallbackCompleted
    simp only
    split_ifs with hlast
    · -- the last callback polls
      have hnil : rest = [] := List.length_eq_zero_iff.mp (by omega)
      have hproc : c.processing = [] := List.length_eq_zero_iff.mp (by omega)
      exact .asked hnil hproc (by simp [pollNext]) rfl
    · refine .answering request (fun x hx => loop x (by rw [hloop]; exact .tail _ hx))
        ?_ ?_
      · simp only
        omega
      · simp only
        omega

theorem runCallable_cases (c : Client K V τ F) (callable : Callable K V τ F)
    (rest : List (Callable K V τ F)) :
    ({ c with eventLoop := rest }.runCallable callable).keyListeners = c.keyListeners ∧
    ({ c with eventLoop := rest }.runCallable callable).snapshotIds = c.snapshotIds ∧
    ({ c with eventLoop := rest }.runCallable callable).eventLoop = rest ∧
    ({ c with eventLoop := rest }.runCallable callable).processing = c.processing ∧
    ({ c with eventLoop := rest }.runCallable callable).calls =
      c.calls ++ (match callable with
        | .pollNext => []
        | .chained callback key update _ => [⟨callback, key, update⟩]) ∧
    (({ c with eventLoop := rest }.runCallable callable).request = c.request ∨
      ({ c with eventLoop := rest }.runCallable callable).request = .sent c.snapshotIds) := by
  cases callable with
  | pollNext => exact ⟨rfl, rfl, rfl, rfl, (List.append_nil _).symm, .inr rfl⟩
  | chained callback key update triggerAt =>
    unfold Client.runCallable onCallbackCompleted
    simp only
    split_ifs
    · exact ⟨rfl, rfl, rfl, rfl, rfl, .inr rfl⟩
    · exact ⟨rfl, rfl, rfl, rfl, rfl, .inl rfl⟩

/-- Running a callable moves its update from the scheduled to the called ones. -/
theorem seen_runCallable (hloop : c.eventLoop = callable :: rest) :
    ({ c with eventLoop := rest }.runCallable callable).seen = c.seen := by
  obtain ⟨_, _, hrest, _, hcalls, _⟩ := runCallable_cases c callable rest
  unfold seen
  rw [hcalls, hrest, hloop]
  cases callable with
  | pollNext =>
    rw [List.append_nil, List.filterMap_cons]
    rfl
  | chained callback key update triggerAt =>
    rw [List.map_append, List.append_assoc, List.filterMap_cons]
    rfl

variable {reply : Reply K V τ}

theorem Control.processUpdate (h : c.Control) (hreq : c.request = .returned reply) :
    Control ({ c with request := .none }.processUpdate reply) := by
  obtain ⟨hloop, hprocessing, hcount⟩ := h.of_request (by rw [hreq]; simp)
  cases reply with
  | taskError =>
    refine .poll ?_ hprocessing rfl
    rw [Client.processUpdate, schedule, hloop]
    rfl
  | timeOut =>
    refine .poll ?_ hprocessing rfl
    rw [Client.processUpdate, schedule, hloop]
    rfl
  | updates updates =>
    rw [Client.processUpdate]
    split_ifs with hnil
    · refine .poll ?_ hnil rfl
      rw [schedule, hloop]
      rfl
    · refine .answering rfl (fun x hx => ?_) ?_ ?_
      · rw [hloop] at hx
        cases hx
      · rw [hloop, hcount, List.length_nil, zero_add, zero_add]
        rfl
      · exact Nat.lt_of_lt_of_le (List.length_pos_of_ne_nil hnil) (Nat.le_add_left _ _)

theorem processUpdate_keeps (c : Client K V τ F) (reply : Reply K V τ) :
    ({ c with request := .none }.processUpdate reply).keyListeners = c.keyListeners ∧
    ({ c with request := .none }.processUpdate reply).snapshotIds = c.snapshotIds ∧
    ({ c with request := .none }.processUpdate reply).calls = c.calls ∧
    ({ c with request := .none }.processUpdate reply).request = .none ∧
    ({ c with request := .none }.processUpdate reply).eventLoop.filterMap Callable.update? =
      c.eventLoop.filterMap Callable.update? ∧
    (∀ callback key update n, .chained callback key update n ∈
      ({ c with request := .none }.processUpdate reply).eventLoop →
      .chained callback key update n ∈ c.eventLoop) := by
  cases reply with
  | taskError =>
    refine ⟨rfl, rfl, rfl, rfl, ?_, fun _ _ _ _ hx => ?_⟩
    · rw [processUpdate, schedule, List.filterMap_append]
      exact List.append_nil _
    · simpa [processUpdate, schedule] using hx
  | timeOut =>
    refine ⟨rfl, rfl, rfl, rfl, ?_, fun _ _ _ _ hx => ?_⟩
    · rw [processUpdate, schedule, List.filterMap_append]
      exact List.append_nil _
    · simpa [processUpdate, schedule] using hx
  | updates updates =>
    rw [processUpdate]
    split_ifs
    · refine ⟨rfl, rfl, rfl, rfl, ?_, fun _ _ _ _ hx => ?_⟩
      · rw [schedule, List.filterMap_append]
        exact List.append_nil _
      · simpa [schedule] using hx
    · exact ⟨rfl, rfl, rfl, rfl, rfl, fun _ _ _ _ hx => hx⟩

theorem coming_processUpdate (h : c.Control) (hreq : c.request = .returned reply) :
    ({ c with request := .none }.processUpdate reply).coming = c.coming := by
  obtain ⟨_, hprocessing, _⟩ := h.of_request (by rw [hreq]; simp)
  have hnone := (processUpdate_keeps c reply).2.2.2.1
  unfold coming
  rw [hnone, hreq, hprocessing]
  cases reply with
  | taskError =>
    rw [processUpdate, schedule]
    rfl
  | timeOut =>
    rw [processUpdate, schedule]
    rfl
  | updates updates =>
    rw [processUpdate]
    exact List.append_nil _

section
variable [DecidableEq K]

/-- The id of the last update of a key, which is -1 before the first one. -/
def lastId (c : Client K V τ F) (k : K) : ℤ :=
  ((c.seen.filter (fun e => e.1 = k)).getLast?.map (fun e => e.2.snapshotId)).getD (-1)

theorem Control.processOne (h : c.Control) {key : K} {update : UpdatedObject V τ}
    {rest : List (K × UpdatedObject V τ)} {callback : F}
    (hprocessing : c.processing = (key, update) :: rest)
    (hcallback : c.keyListeners.get? key = some callback) :
    Control (c.processOne key update rest) := by
  cases h with
  | poll _ processing _ =>
    rw [processing] at hprocessing
    exact absurd hprocessing (List.cons_ne_nil _ _).symm
  | asked _ processing _ _ =>
    rw [processing] at hprocessing
    exact absurd hprocessing (List.cons_ne_nil _ _).symm
  | answering request loop count pos =>
    rw [hprocessing, List.length_cons] at count
    rw [Client.processOne]
    simp only [hcallback]
    refine .answering request (fun x hx => ?_) ?_ ?_
    · obtain hx | hx := List.mem_append.mp hx
      · exact loop x hx
      · exact ⟨callback, key, update, List.mem_singleton.mp hx⟩
    · simp only [schedule, List.length_append, List.length_singleton]
      omega
    · simp only [schedule, List.length_append, List.length_singleton]
      omega

end
end Client
end RayTfm.Serve.LongPoll
