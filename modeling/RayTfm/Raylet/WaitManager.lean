import RayTfm.Raylet.Check
import RayTfm.Lib.NestedDict
import RayTfm.Lib.Runs

/-! # The wait manager of the raylet

`WaitManager` (`raylet/wait_manager.cc`) answers each `Wait` once: as soon as enough of its objects
have been reported local, or when its timer expires.  `objectToWaitRequests` is the index from an
object to the pending waits that list it; a dictionary to `Unit` is a set of wait ids.

`WaitEvent` are the calls in any order: what `is_object_local_` says at the time of a `Wait`, and
the order in which the hash set of an object is visited, are part of the event.  The callback of a
wait is an output with the id of the wait.

`WaitCall` is what the caller knows of a wait: its arguments, which of its objects have been local
since, and whether its time is over (`track`).  A wait is pending exactly while it is not `Due`. -/

namespace RayTfm.Raylet

/-- A pending wait. -/
structure WaitRequest (O : Type) where
  timeoutMs : ℤ
  objectIds : List O
  numRequiredObjects : ℕ
  ready : Finset O

/-- The callback of a wait has been invoked. -/
structure WaitCallback (O : Type) where
  waitId : ℕ
  ready : List O
  remaining : List O

structure WaitManager (O : Type) where
  waitRequests : Dict ℕ (WaitRequest O)
  objectToWaitRequests : Dict O (Dict ℕ Unit)
  nextWaitId : ℕ
  /-- The waits whose timer is set and has not expired. -/
  timers : Finset ℕ

/-- An order in which the elements of a set are visited. -/
def VisitOrder : Type := {visit : List ℕ → List ℕ // ∀ l, (visit l).Perm l}

inductive WaitEvent (O : Type) where
  | wait (objectIds : List O) (timeoutMs : ℤ) (numRequiredObjects : ℕ) (isObjectLocal : O → Bool)
  | objectLocal (object : O) (order : VisitOrder)
  /-- The timer of a wait expires, if it has been set and has not expired before. -/
  | timerExpires (waitId : ℕ)

/-- What the callers of `Wait` have to provide. -/
def WaitEvent.Legal {O : Type} : WaitEvent O → Prop
  | .wait objectIds timeoutMs numRequiredObjects _ =>
    objectIds.Nodup ∧ (0 ≤ timeoutMs ∨ timeoutMs = -1) ∧ numRequiredObjects ≤ objectIds.length
  | _ => True

section
variable {O : Type} [DecidableEq O]

/-- The objects of a wait in the order of the input: the first ready ones, and the others. -/
def WaitRequest.order (r : WaitRequest O) : List O × List O :=
  r.objectIds.foldl (fun (ready, remaining) object =>
    if ready.length < r.numRequiredObjects ∧ object ∈ r.ready then (ready ++ [object], remaining)
    else (ready, remaining ++ [object])) ([], [])

/-- The callback with which a wait is completed. -/
def WaitRequest.callback (r : WaitRequest O) (waitId : ℕ) : WaitCallback O where
  waitId := waitId
  ready := r.order.1
  remaining := r.order.2

namespace WaitManager

def init : WaitManager O where
  waitRequests := Dict.empty
  objectToWaitRequests := Dict.empty
  nextWaitId := 0
  timers := ∅

/-- A completed wait leaves the set of one of its objects. -/
def unindex (waitId : ℕ) (index : Dict O (Dict ℕ Unit)) (object : O) :
    Except RayError (Dict O (Dict ℕ Unit)) := do
  let _requests ← rayFind (index.get? object) "unordered_map::at"
  .ok (Nested.remove index object waitId)

def waitComplete (m : WaitManager O) (waitId : ℕ) :
    Except RayError (WaitManager O × List (WaitCallback O)) := do
  let waitRequest ← rayFind (m.waitRequests.get? waitId) "Key doesn't exist"
  let index ← waitRequest.objectIds.foldlM (unindex waitId) m.objectToWaitRequests
  .ok ({ m with waitRequests := m.waitRequests.erase waitId, objectToWaitRequests := index },
    [waitRequest.callback waitId])

/-- A new wait is entered into both maps. -/
def register (m : WaitManager O) (waitRequest : WaitRequest O) : WaitManager O :=
  { m with
    nextWaitId := m.nextWaitId + 1
    waitRequests := m.waitRequests.set m.nextWaitId waitRequest
    objectToWaitRequests :=
      waitRequest.objectIds.foldl (fun index object => Nested.insert index object m.nextWaitId ())
        m.objectToWaitRequests }

def wait (m : WaitManager O) (objectIds : List O) (timeoutMs : ℤ) (numRequiredObjects : ℕ)
    (isObjectLocal : O → Bool) : Except RayError (WaitManager O × List (WaitCallback O)) := do
  rayCheck (objectIds.toFinset.card = objectIds.length)
    "Waiting duplicate objects is not allowed. Please make sure all object IDs are unique before calling `WaitManager::Wait`."
  rayCheck (0 ≤ timeoutMs ∨ timeoutMs = -1) "timeout_ms >= 0 || timeout_ms == -1"
  rayCheck (numRequiredObjects ≤ objectIds.length) "num_required_objects <= object_ids.size()"
  let waitId := m.nextWaitId
  let waitRequest : WaitRequest O :=
    { timeoutMs := timeoutMs
      objectIds := objectIds
      numRequiredObjects := numRequiredObjects
      ready := (objectIds.filter isObjectLocal).toFinset }
  let m := m.register waitRequest
  if numRequiredObjects ≤ waitRequest.ready.card ∨ timeoutMs = 0 then m.waitComplete waitId
  else if timeoutMs ≠ -1 then .ok ({ m with timers := insert waitId m.timers }, [])
  else .ok (m, [])

/-- The function that the timer of a wait calls. -/
def timerExpires (m : WaitManager O) (waitId : ℕ) :
    Except RayError (WaitManager O × List (WaitCallback O)) :=
  if waitId ∈ m.timers then
    let m := { m with timers := m.timers.erase waitId }
    match m.waitRequests.get? waitId with
    | none => .ok (m, [])
    | some _ => m.waitComplete waitId
  else .ok (m, [])

/-- A round of the first loop of `HandleObjectLocal`: a wait gets one more object, and is to be
completed when it has enough. -/
def markReady (object : O) (acc : Dict ℕ (WaitRequest O) × List ℕ) (waitId : ℕ) :
    Except RayError (Dict ℕ (WaitRequest O) × List ℕ) := do
  let waitRequest ← rayFind (acc.1.get? waitId) "Key doesn't exist"
  let waitRequest := { waitRequest with ready := insert object waitRequest.ready }
  .ok (acc.1.set waitId waitRequest,
    if waitRequest.numRequiredObjects ≤ waitRequest.ready.card then acc.2 ++ [waitId] else acc.2)

def handleObjectLocal (m : WaitManager O) (object : O) (order : VisitOrder) :
    Except RayError (WaitManager O × List (WaitCallback O)) :=
  match m.objectToWaitRequests.get? object with
  | none => .ok (m, [])
  | some waits => do
      let (waitRequests, completeWaits) ← (order.val waits.keys).foldlM (markReady object)
        (m.waitRequests, [])
      runSteps waitComplete { m with waitRequests := waitRequests } completeWaits

def step (m : WaitManager O) : WaitEvent O → Except RayError (WaitManager O × List (WaitCallback O))
  | .wait objectIds timeoutMs numRequiredObjects isObjectLocal =>
    m.wait objectIds timeoutMs numRequiredObjects isObjectLocal
  | .objectLocal object order => m.handleObjectLocal object order
  | .timerExpires waitId => m.timerExpires waitId

end WaitManager

/-! ### The objects of a callback -/

/-- The fold of `order`: both lists are in the order of the input, and the first has the ready
objects up to the required number. -/
theorem order_spec (r : WaitRequest O) :
    r.order.1.Sublist r.objectIds ∧ r.order.2.Sublist r.objectIds ∧
      (r.order.1 ++ r.order.2).Perm r.objectIds ∧ (∀ o ∈ r.order.1, o ∈ r.ready) ∧
      r.order.1.length = min r.numRequiredObjects (r.objectIds.filter (· ∈ r.ready)).length := by
  unfold WaitRequest.order
  generalize r.objectIds = l
  induction l using List.reverseRecOn with
  | nil => simp
  | append_singleton l o ih =>
    rw [List.foldl_append, List.foldl_cons, List.foldl_nil]
    generalize l.foldl _ _ = acc at ih ⊢
    obtain ⟨ready, remaining⟩ := acc
    obtain ⟨hready, hremaining, hperm, hmem, hlen⟩ := ih
    simp only at hready hremaining hperm hmem hlen ⊢
    have hskip : l.Sublist (l ++ [o]) := List.sublist_append_left l [o]
    by_cases hmore : ready.length < r.numRequiredObjects ∧ o ∈ r.ready
    · rw [if_pos hmore]
      refine ⟨hready.append_right [o], hremaining.trans hskip, ?_, ?_, ?_⟩
      · have hmove : (ready ++ [o] ++ remaining).Perm (ready ++ remaining ++ [o]) := by
          rw [List.append_assoc, List.append_assoc]
          exact (List.perm_append_comm).append_left ready
        exact hmove.trans (hperm.append_right [o])
      · intro x hx
        obtain hx | hx := List.mem_append.mp hx
        · exact hmem x hx
        · exact List.mem_singleton.mp hx ▸ hmore.2
      · rw [List.filter_append, List.filter_singleton, List.length_append, List.length_append, hlen]
        have hlt := hmore.1
        rw [hlen] at hlt
        simp only [hmore.2, decide_true, cond_true, List.length_singleton]
        omega
    · rw [if_neg hmore]
      refine ⟨hready.trans hskip, hremaining.append_right [o], ?_, hmem, ?_⟩
      · rw [← List.append_assoc]
        exact hperm.append_right [o]
      · rw [List.filter_append, List.filter_singleton, List.length_append, hlen]
        by_cases ho : o ∈ r.ready
        · have hge : ¬ ready.length < r.numRequiredObjects := fun hlt => hmore ⟨hlt, ho⟩
          rw [hlen] at hge
          omega
        · simp [ho]

/-! ### The index -/

namespace WaitManager

variable {m m' : WaitManager O}

/-- The index lists exactly the pending waits, under each of their objects. -/
structure Indexed (m : WaitManager O) : Prop where
  index : ∀ object waitId, Nested.find? m.objectToWaitRequests object waitId = some () ↔
    ∃ r, m.waitRequests.get? waitId = some r ∧ object ∈ r.objectIds
  filled : Nested.Filled m.objectToWaitRequests
  nodup : ∀ waitId r, m.waitRequests.get? waitId = some r → r.objectIds.Nodup
  fresh : ∀ waitId r, m.waitRequests.get? waitId = some r → waitId < m.nextWaitId

theorem find?_insert_all (objectIds : List O) (waitId : ℕ) (index : Dict O (Dict ℕ Unit))
    (object : O) (id : ℕ) :
    Nested.find? (objectIds.foldl (fun index object => Nested.insert index object waitId ())
      index) object id =
      if object ∈ objectIds ∧ id = waitId then some () else Nested.find? index object id := by
  induction objectIds generalizing index with
  | nil => rw [List.foldl_nil, if_neg (fun h => List.not_mem_nil h.1)]
  | cons o l ih =>
    rw [List.foldl_cons, ih, Nested.find?_insert]
    by_cases hl : object ∈ l ∧ id = waitId
    · rw [if_pos hl, if_pos ⟨.tail _ hl.1, hl.2⟩]
    · rw [if_neg hl]
      by_cases ho : object = o ∧ id = waitId
      · rw [if_pos ho, if_pos ⟨by rw [ho.1]; exact List.mem_cons_self, ho.2⟩]
      · rw [if_neg ho, if_neg]
        rintro ⟨hmem, hid⟩
        obtain rfl | hmem := List.mem_cons.mp hmem
        · exact ho ⟨rfl, hid⟩
        · exact hl ⟨hmem, hid⟩

variable {waitId : ℕ} {index : Dict O (Dict ℕ Unit)}

theorem filled_insert_all {objectIds : List O} (h : Nested.Filled index) :
    Nested.Filled (objectIds.foldl (fun index object => Nested.insert index object waitId ())
      index) := by
  induction objectIds generalizing index with
  | nil => exact h
  | cons o l ih => exact ih h.insert

/-- The loop of `WaitComplete` over the index: every object of the wait is there. -/
theorem unindex_all {objectIds : List O} (hnodup : objectIds.Nodup)
    (hfilled : Nested.Filled index) (hfind : ∀ o ∈ objectIds, Nested.find? index o waitId = some ()) :
    ∃ index', objectIds.foldlM (unindex waitId) index = .ok index' ∧ Nested.Filled index' ∧
      ∀ object id, Nested.find? index' object id =
        if object ∈ objectIds ∧ id = waitId then none else Nested.find? index object id := by
  induction objectIds generalizing index with
  | nil => exact ⟨index, rfl, hfilled, fun o id => by rw [if_neg (fun h => List.not_mem_nil h.1)]⟩
  | cons o l ih =>
    obtain ⟨ho, hl⟩ := List.nodup_cons.mp hnodup
    have hrest : ∀ o' ∈ l, Nested.find? (Nested.remove index o waitId) o' waitId = some () := by
      intro o' ho'
      have hne : ¬ (o' = o ∧ waitId = waitId) := fun h => ho (h.1 ▸ ho')
      rw [Nested.find?_remove, if_neg hne]
      exact hfind o' (.tail _ ho')
    obtain ⟨index', hrun, hfilled', hspec⟩ := ih hl hfilled.remove hrest
    refine ⟨index', ?_, hfilled', ?_⟩
    · have hhere := hfind o (.head _)
      obtain ⟨requests, hget, -⟩ := Option.bind_eq_some_iff.mp hhere
      rw [List.foldlM_cons, unindex, hget]
      exact hrun
    · intro object id
      rw [hspec, Nested.find?_remove]
      by_cases hmem : object ∈ l ∧ id = waitId
      · rw [if_pos hmem, if_pos ⟨.tail _ hmem.1, hmem.2⟩]
      · rw [if_neg hmem]
        by_cases hhead : object = o ∧ id = waitId
        · rw [if_pos hhead, if_pos ⟨by rw [hhead.1]; exact List.mem_cons_self, hhead.2⟩]
        · rw [if_neg hhead, if_neg]
          rintro ⟨h, hid⟩
          obtain rfl | h := List.mem_cons.mp h
          · exact hhead ⟨rfl, hid⟩
          · exact hmem ⟨h, hid⟩

/-- A pending wait is completed: it is gone, and nothing else has changed. -/
theorem waitComplete_spec (h : m.Indexed) {r : WaitRequest O}
    (hr : m.waitRequests.get? waitId = some r) :
    ∃ m', m.waitComplete waitId = .ok (m', [r.callback waitId]) ∧ m'.Indexed ∧
      m'.waitRequests = m.waitRequests.erase waitId ∧ m'.nextWaitId = m.nextWaitId ∧
      m'.timers = m.timers := by
  obtain ⟨index, hrun, hfilled, hspec⟩ := unindex_all (h.nodup waitId r hr) h.filled
    (fun o ho => (h.index o waitId).mpr ⟨r, hr, ho⟩)
  have hsub : ∀ id r', (m.waitRequests.erase waitId).get? id = some r' →
    m.waitRequests.get? id = some r' := by
    intro id r' hget
    rw [Dict.get?_erase] at hget
    split_ifs at hget
    exact hget
  refine ⟨{ m with waitRequests := m.waitRequests.erase waitId, objectToWaitRequests := index }, ?_,
    ?_, rfl, rfl,
    rfl⟩
  · rw [waitComplete, hr, rayFind_some]
    show (r.objectIds.foldlM (unindex waitId) m.objectToWaitRequests >>= _) = _
    rw [hrun]
    rfl
  · constructor
    · intro object id
      rw [hspec, Dict.get?_erase]
      by_cases hid : id = waitId
      · subst hid
        rw [if_pos rfl]
        refine ⟨fun hsome => ?_, fun ⟨_, hnone, _⟩ => absurd hnone (by simp)⟩
        split_ifs at hsome with hobj
        obtain ⟨r', hr', hmem⟩ := (h.index object id).mp hsome
        rw [hr] at hr'
        cases hr'
        exact absurd ⟨hmem, rfl⟩ hobj
      · rw [if_neg hid, if_neg (fun hobj => hid hobj.2)]
        exact h.index object id
    · exact hfilled
    · exact fun id r' hget => h.nodup id r' (hsub id r' hget)
    · exact fun id r' hget => h.fresh id r' (hsub id r' hget)

theorem waitComplete_all {l : List ℕ} (h : m.Indexed) (hl : l.Nodup)
    (hpending : ∀ id ∈ l, ∃ r, m.waitRequests.get? id = some r) :
    ∃ m' out, runSteps waitComplete m l = .ok (m', out) ∧ m'.Indexed ∧
      (∀ id, m'.waitRequests.get? id = if id ∈ l then none else m.waitRequests.get? id) ∧
      m'.nextWaitId = m.nextWaitId ∧ m'.timers = m.timers ∧ out.map WaitCallback.waitId = l ∧
      ∀ c ∈ out, ∃ r, m.waitRequests.get? c.waitId = some r ∧ c = r.callback c.waitId := by
  induction l generalizing m with
  | nil => exact ⟨m, [], rfl, h, fun id => by rw [if_neg List.not_mem_nil], rfl, rfl, rfl, nofun⟩
  | cons waitId l ih =>
    obtain ⟨hnotin, hl⟩ := List.nodup_cons.mp hl
    obtain ⟨r, hr⟩ := hpending waitId (.head _)
    obtain ⟨m₁, hstep, hindexed, hrequests, hnext, htimers⟩ := waitComplete_spec h hr
    have hget : ∀ id ∈ l, m₁.waitRequests.get? id = m.waitRequests.get? id := by
      intro id hid
      have hne : id ≠ waitId := fun heq => hnotin (heq ▸ hid)
      rw [hrequests, Dict.get?_erase, if_neg hne]
    obtain ⟨m', out, hrun, hindexed', hrequests', hnext', htimers', hids, hout⟩ := ih hindexed hl (by
      intro id hid
      rw [hget id hid]
      exact hpending id (.tail _ hid))
    refine ⟨m', r.callback waitId :: out,
      runSteps_cons_eq_ok.mpr ⟨m₁, [r.callback waitId], out, hstep, hrun, rfl⟩, hindexed', ?_,
      hnext'.trans hnext, htimers'.trans htimers, ?_, ?_⟩
    · intro id
      rw [hrequests', hrequests, Dict.get?_erase]
      by_cases hid : id ∈ l
      · rw [if_pos hid, if_pos (.tail _ hid)]
      · rw [if_neg hid]
        by_cases hself : id = waitId
        · rw [if_pos hself, if_pos (by rw [hself]; exact List.mem_cons_self)]
        · rw [if_neg hself, if_neg (fun hmem => (List.mem_cons.mp hmem).elim hself hid)]
    · rw [List.map_cons, hids]
      rfl
    · intro c hc
      obtain rfl | hc := List.mem_cons.mp hc
      · exact ⟨r, hr, rfl⟩
      · obtain ⟨r', hr', heq⟩ := hout c hc
        have hid : c.waitId ∈ l := hids ▸ List.mem_map_of_mem hc
        exact ⟨r', hget _ hid ▸ hr', heq⟩

end WaitManager

/-! ### The waits as their callers know them -/

/-- A wait, and what has happened since. -/
structure WaitCall (O : Type) where
  objectIds : List O
  timeoutMs : ℤ
  numRequiredObjects : ℕ
  /-- The objects that were local at the call or have been reported local since. -/
  known : O → Bool
  /-- The timeout was zero, or it is over. -/
  expired : Bool

/-- The calls of `Wait` so far, in order, after one more event. -/
def track (calls : List (WaitCall O)) : WaitEvent O → List (WaitCall O)
  | .wait objectIds timeoutMs numRequiredObjects isObjectLocal =>
    calls ++ [⟨objectIds, timeoutMs, numRequiredObjects, isObjectLocal, decide (timeoutMs = 0)⟩]
  | .objectLocal object _ => calls.map
      (fun c => { c with known := fun o => decide (o = object) || c.known o })
  | .timerExpires waitId => calls.modify waitId
      (fun c => { c with expired := c.expired || decide (0 < c.timeoutMs) })

/-- The calls of a run; a wait id is a place in this list. -/
def waitCalls (events : List (WaitEvent O)) : List (WaitCall O) := events.foldl track []

namespace WaitCall

omit [DecidableEq O] in
/-- The wait has enough objects, or no more time. -/
def Due (c : WaitCall O) : Prop :=
  c.numRequiredObjects ≤ (c.objectIds.filter c.known).length ∨ c.expired = true

omit [DecidableEq O] in
/-- What a callback has to say to a wait. -/
structure Answer (c : WaitCall O) (answer : WaitCallback O) : Prop where
  ready : answer.ready.Sublist c.objectIds
  remaining : answer.remaining.Sublist c.objectIds
  partition : (answer.ready ++ answer.remaining).Perm c.objectIds
  known : ∀ o ∈ answer.ready, c.known o = true
  length_le : answer.ready.length ≤ c.numRequiredObjects
  length_eq : answer.ready.length = c.numRequiredObjects ∨ c.expired = true

end WaitCall

/-- The entry of a pending wait agrees with its call. -/
structure WaitRequest.Of (r : WaitRequest O) (c : WaitCall O) : Prop where
  timeoutMs : r.timeoutMs = c.timeoutMs
  objectIds : r.objectIds = c.objectIds
  numRequiredObjects : r.numRequiredObjects = c.numRequiredObjects
  ready : r.ready = (c.objectIds.filter c.known).toFinset

namespace WaitRequest.Of

variable {r : WaitRequest O} {c : WaitCall O}

theorem mem_ready (h : r.Of c) {o : O} (ho : o ∈ c.objectIds) : o ∈ r.ready ↔ c.known o = true := by
  rw [h.ready, List.mem_toFinset, List.mem_filter]
  exact ⟨fun h => h.2, fun h => ⟨ho, h⟩⟩

theorem card_ready (h : r.Of c) (hnodup : r.objectIds.Nodup) :
    r.ready.card = (c.objectIds.filter c.known).length := by
  rw [h.objectIds] at hnodup
  rw [h.ready, List.toFinset_card_of_nodup (hnodup.filter _)]

theorem due_iff (h : r.Of c) (hnodup : r.objectIds.Nodup) :
    c.Due ↔ r.numRequiredObjects ≤ r.ready.card ∨ c.expired = true := by
  rw [WaitCall.Due, h.card_ready hnodup, h.numRequiredObjects]

theorem answer (h : r.Of c) (hdue : c.Due) (waitId : ℕ) : c.Answer (r.callback waitId) := by
  obtain ⟨hready, hremaining, hperm, hmem, hlen⟩ := order_spec r
  have hfilter : r.objectIds.filter (· ∈ r.ready) = c.objectIds.filter c.known := by
    rw [h.objectIds]
    apply List.filter_congr
    intro o ho
    rw [Bool.eq_iff_iff, decide_eq_true_iff]
    exact h.mem_ready ho
  rw [hfilter, h.numRequiredObjects] at hlen
  rw [h.objectIds] at hready hremaining hperm
  refine ⟨hready, hremaining, hperm, fun o ho => ?_, ?_, ?_⟩
  · exact (h.mem_ready (hready.subset ho)).mp (hmem o ho)
  · exact hlen.trans_le (min_le_left _ _)
  · obtain henough | hexpired := hdue
    · exact .inl (hlen.trans (min_eq_left henough))
    · exact .inr hexpired

end WaitRequest.Of

namespace WaitManager

variable {m m' : WaitManager O} {calls : List (WaitCall O)} {out : List (WaitCallback O)}

/-- The pending waits are the calls that have not been answered. -/
structure Tracks (calls : List (WaitCall O)) (m : WaitManager O) (out : List (WaitCallback O)) :
    Prop where
  indexed : m.Indexed
  next : m.nextWaitId = calls.length
  pending : ∀ id r, m.waitRequests.get? id = some r → ∃ c, calls[id]? = some c ∧ r.Of c
  timer_pos : ∀ id ∈ m.timers, ∃ c, calls[id]? = some c ∧ 0 < c.timeoutMs
  timer_set : ∀ id r c, m.waitRequests.get? id = some r → calls[id]? = some c → 0 < c.timeoutMs →
    id ∈ m.timers ∨ c.Due
  answered : ∀ id, id ∈ out.map WaitCallback.waitId ↔ id < calls.length ∧ m.waitRequests.get? id = none
  once : (out.map WaitCallback.waitId).Nodup

/-- No pending wait is due. -/
structure Settled (calls : List (WaitCall O)) (m : WaitManager O) (out : List (WaitCallback O)) : Prop
    extends Tracks calls m out where
  not_due : ∀ id r c, m.waitRequests.get? id = some r → calls[id]? = some c → ¬ c.Due

theorem init_settled : Settled [] (init : WaitManager O) [] where
  indexed := by
    refine ⟨fun o id => ⟨nofun, ?_⟩, Nested.filled_empty, nofun, nofun⟩
    rintro ⟨r, hr, -⟩
    cases hr
  next := rfl
  pending := nofun
  timer_pos := fun id h => absurd h (Finset.notMem_empty id)
  timer_set := nofun
  answered := fun id => ⟨nofun, fun h => absurd h.1 (Nat.not_lt_zero id)⟩
  once := List.nodup_nil
  not_due := nofun

theorem Tracks.settle (h : Tracks calls m out) {ids : List ℕ} (hids : ids.Nodup)
    (hpending : ∀ id ∈ ids, ∃ r, m.waitRequests.get? id = some r)
    (hdue : ∀ id r c, m.waitRequests.get? id = some r → calls[id]? = some c → (id ∈ ids ↔ c.Due)) :
    ∃ m' o, runSteps waitComplete m ids = .ok (m', o) ∧ Settled calls m' (out ++ o) ∧
      ∀ a ∈ o, ∃ c, calls[a.waitId]? = some c ∧ c.Answer a := by
  obtain ⟨m', o, hrun, hindexed, hrequests, hnext, htimers, hout, hanswer⟩ :=
    waitComplete_all h.indexed hids hpending
  have hsub : ∀ id r, m'.waitRequests.get? id = some r → id ∉ ids ∧
    m.waitRequests.get? id = some r := by
    intro id r hr
    rw [hrequests] at hr
    split_ifs at hr with hid
    exact ⟨hid, hr⟩
  refine ⟨m', o, hrun, ?_, ?_⟩
  · constructor
    · constructor
      · exact hindexed
      · exact hnext.trans h.next
      · exact fun id r hr => h.pending id r (hsub id r hr).2
      · rw [htimers]
        exact h.timer_pos
      · rw [htimers]
        exact fun id r c hr => h.timer_set id r c (hsub id r hr).2
      · intro id
        rw [List.map_append, List.mem_append, hout, h.answered, hrequests]
        by_cases hid : id ∈ ids
        · obtain ⟨r, hr⟩ := hpending id hid
          have hlt := h.next ▸ h.indexed.fresh id r hr
          simp [hid, hlt]
        · simp [hid]
      · rw [List.map_append, List.nodup_append, hout]
        refine ⟨h.once, hids, ?_⟩
        rintro id hid _ hid' rfl
        obtain ⟨r, hr⟩ := hpending id hid'
        rw [((h.answered id).mp hid).2] at hr
        cases hr
    · intro id r c hr hc
      obtain ⟨hid, hr⟩ := hsub id r hr
      exact fun hd => hid ((hdue id r c hr hc).mpr hd)
  · intro a ha
    obtain ⟨r, hr, heq⟩ := hanswer a ha
    obtain ⟨c, hc, hof⟩ := h.pending _ r hr
    have hid : a.waitId ∈ ids := hout ▸ List.mem_map_of_mem ha
    rw [heq]
    exact ⟨c, hc, hof.answer ((hdue _ r c hr hc).mp hid) _⟩

/-! ### What an event does -/

/-- After an event no pending wait is due, and the callbacks of the event answer their waits. -/
def Answered (calls : List (WaitCall O)) (m : WaitManager O) (out o : List (WaitCallback O)) : Prop :=
  Settled calls m (out ++ o) ∧ ∀ a ∈ o, ∃ c, calls[a.waitId]? = some c ∧ c.Answer a

theorem Settled.answered_nil (h : Settled calls m out) : Answered calls m out [] := by
  refine ⟨?_, nofun⟩
  rwa [List.append_nil]

theorem Tracks.settle_one (h : Tracks calls m out) {id : ℕ} {r : WaitRequest O}
    (hr : m.waitRequests.get? id = some r)
    (hdue : ∀ id' r c, m.waitRequests.get? id' = some r → calls[id']? = some c → (id' = id ↔ c.Due)) :
    ∃ m' o, m.waitComplete id = .ok (m', o) ∧ Answered calls m' out o := by
  obtain ⟨m', o, hrun, hsettled, hanswer⟩ := h.settle (List.nodup_singleton id)
    (fun id' hid' => ⟨r, by rw [List.mem_singleton.mp hid', hr]⟩)
    (fun id' r c hr hc => by rw [List.mem_singleton, hdue id' r c hr hc])
  obtain ⟨m₁, o₁, o₂, hstep, hnil, rfl⟩ := runSteps_cons_eq_ok.mp hrun
  cases hnil
  rw [List.append_nil] at hsettled hanswer
  exact ⟨m', o₁, hstep, hsettled, hanswer⟩

variable {objectIds : List O}
variable {numRequiredObjects : ℕ} {isObjectLocal : O → Bool}
  {r : WaitManager O × List (WaitCallback O)}

theorem legal_of_wait_eq_ok {timeoutMs : ℤ}
    (h : m.wait objectIds timeoutMs numRequiredObjects isObjectLocal = .ok r) :
    (WaitEvent.wait objectIds timeoutMs numRequiredObjects isObjectLocal).Legal := by
  obtain ⟨_, hdistinct, h⟩ := bind_eq_ok.mp h
  obtain ⟨_, htimeout, h⟩ := bind_eq_ok.mp h
  obtain ⟨_, hnum, -⟩ := bind_eq_ok.mp h
  rw [rayCheck_eq_ok, decide_eq_true_iff] at hdistinct htimeout hnum
  exact ⟨Multiset.toFinset_card_eq_card_iff_nodup.mp hdistinct, htimeout, hnum⟩

theorem get?_register (m : WaitManager O) (r : WaitRequest O) (id : ℕ) :
    (m.register r).waitRequests.get? id = if id = m.nextWaitId then some r
      else m.waitRequests.get? id :=
  Dict.get?_set _ _ _ _

theorem Settled.enter (h : Settled calls m out) (hnodup : objectIds.Nodup) (timeoutMs : ℤ)
    (numRequiredObjects : ℕ) (isObjectLocal : O → Bool) {timers : Finset ℕ}
    (htimers : ∀ id, id ∈ timers → id ∈ m.timers ∨ id = m.nextWaitId ∧ 0 < timeoutMs)
    (hkept : m.timers ⊆ timers)
    (hset : 0 < timeoutMs → m.nextWaitId ∈ timers ∨
      numRequiredObjects ≤ (objectIds.filter isObjectLocal).length) :
    Tracks (track calls (.wait objectIds timeoutMs numRequiredObjects isObjectLocal))
      { m.register ⟨timeoutMs, objectIds, numRequiredObjects,
        (objectIds.filter isObjectLocal).toFinset⟩ with
        timers := timers } out := by
  have hold : ∀ id r, m.waitRequests.get? id = some r → id ≠ m.nextWaitId :=
    fun id r hr => Nat.ne_of_lt (h.indexed.fresh id r hr)
  have hcall : ∀ (id : ℕ) (c : WaitCall O), calls[id]? = some c →
      (track calls (.wait objectIds timeoutMs numRequiredObjects isObjectLocal))[id]? = some c := by
    intro id c hc
    rw [track, List.getElem?_append_left (List.getElem?_eq_some_iff.mp hc).1, hc]
  have hnew : (track calls
    (.wait objectIds timeoutMs numRequiredObjects isObjectLocal))[m.nextWaitId]? =
      some ⟨objectIds, timeoutMs, numRequiredObjects, isObjectLocal, decide (timeoutMs = 0)⟩ := by
    rw [track, h.next, List.getElem?_concat_length]
  constructor
  · constructor
    · intro object id
      show Nested.find? (objectIds.foldl _ _) object id = some () ↔
        ∃ r, (m.register _).waitRequests.get? id = _ ∧ _
      rw [find?_insert_all, get?_register]
      by_cases hid : id = m.nextWaitId
      · rw [if_pos hid]
        constructor
        · intro hfind
          split_ifs at hfind with hobj
          · exact ⟨_, rfl, hobj.1⟩
          · obtain ⟨r, hr, -⟩ := (h.indexed.index object id).mp hfind
            exact absurd hid (hold id r hr)
        · rintro ⟨r, hr, hmem⟩
          cases hr
          rw [if_pos ⟨hmem, hid⟩]
      · rw [if_neg hid, if_neg (fun hobj => hid hobj.2)]
        exact h.indexed.index object id
    · exact filled_insert_all h.indexed.filled
    · intro id r hr
      rw [get?_register] at hr
      split_ifs at hr
      · cases hr
        exact hnodup
      · exact h.indexed.nodup id r hr
    · intro id r hr
      rw [get?_register] at hr
      split_ifs at hr with hid
      · rw [hid]
        exact Nat.lt_succ_self _
      · exact Nat.lt_succ_of_lt (h.indexed.fresh id r hr)
  · rw [track, List.length_append, ← h.next]
    rfl
  · intro id r hr
    rw [get?_register] at hr
    split_ifs at hr with hid
    · cases hr
      rw [hid]
      exact ⟨_, hnew, ⟨rfl, rfl, rfl, rfl⟩⟩
    · obtain ⟨c, hc, hof⟩ := h.pending id r hr
      exact ⟨c, hcall id c hc, hof⟩
  · intro id hid
    obtain hid | ⟨rfl, hpos⟩ := htimers id hid
    · obtain ⟨c, hc, hpos⟩ := h.timer_pos id hid
      exact ⟨c, hcall id c hc, hpos⟩
    · exact ⟨_, hnew, hpos⟩
  · intro id r c hr hc hpos
    rw [get?_register] at hr
    split_ifs at hr with hid
    · rw [hid, hnew] at hc
      cases hc
      rw [hid]
      exact (hset hpos).imp_right .inl
    · obtain ⟨c', hc', -⟩ := h.pending id r hr
      rw [hcall id c' hc'] at hc
      cases hc
      exact (h.timer_set id r c hr hc' hpos).imp_left (fun hmem => hkept hmem)
  · intro id
    rw [h.answered, track, List.length_append, List.length_singleton]
    rw [get?_register]
    by_cases hid : id = m.nextWaitId
    · rw [if_pos hid, hid, h.next]
      simp
    · rw [if_neg hid]
      rw [h.next] at hid
      constructor
      · exact fun h => ⟨Nat.lt_succ_of_lt h.1, h.2⟩
      · rintro ⟨hlt, hnone⟩
        exact ⟨by omega, hnone⟩
  · exact h.once

theorem wait_spec (h : Settled calls m out) {timeoutMs : ℤ}
    (hlegal : (WaitEvent.wait objectIds timeoutMs numRequiredObjects isObjectLocal).Legal) :
    ∃ m' o, m.wait objectIds timeoutMs numRequiredObjects isObjectLocal = .ok (m', o) ∧
      Answered (track calls (.wait objectIds timeoutMs numRequiredObjects isObjectLocal)) m' out o := by
  obtain ⟨hnodup, htimeout, hnum⟩ := hlegal
  have hcard : (objectIds.filter isObjectLocal).toFinset.card =
    (objectIds.filter isObjectLocal).length :=
    List.toFinset_card_of_nodup (hnodup.filter _)
  have hnew : (track calls
    (.wait objectIds timeoutMs numRequiredObjects isObjectLocal))[m.nextWaitId]? =
      some ⟨objectIds, timeoutMs, numRequiredObjects, isObjectLocal, decide (timeoutMs = 0)⟩ := by
    rw [track, h.next, List.getElem?_concat_length]
  -- of the waits before, none has become due
  have hold : ∀ id r c, id ≠ m.nextWaitId → m.waitRequests.get? id = some r →
      (track calls (.wait objectIds timeoutMs numRequiredObjects isObjectLocal))[id]? = some c →
      ¬ c.Due := by
    intro id r c _ hr hc
    have hlt := h.next ▸ h.indexed.fresh id r hr
    rw [track, List.getElem?_append_left hlt] at hc
    exact h.not_due id r c hr hc
  rw [wait, List.toFinset_card_of_nodup hnodup, decide_eq_true rfl, decide_eq_true htimeout,
    decide_eq_true hnum]
  simp only [rayCheck_true, bind, Except.bind]
  rw [hcard]
  by_cases hdue : numRequiredObjects ≤ (objectIds.filter isObjectLocal).length ∨ timeoutMs = 0
  · rw [if_pos hdue]
    refine Tracks.settle_one
      (h.enter hnodup timeoutMs numRequiredObjects isObjectLocal (fun id => .inl) subset_rfl
      ?_) (Dict.get?_set_self _ _ _) ?_
    · intro hpos
      exact .inr (hdue.resolve_right (ne_of_gt hpos))
    · intro id r c hr hc
      by_cases hid : id = m.nextWaitId
      · rw [hid, hnew] at hc
        cases hc
        exact ⟨fun _ => hdue.imp_right decide_eq_true, fun _ => hid⟩
      · change (m.register _).waitRequests.get? id = some r at hr
        rw [get?_register, if_neg hid] at hr
        exact ⟨fun heq => absurd heq hid, fun hd => absurd hd (hold id r c hid hr hc)⟩
  · rw [if_neg hdue]
    rw [not_or] at hdue
    have hsettled : ∀ timers : Finset ℕ,
        Tracks (track calls (.wait objectIds timeoutMs numRequiredObjects isObjectLocal))
          { m.register ⟨timeoutMs, objectIds, numRequiredObjects,
            (objectIds.filter isObjectLocal).toFinset⟩ with
            timers := timers } out →
        Answered (track calls (.wait objectIds timeoutMs numRequiredObjects isObjectLocal))
          { m.register ⟨timeoutMs, objectIds, numRequiredObjects,
            (objectIds.filter isObjectLocal).toFinset⟩ with
            timers := timers } out [] := by
      intro timers htracks
      refine Settled.answered_nil { htracks with not_due := ?_ }
      intro id r c hr hc
      by_cases hid : id = m.nextWaitId
      · rw [hid, hnew] at hc
        cases hc
        exact fun hd => hd.elim hdue.1 (fun hexp => hdue.2 (of_decide_eq_true hexp))
      · change (m.register _).waitRequests.get? id = some r at hr
        rw [get?_register, if_neg hid] at hr
        exact hold id r c hid hr hc
    by_cases htimer : timeoutMs ≠ -1
    · rw [if_pos htimer]
      have hpos : 0 < timeoutMs := by omega
      refine ⟨_, _, rfl, hsettled _ (h.enter hnodup timeoutMs numRequiredObjects isObjectLocal ?_
        (Finset.subset_insert _ _) (fun _ => .inl (Finset.mem_insert_self _ _)))⟩
      intro id hid
      obtain rfl | hid := Finset.mem_insert.mp hid
      · exact .inr ⟨rfl, hpos⟩
      · exact .inl hid
    · rw [if_neg htimer]
      refine ⟨_, _, rfl, hsettled _ (h.enter hnodup timeoutMs numRequiredObjects isObjectLocal
        (fun id => .inl)
        subset_rfl ?_)⟩
      intro hpos
      omega

/-- The first loop of `HandleObjectLocal`: every wait in the set gets the object, and those that
then have enough are collected. -/
theorem markReady_all (object : O) {l : List ℕ} (hl : l.Nodup) (acc : Dict ℕ (WaitRequest O) × List ℕ)
    (hpending : ∀ id ∈ l, ∃ r, acc.1.get? id = some r) :
    ∃ requests complete, l.foldlM (markReady object) acc = .ok (requests, acc.2 ++ complete) ∧
      complete.Sublist l ∧
      (∀ id, requests.get? id =
        if id ∈ l then (acc.1.get? id).map (fun r => { r with ready := insert object r.ready })
        else acc.1.get? id) ∧
      ∀ id ∈ l, ∀ r, acc.1.get? id = some r →
        (id ∈ complete ↔ r.numRequiredObjects ≤ (insert object r.ready).card) := by
  induction l generalizing acc with
  | nil =>
    refine ⟨acc.1, [], ?_, List.Sublist.refl _, fun id => by rw [if_neg List.not_mem_nil], nofun⟩
    rw [List.append_nil]
    rfl
  | cons waitId l ih =>
    obtain ⟨hnotin, hl⟩ := List.nodup_cons.mp hl
    obtain ⟨r, hr⟩ := hpending waitId (.head _)
    have hstep : ∃ first, markReady object acc waitId =
        .ok (acc.1.set waitId { r with ready := insert object r.ready }, acc.2 ++ first) ∧
        first.Sublist [waitId] ∧
        (waitId ∈ first ↔ r.numRequiredObjects ≤ (insert object r.ready).card) := by
      rw [markReady, hr]
      by_cases henough : r.numRequiredObjects ≤ (insert object r.ready).card
      · refine ⟨[waitId], ?_, .refl _, by simp [henough]⟩
        simp only [rayFind_some, bind, Except.bind, henough, if_true]
      · refine ⟨[], ?_, List.nil_sublist _, by simp [henough]⟩
        simp only [rayFind_some, bind, Except.bind, henough, if_false, List.append_nil]
    obtain ⟨first, hstep, hfirst, hmem⟩ := hstep
    have hother : ∀ id ∈ l, (acc.1.set waitId { r with ready := insert object r.ready }).get? id =
        acc.1.get? id := by
      intro id hid
      have hne : id ≠ waitId := fun heq => hnotin (heq ▸ hid)
      rw [Dict.get?_set, if_neg hne]
    obtain ⟨requests, complete, hrun, hsub, hrequests, hcomplete⟩ := ih hl
      (acc.1.set waitId { r with ready := insert object r.ready }, acc.2 ++ first) (by
        intro id hid
        obtain ⟨r', hr'⟩ := hpending id (.tail _ hid)
        exact ⟨r', (hother id hid).trans hr'⟩)
    refine ⟨requests, first ++ complete, ?_, ?_, ?_, ?_⟩
    · rw [List.foldlM_cons, hstep, ← List.append_assoc]
      exact hrun
    · exact hfirst.append hsub
    · intro id
      rw [hrequests]
      by_cases hid : id ∈ l
      · rw [if_pos hid, if_pos (.tail _ hid), hother id hid]
      · rw [if_neg hid, Dict.get?_set]
        by_cases hself : id = waitId
        · subst hself
          rw [if_pos rfl, if_pos List.mem_cons_self, hr]
          rfl
        · rw [if_neg hself, if_neg (fun h => (List.mem_cons.mp h).elim hself hid)]
    · intro id hid r' hr'
      rw [List.mem_append]
      obtain rfl | hid := List.mem_cons.mp hid
      · rw [hr] at hr'
        cases hr'
        rw [hmem]
        exact ⟨fun h => h.resolve_right (fun hc => hnotin (hsub.subset hc)), .inl⟩
      · rw [← hcomplete id hid r' ((hother id hid).trans hr')]
        refine ⟨fun h => h.resolve_left (fun hf => ?_), .inr⟩
        exact hnotin (List.mem_singleton.mp (hfirst.subset hf) ▸ hid)

theorem known_toFinset (objectIds : List O) (known : O → Bool) (object : O) :
    (objectIds.filter (fun o => decide (o = object) || known o)).toFinset =
      if object ∈ objectIds then insert object (objectIds.filter known).toFinset
      else (objectIds.filter known).toFinset := by
  ext o
  by_cases hobject : object ∈ objectIds
  · rw [if_pos hobject, List.mem_toFinset, List.mem_filter, Finset.mem_insert, List.mem_toFinset,
      List.mem_filter, Bool.or_eq_true, decide_eq_true_iff]
    constructor
    · rintro ⟨ho, heq | hknown⟩
      · exact .inl heq
      · exact .inr ⟨ho, hknown⟩
    · rintro (rfl | ⟨ho, hknown⟩)
      · exact ⟨hobject, .inl rfl⟩
      · exact ⟨ho, .inr hknown⟩
  · rw [if_neg hobject, List.mem_toFinset, List.mem_filter, List.mem_toFinset, List.mem_filter,
      Bool.or_eq_true, decide_eq_true_iff]
    constructor
    · rintro ⟨ho, rfl | hknown⟩
      · exact absurd ho hobject
      · exact ⟨ho, hknown⟩
    · rintro ⟨ho, hknown⟩
      exact ⟨ho, .inr hknown⟩

theorem Settled.mark (h : Settled calls m out) {object : O} (order : VisitOrder)
    {requests : Dict ℕ (WaitRequest O)}
    (hrequests : ∀ id, requests.get? id = (m.waitRequests.get? id).map (fun r =>
      { r with ready := if object ∈ r.objectIds then insert object r.ready else r.ready })) :
    Tracks (track calls (.objectLocal object order)) { m with waitRequests := requests } out := by
  have hback : ∀ id r, requests.get? id = some r → ∃ r₀, m.waitRequests.get? id = some r₀ ∧
      r = { r₀ with ready := if object ∈ r₀.objectIds then insert object r₀.ready else r₀.ready } := by
    intro id r hr
    rw [hrequests, Option.map_eq_some_iff] at hr
    obtain ⟨r₀, hr₀, rfl⟩ := hr
    exact ⟨r₀, hr₀, rfl⟩
  have hcall : ∀ id : ℕ, (track calls (.objectLocal object order))[id]? =
      calls[id]?.map (fun c => { c with known := fun o => decide (o = object) || c.known o }) :=
    fun id => List.getElem?_map
  have hcall' : ∀ (id : ℕ) (c : WaitCall O), calls[id]? = some c →
    (track calls (.objectLocal object order))[id]? =
      some { c with known := fun o => decide (o = object) || c.known o } := by
    intro id c hc
    rw [hcall, hc, Option.map_some]
  constructor
  · constructor
    · intro o id
      rw [h.indexed.index]
      constructor
      · rintro ⟨r, hr, hmem⟩
        have hmarked : requests.get? id = some { r with
            ready := if object ∈ r.objectIds then insert object r.ready else r.ready } := by
          rw [hrequests, hr]
          rfl
        exact ⟨_, hmarked, hmem⟩
      · rintro ⟨r, hr, hmem⟩
        obtain ⟨r₀, hr₀, rfl⟩ := hback id r hr
        exact ⟨r₀, hr₀, hmem⟩
    · exact h.indexed.filled
    · intro id r hr
      obtain ⟨r₀, hr₀, rfl⟩ := hback id r hr
      exact h.indexed.nodup id r₀ hr₀
    · intro id r hr
      obtain ⟨r₀, hr₀, -⟩ := hback id r hr
      exact h.indexed.fresh id r₀ hr₀
  · rw [track, List.length_map]
    exact h.next
  · intro id r hr
    obtain ⟨r₀, hr₀, rfl⟩ := hback id r hr
    obtain ⟨c, hc, hof⟩ := h.pending id r₀ hr₀
    refine ⟨_, hcall' id c hc, hof.timeoutMs, hof.objectIds, hof.numRequiredObjects, ?_⟩
    rw [known_toFinset, ← hof.ready, hof.objectIds]
  · intro id hid
    obtain ⟨c, hc, hpos⟩ := h.timer_pos id hid
    exact ⟨_, hcall' id c hc, hpos⟩
  · intro id r c hr hc hpos
    obtain ⟨r₀, hr₀, -⟩ := hback id r hr
    rw [hcall, Option.map_eq_some_iff] at hc
    obtain ⟨c₀, hc₀, rfl⟩ := hc
    exact .inl ((h.timer_set id r₀ c₀ hr₀ hc₀ hpos).resolve_right (h.not_due id r₀ c₀ hr₀ hc₀))
  · intro id
    rw [h.answered, track, List.length_map]
    rw [hrequests, Option.map_eq_none_iff]
  · exact h.once

theorem Settled.due_mark (h : Settled calls m out) {object : O} {order : VisitOrder} {id : ℕ}
    {r : WaitRequest O}
    {c : WaitCall O} (hr : m.waitRequests.get? id = some r)
    (hc : (track calls (.objectLocal object order))[id]? = some c) :
    c.Due ↔ object ∈ r.objectIds ∧ r.numRequiredObjects ≤ (insert object r.ready).card := by
  obtain ⟨c₀, hc₀, hof⟩ := h.pending id r hr
  have hnodup := h.indexed.nodup id r hr
  have hnot := h.not_due id r c₀ hr hc₀
  rw [hof.due_iff hnodup, not_or] at hnot
  rw [track, List.getElem?_map, hc₀] at hc
  cases hc
  have hof' : WaitRequest.Of { r with ready := if object ∈ r.objectIds then insert object r.ready
    else r.ready }
      { c₀ with known := fun o => decide (o = object) || c₀.known o } := by
    refine ⟨hof.timeoutMs, hof.objectIds, hof.numRequiredObjects, ?_⟩
    rw [known_toFinset, ← hof.ready, hof.objectIds]
  rw [hof'.due_iff hnodup]
  by_cases hobject : object ∈ r.objectIds
  · simp only [hobject, if_true, true_and]
    exact or_iff_left hnot.2
  · simp only [hobject, if_false, false_and, iff_false]
    exact not_or.mpr hnot

theorem handleObjectLocal_spec (h : Settled calls m out) (object : O) (order : VisitOrder) :
    ∃ m' o, m.handleObjectLocal object order = .ok (m', o) ∧
      Answered (track calls (.objectLocal object order)) m' out o := by
  unfold handleObjectLocal
  cases hget : m.objectToWaitRequests.get? object with
  | none =>
    have habsent : ∀ id r, m.waitRequests.get? id = some r → object ∉ r.objectIds := by
      intro id r hr hmem
      have hfind := (h.indexed.index object id).mpr ⟨r, hr, hmem⟩
      rw [Nested.find?, hget] at hfind
      cases hfind
    have hkept : ∀ id, m.waitRequests.get? id = (m.waitRequests.get? id).map (fun r =>
        { r with ready := if object ∈ r.objectIds then insert object r.ready else r.ready }) := by
      intro id
      cases hr : m.waitRequests.get? id with
      | none => rfl
      | some r => rw [Option.map_some, if_neg (habsent id r hr)]
    have htracks := h.mark order hkept
    refine ⟨m, [], rfl, Settled.answered_nil { htracks with not_due := ?_ }⟩
    intro id r c hr hc
    rw [h.due_mark hr hc]
    exact fun hdue => habsent id r hr hdue.1
  | some waits =>
    have hperm := order.property waits.keys
    have hmem : ∀ id, id ∈ order.val waits.keys ↔
        ∃ r, m.waitRequests.get? id = some r ∧ object ∈ r.objectIds := by
      intro id
      rw [hperm.mem_iff, ← h.indexed.index object id, Nested.find?, hget, Option.bind_some,
        ← Dict.get?_isSome_iff, Option.isSome_iff_exists]
      exact ⟨fun ⟨_, hv⟩ => hv, fun hv => ⟨(), hv⟩⟩
    obtain ⟨requests, complete, hrun, hsub, hrequests, hcomplete⟩ :=
      markReady_all object (hperm.nodup_iff.mpr waits.keys_nodup) (m.waitRequests, [])
        (fun id hid => ((hmem id).mp hid).imp (fun r hr => hr.1))
    have hmarked : ∀ id, requests.get? id = (m.waitRequests.get? id).map (fun r =>
        { r with ready := if object ∈ r.objectIds then insert object r.ready else r.ready }) := by
      intro id
      rw [hrequests]
      cases hr : m.waitRequests.get? id with
      | none => split_ifs <;> rfl
      | some r =>
        rw [Option.map_some, Option.map_some]
        by_cases hobject : object ∈ r.objectIds
        · rw [if_pos hobject, if_pos ((hmem id).mpr ⟨r, hr, hobject⟩)]
        · rw [if_neg hobject, if_neg]
          intro hid
          obtain ⟨r', hr', hobject'⟩ := (hmem id).mp hid
          rw [hr] at hr'
          cases hr'
          exact hobject hobject'
    have htracks := h.mark order hmarked
    have hdistinct : complete.Nodup := hsub.nodup (hperm.nodup_iff.mpr waits.keys_nodup)
    have hsettle := htracks.settle hdistinct ?_ ?_
    · obtain ⟨m', o, hcompleted, hanswered⟩ := hsettle
      refine ⟨m', o, ?_, hanswered⟩
      simp only [bind, Except.bind, hrun, List.nil_append, hcompleted]
    · intro id hid
      obtain ⟨r, hr, -⟩ := (hmem id).mp (hsub.subset hid)
      show ∃ r, requests.get? id = some r
      rw [hmarked, hr]
      exact ⟨_, rfl⟩
    · intro id r c hr hc
      change requests.get? id = some r at hr
      rw [hmarked, Option.map_eq_some_iff] at hr
      obtain ⟨r₀, hr₀, -⟩ := hr
      rw [h.due_mark hr₀ hc]
      constructor
      · intro hid
        have hlisted := hsub.subset hid
        obtain ⟨r', hr', hobject⟩ := (hmem id).mp hlisted
        rw [hr₀] at hr'
        cases hr'
        exact ⟨hobject, (hcomplete id hlisted r₀ hr₀).mp hid⟩
      · rintro ⟨hobject, henough⟩
        exact (hcomplete id ((hmem id).mpr ⟨r₀, hr₀, hobject⟩) r₀ hr₀).mpr henough

theorem timerExpires_spec (h : Settled calls m out) (waitId : ℕ) :
    ∃ m' o, m.timerExpires waitId = .ok (m', o) ∧
    Answered (track calls (.timerExpires waitId)) m' out o := by
  have hcall : ∀ (id : ℕ) (c : WaitCall O), (track calls (.timerExpires waitId))[id]? = some c →
      ∃ c₀, calls[id]? = some c₀ ∧ c = { c₀ with
        expired := c₀.expired || decide (id = waitId ∧ 0 < c₀.timeoutMs) } := by
    intro id c hc
    rw [track, List.getElem?_modify, Option.map_eq_map, Option.map_eq_some_iff] at hc
    obtain ⟨c₀, hc₀, rfl⟩ := hc
    refine ⟨c₀, hc₀, ?_⟩
    by_cases hid : id = waitId
    · simp [hid]
    · simp [hid, Ne.symm hid]
  have hcall' : ∀ (id : ℕ) (c₀ : WaitCall O), calls[id]? = some c₀ →
      (track calls (.timerExpires waitId))[id]? = some { c₀ with
        expired := c₀.expired || decide (id = waitId ∧ 0 < c₀.timeoutMs) } := by
    intro id c₀ hc₀
    have hlt : id < (track calls (.timerExpires waitId)).length := by
      rw [track, List.length_modify]
      exact (List.getElem?_eq_some_iff.mp hc₀).1
    obtain ⟨c₁, hc₁, heq⟩ := hcall id _ (List.getElem?_eq_getElem hlt)
    rw [hc₀] at hc₁
    cases hc₁
    rw [List.getElem?_eq_getElem hlt, heq]
  have htracks : ∀ timers : Finset ℕ, timers ⊆ m.timers → (∀ id ∈ m.timers, id ≠ waitId → id ∈ timers) →
      Tracks (track calls (.timerExpires waitId)) { m with timers := timers } out := by
    intro timers hsub hkept
    constructor
    · exact ⟨h.indexed.index, h.indexed.filled, h.indexed.nodup, h.indexed.fresh⟩
    · rw [track, List.length_modify]
      exact h.next
    · intro id r hr
      obtain ⟨c, hc, hof⟩ := h.pending id r hr
      exact ⟨_, hcall' id c hc, hof.timeoutMs, hof.objectIds, hof.numRequiredObjects, hof.ready⟩
    · intro id hid
      obtain ⟨c, hc, hpos⟩ := h.timer_pos id (hsub hid)
      exact ⟨_, hcall' id c hc, hpos⟩
    · intro id r c hr hc hpos
      obtain ⟨c₀, hc₀, rfl⟩ := hcall id c hc
      by_cases hid : id = waitId
      · exact .inr (.inr (by simp [hid, hpos]))
      · exact .inl (hkept id
          ((h.timer_set id r c₀ hr hc₀ hpos).resolve_right (h.not_due id r c₀ hr hc₀)) hid)
    · intro id
      rw [h.answered, track, List.length_modify]
    · exact h.once
  -- of the other waits none becomes due
  have hother : ∀ id r c, m.waitRequests.get? id = some r →
    (track calls (.timerExpires waitId))[id]? = some c →
      (id ∈ m.timers → id ≠ waitId) → ¬ c.Due := by
    intro id r c hr hc hne
    obtain ⟨c₀, hc₀, rfl⟩ := hcall id c hc
    have hnot := h.not_due id r c₀ hr hc₀
    rintro (henough | hexpired)
    · exact hnot (.inl henough)
    · simp only [Bool.or_eq_true, decide_eq_true_iff] at hexpired
      obtain hexpired | ⟨hid, hpos⟩ := hexpired
      · exact hnot (.inr hexpired)
      · exact hne ((h.timer_set id r c₀ hr hc₀ hpos).resolve_right hnot) hid
  unfold timerExpires
  by_cases htimer : waitId ∈ m.timers
  · rw [if_pos htimer]
    have herase := htracks (m.timers.erase waitId) (Finset.erase_subset _ _)
      (fun id hid hne => Finset.mem_erase.mpr ⟨hne, hid⟩)
    simp only
    cases hr : m.waitRequests.get? waitId with
    | none =>
      refine ⟨_, _, rfl, Settled.answered_nil { herase with not_due := ?_ }⟩
      intro id r c hr' hc
      refine hother id r c hr' hc ?_
      rintro - rfl
      rw [hr] at hr'
      cases hr'
    | some r =>
      refine herase.settle_one hr ?_
      intro id r' c hr' hc
      by_cases hid : id = waitId
      · obtain ⟨c₀, hc₀, rfl⟩ := hcall id c hc
        obtain ⟨c₁, hc₁, hpos⟩ := h.timer_pos waitId htimer
        rw [← hid, hc₀] at hc₁
        cases hc₁
        exact ⟨fun _ => .inr (by simp [hid, hpos]), fun _ => hid⟩
      · exact ⟨fun heq => absurd heq hid, fun hdue => absurd hdue
          (hother id r' c hr' hc (fun _ => hid))⟩
  · rw [if_neg htimer]
    refine ⟨m, [], rfl, Settled.answered_nil
      { htracks m.timers subset_rfl (fun id hid _ => hid) with not_due := ?_ }⟩
    intro id r c hr hc
    exact hother id r c hr hc (fun hid heq => htimer (heq ▸ hid))

theorem Settled.step (h : Settled calls m out) {e : WaitEvent O} (hlegal : e.Legal) :
    ∃ m' o, m.step e = .ok (m', o) ∧ Answered (track calls e) m' out o := by
  cases e with
  | wait objectIds timeoutMs numRequiredObjects isObjectLocal => exact wait_spec h hlegal
  | objectLocal object order => exact handleObjectLocal_spec h object order
  | timerExpires waitId => exact timerExpires_spec h waitId

theorem legal_of_step_eq_ok {e : WaitEvent O} (h : m.step e = .ok r) :
    e.Legal := by
  cases e with
  | wait objectIds timeoutMs numRequiredObjects isObjectLocal => exact legal_of_wait_eq_ok h
  | objectLocal object order => trivial
  | timerExpires waitId => trivial

theorem run_settled {events : List (WaitEvent O)} (hrun : runSteps step init events = .ok (m, out)) :
    Settled (waitCalls events) m out := by
  refine runSteps_inv (P := fun done m out => Settled (waitCalls done) m out) init_settled ?_ hrun
  intro done e m out m' o ih hstep
  obtain ⟨m₁, o₁, hstep₁, hsettled, -⟩ := ih.step (legal_of_step_eq_ok hstep)
  rw [hstep] at hstep₁
  cases hstep₁
  rw [waitCalls, List.foldl_append]
  exact hsettled

/-- Every wait is answered once.  After any run, an event that the callers may cause does not fail;
its callbacks answer waits that had no answer, with what their callers have been promised; and then
the waits that are due are those that have been answered, the index lists the others. -/
theorem waits_answered {events : List (WaitEvent O)} {m : WaitManager O} {out : List (WaitCallback O)}
    (hrun : runSteps step init events = .ok (m, out)) {e : WaitEvent O} (hlegal : e.Legal) :
    ∃ m' o, m.step e = .ok (m', o) ∧
      ((out ++ o).map WaitCallback.waitId).Nodup ∧
      (∀ a ∈ o, ∃ c, (waitCalls (events ++ [e]))[a.waitId]? = some c ∧ c.Answer a) ∧
      (∀ id c, (waitCalls (events ++ [e]))[id]? = some c → c.Due →
        id ∈ (out ++ o).map WaitCallback.waitId) ∧
      (∀ id, id ∈ m'.waitRequests.keys ↔
        id < (waitCalls (events ++ [e])).length ∧ id ∉ (out ++ o).map WaitCallback.waitId) ∧
      (∀ object id, (∃ ids, m'.objectToWaitRequests.get? object = some ids ∧ id ∈ ids.keys) ↔
        ∃ r, m'.waitRequests.get? id = some r ∧ object ∈ r.objectIds) ∧
      ∀ object ids, m'.objectToWaitRequests.get? object = some ids → ids.keys ≠ [] := by
  obtain ⟨m', o, hstep, hsettled, hanswer⟩ := (run_settled hrun).step hlegal
  have hcalls : waitCalls (events ++ [e]) = track (waitCalls events) e := List.foldl_append
  rw [hcalls]
  refine ⟨m', o, hstep, hsettled.once, hanswer, ?_, ?_, ?_, ?_⟩
  · intro id c hc hdue
    rw [hsettled.answered]
    refine ⟨(List.getElem?_eq_some_iff.mp hc).1, ?_⟩
    cases hr : m'.waitRequests.get? id with
    | none => rfl
    | some r => exact absurd hdue (hsettled.not_due id r c hr hc)
  · intro id
    rw [← Dict.get?_isSome_iff, hsettled.answered]
    cases hr : m'.waitRequests.get? id with
    | none => simp
    | some r =>
      have hlt := hsettled.next ▸ hsettled.indexed.fresh id r hr
      simp [hlt]
  · intro object id
    rw [← hsettled.indexed.index, Nested.find?, Option.bind_eq_some_iff]
    constructor
    · rintro ⟨ids, hids, hid⟩
      obtain ⟨u, hu⟩ := Option.isSome_iff_exists.mp (Dict.get?_isSome_iff.mpr hid)
      exact ⟨ids, hids, hu⟩
    · rintro ⟨ids, hids, hu⟩
      exact ⟨ids, hids, Dict.get?_isSome_iff.mp (by rw [hu]; rfl)⟩
  · intro object ids hids hnil
    exact hsettled.indexed.filled ids (Dict.mem_values_of_get? hids) (List.map_eq_nil_iff.mp hnil)

/-- One of two objects is enough; the second one is reported. -/
theorem waits_answered_reported :
    ∃ m out, runSteps step (init : WaitManager ℕ) [.wait [1, 2] 100 1 (fun _ => false)] = .ok (m, out) ∧
      ∃ m' o, m.step (.objectLocal 2 ⟨id, fun l => .refl l⟩) = .ok (m', o) ∧
        ((out ++ o).map WaitCallback.waitId).Nodup := by
  have hrun : ∃ m out, runSteps step (init : WaitManager ℕ) [.wait [1, 2] 100 1 (fun _ => false)] =
    .ok (m, out) :=
    ⟨_, _, rfl⟩
  obtain ⟨m, out, hrun⟩ := hrun
  obtain ⟨m', o, hstep, honce, -⟩ :=
    waits_answered hrun (e := .objectLocal 2 ⟨id, fun l => .refl l⟩) trivial
  exact ⟨m, out, hrun, m', o, hstep, honce⟩

end WaitManager
end
end RayTfm.Raylet
