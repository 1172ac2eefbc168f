import RayTfm.Raylet.ResourceAllocation
import RayTfm.Lib.Reach

/-! # The resources of the local node

`LocalResourceManager` keeps the total and the available instances of the node's resources and, for
each resource, since when it is idle.  The node is idle when no mark says busy; a node that is
draining is shut down once it is idle.

`AddLocalResourceInstances` marks the resource idle, whether it is in use or not; adding to a
resource in use makes the node look idle (`not_accounted_addInUse`).  In a run that does not do this
the marks are right: available and outstanding amounts make up the total, every allocation can be
released, and the node is idle only if nothing is in use (`accounted_of_reach`). -/

namespace RayTfm.Raylet

open NodeResourceInstanceSet

/-- `WorkFootprint`. -/
inductive WorkFootprint where
  | nodeWorkers
  | pullingTaskArguments
deriving DecidableEq, Repr

/-- `WorkArtifact`. -/
inductive WorkArtifact where
  | footprint (item : WorkFootprint)
  | resource (resourceId : ResourceID)
deriving DecidableEq, Repr

/-- `IdleTimeState`: since when the artifact is idle, if it is, and a time that was saved when it
was marked as busy for now.  `InfinitePast` is `⊥`. -/
structure IdleTimeState where
  current : Option ℤ
  saved : Option (WithBot ℤ)

/-- `LocalResourceManager`.  `drained` counts the calls of `shutdown_raylet_gracefully_`. -/
structure LocalResourceManager where
  available : NodeResourceInstanceSet
  total : NodeResourceInstanceSet
  idleTimeStates : Dict WorkArtifact IdleTimeState
  isLocalNodeDraining : Bool
  version : ℕ
  drained : ℕ

namespace LocalResourceManager

/-- Write the idle time of a resource; implicit resources have none. -/
def setCurrent (manager : LocalResourceManager) (resourceId : ResourceID) (current : Option ℤ) : LocalResourceManager :=
  if resourceId.isImplicitResource then manager
  else
    let state := (manager.idleTimeStates.get? (.resource resourceId)).getD ⟨none, none⟩
    { manager with idleTimeStates := manager.idleTimeStates.set (.resource resourceId) { state with current := current } }

/-- `LocalResourceManager::SetResourceNonIdle`. -/
def setResourceNonIdle (manager : LocalResourceManager) (resourceId : ResourceID) :
    LocalResourceManager :=
  manager.setCurrent resourceId none

/-- `LocalResourceManager::SetResourceIdle`. -/
def setResourceIdle (manager : LocalResourceManager) (now : ℤ) (resourceId : ResourceID) :
    LocalResourceManager :=
  manager.setCurrent resourceId (some now)

/-- One turn of the loop of `GetResourceIdleTime`. -/
def laterIdleTime (idleTime : Option (WithBot ℤ)) (state : IdleTimeState) : Option (WithBot ℤ) :=
  match idleTime, state.current with
  | some idleTime, some current => some (max idleTime current)
  | _, _ => none

/-- `LocalResourceManager::GetResourceIdleTime`. -/
def getResourceIdleTime (manager : LocalResourceManager) : Option (WithBot ℤ) :=
  manager.idleTimeStates.values.foldl laterIdleTime (some ⊥)

/-- `LocalResourceManager::IsLocalNodeIdle`. -/
def isLocalNodeIdle (manager : LocalResourceManager) : Bool := manager.getResourceIdleTime ≠ none

/-- `LocalResourceManager::OnResourceOrStateChanged`. -/
def onResourceOrStateChanged (manager : LocalResourceManager) : LocalResourceManager :=
  { manager with
    drained := if manager.isLocalNodeDraining ∧ manager.isLocalNodeIdle then manager.drained + 1
      else manager.drained
    version := manager.version + 1 }

/-- `LocalResourceManager::AddLocalResourceInstances`. -/
def addLocalResourceInstances (manager : LocalResourceManager) (now : ℤ) (resourceId : ResourceID)
    (instances : List ℤ) : Except RayError LocalResourceManager := do
  let available ← manager.available.add resourceId instances
  let total ← manager.total.add resourceId instances
  .ok ({ manager with available := available, total := total }.setResourceIdle now
    resourceId).onResourceOrStateChanged

/-- `LocalResourceManager::DeleteLocalResource`. -/
def deleteLocalResource (manager : LocalResourceManager) (resourceId : ResourceID) :
    LocalResourceManager :=
  { manager with
    available := manager.available.remove resourceId
    total := manager.total.remove resourceId
    idleTimeStates := manager.idleTimeStates.erase (.resource resourceId) }.onResourceOrStateChanged

/-- `LocalResourceManager::AllocateLocalTaskResources`, which calls
`AllocateTaskResourceInstances`. -/
def allocateLocalTaskResources (manager : LocalResourceManager) (request : ResourceSet) :
    Except RayError (Option (Dict ResourceID (List ℤ)) × LocalResourceManager) := do
  let allocation ← manager.available.tryAllocate request
  match allocation with
  | (none, available) => .ok (none, { manager with available := available })
  | (some allocation, available) =>
    .ok (some allocation,
      (request.resourceIds.foldl setResourceNonIdle
        { manager with available := available }).onResourceOrStateChanged)

/-- One turn of the loop of `FreeTaskResourceInstances`. -/
def freeResource (now : ℤ) (recordIdleResource : Bool) (manager : LocalResourceManager)
    (allocated : ResourceID × List ℤ) : Except RayError LocalResourceManager :=
  if manager.total.has allocated.1 then do
    let available ← manager.available.free allocated.1 allocated.2
    let instances := available.get allocated.1
    let total := manager.total.get allocated.1
    rayCheck ((List.range total.length).all (fun i => amountAt instances i ≤ amountAt total i))
      "total[i] >= available[i]"
    let isIdle := (List.range total.length).all (fun i => amountAt instances i = amountAt total i)
    let manager := { manager with available := available }
    .ok (if recordIdleResource ∧ isIdle then manager.setResourceIdle now allocated.1 else manager)
  else .ok manager

/-- `LocalResourceManager::FreeTaskResourceInstances`. -/
def freeTaskResourceInstances (manager : LocalResourceManager) (now : ℤ)
    (taskAllocation : Dict ResourceID (List ℤ))
    (recordIdleResource : Bool) : Except RayError LocalResourceManager :=
  taskAllocation.entries.foldlM (freeResource now recordIdleResource) manager

/-- `LocalResourceManager::ReleaseWorkerResources`. -/
def releaseWorkerResources (manager : LocalResourceManager) (now : ℤ)
    (taskAllocation : Dict ResourceID (List ℤ)) :
    Except RayError LocalResourceManager :=
  if taskAllocation.entries = [] then .ok manager
  else do
    let manager ← manager.freeTaskResourceInstances now taskAllocation true
    .ok manager.onResourceOrStateChanged

end LocalResourceManager

/-! ### Runs -/

/-- The manager and the allocations that were given and not yet released, by lease. -/
structure LocalNode where
  manager : LocalResourceManager
  outstanding : Dict ℕ (Dict ResourceID (List ℤ))

/-- An operation on the local resources; the times are what the clock shows. -/
inductive LocalOperation where
  | allocate (lease : ℕ) (request : ResourceSet)
  | release (now : ℤ) (lease : ℕ)
  | add (now : ℤ) (resourceId : ResourceID) (instances : List ℤ)
  | delete (resourceId : ResourceID)

namespace LocalNode

/-- An operation; a lease whose allocation is not outstanding has nothing to release. -/
def step (node : LocalNode) : LocalOperation → Except RayError LocalNode
  | .allocate lease request => do
      let allocation ← node.manager.allocateLocalTaskResources request
      match allocation with
      | (none, manager) => .ok ⟨manager, node.outstanding⟩
      | (some allocation, manager) => .ok ⟨manager, node.outstanding.set lease allocation⟩
  | .release now lease =>
    match node.outstanding.get? lease with
    | none => .ok node
    | some allocation => do
        let manager ← node.manager.releaseWorkerResources now allocation
        .ok ⟨manager, node.outstanding.erase lease⟩
  | .add now resourceId instances => do
      let manager ← node.manager.addLocalResourceInstances now resourceId instances
      .ok ⟨manager, node.outstanding⟩
  | .delete resourceId => .ok ⟨node.manager.deleteLocalResource resourceId, node.outstanding⟩

/-- No outstanding allocation has taken from a resource. -/
def Unused (node : LocalNode) (resourceId : ResourceID) : Prop :=
  ∀ lease allocation, node.outstanding.get? lease = some allocation → allocation.get? resourceId = none

/-- The runs that are asked about: a lease gets one allocation, and a resource is deleted only when
no allocation of it is outstanding. -/
def Proper (node : LocalNode) : LocalOperation → Prop
  | .allocate lease _ => node.outstanding.get? lease = none
  | .release _ _ => True
  | .add _ _ _ => True
  | .delete resourceId => node.Unused resourceId

/-- A request names placement groups by their wildcard resources, and a resource is added to only
when it is not in use. -/
def Careful (node : LocalNode) : LocalOperation → Prop
  | .allocate _ request => request.Nonneg ∧ PgRequests request
  | .release _ _ => True
  | .add _ resourceId _ => node.Unused resourceId
  | .delete _ => True

/-- What is outstanding of an instance. -/
def heldAt (node : LocalNode) (r : ResourceID) (i : ℕ) : ℤ :=
  node.outstanding.sum (fun _ allocation => amountAt ((allocation.get? r).getD []) i)

/-- Available and outstanding amounts make up the total, every outstanding allocation can be
released, and the node is idle only if all of every explicit resource is available. -/
structure Accounted (node : LocalNode) : Prop where
  conserved : ∀ r i, amountAt (node.manager.available.get r) i + node.heldAt r i = amountAt
    (node.manager.total.get r) i
  release : ∀ now lease, ∃ node', node.step (.release now lease) = .ok node'
  idle : node.manager.isLocalNodeIdle → ∀ r : ResourceID, ¬ r.isImplicitResource →
    node.manager.available.get r = node.manager.total.get r

/-- The node at its start: all is available, and idle since now. -/
def start (total : NodeResourceInstanceSet) (draining : Bool) (now : ℤ) : LocalNode where
  manager :=
    { available := total
      total := total
      idleTimeStates := Dict.ofList
        ((total.resources.keys.filter (fun r => !r.isImplicitResource)).map
          (fun r => (.resource r, ⟨some now, none⟩)))
      isLocalNodeDraining := draining
      version := 0
      drained := 0 }
  outstanding := .empty

end LocalNode

/-! ### The marks -/

namespace LocalResourceManager

/-- A resource is marked as busy. -/
def Busy (manager : LocalResourceManager) (r : ResourceID) : Prop :=
  ∃ state, manager.idleTimeStates.get? (.resource r) = some state ∧ state.current = none

theorem foldl_laterIdleTime_none (states : List IdleTimeState) :
    states.foldl laterIdleTime none = none := by
  induction states with
  | nil => rfl
  | cons state states ih => exact ih

variable {manager : LocalResourceManager} {r : ResourceID}

theorem not_isLocalNodeIdle_of_busy (h : manager.Busy r) :
    manager.isLocalNodeIdle = false := by
  obtain ⟨state, hget, hnone⟩ := h
  obtain ⟨front, back, hvalues⟩ := List.append_of_mem (Dict.mem_values_of_get? hget)
  have hidle : manager.getResourceIdleTime = none := by
    unfold getResourceIdleTime
    rw [hvalues, List.foldl_append, List.foldl_cons]
    have hturn : ∀ idleTime, laterIdleTime idleTime state = none := by
      intro idleTime
      unfold laterIdleTime
      rw [hnone]
      cases idleTime <;> rfl
    rw [hturn]
    exact foldl_laterIdleTime_none back
  unfold isLocalNodeIdle
  rw [hidle]
  rfl

@[simp] theorem available_setCurrent (manager : LocalResourceManager) (r : ResourceID) (current : Option ℤ) :
    (manager.setCurrent r current).available = manager.available := by
  unfold setCurrent
  split_ifs <;> rfl

@[simp] theorem total_setCurrent (manager : LocalResourceManager) (r : ResourceID) (current : Option ℤ) :
    (manager.setCurrent r current).total = manager.total := by
  unfold setCurrent
  split_ifs <;> rfl

theorem busy_setCurrent_self (h : ¬ r.isImplicitResource) :
    (manager.setCurrent r none).Busy r := by
  unfold setCurrent
  rw [if_neg h]
  exact ⟨_, Dict.get?_set_self _ _ _, rfl⟩

theorem busy_setCurrent_of_ne {w : ResourceID} (hw : w ≠ r) (current : Option ℤ)
    (h : manager.Busy w) : (manager.setCurrent r current).Busy w := by
  unfold setCurrent
  split_ifs
  · exact h
  · obtain ⟨state, hget, hnone⟩ := h
    refine ⟨state, ?_, hnone⟩
    rw [← hget]
    exact Dict.get?_set_ne _ _ (fun heq => hw (WorkArtifact.resource.inj heq))

theorem busy_setResourceNonIdle (r : ResourceID) {w : ResourceID}
    (hw : ¬ w.isImplicitResource) (h : manager.Busy w) : (manager.setResourceNonIdle r).Busy w := by
  by_cases hr : w = r
  · exact hr ▸ busy_setCurrent_self hw
  · exact busy_setCurrent_of_ne hr none h

theorem foldl_setResourceNonIdle (manager : LocalResourceManager) (rs : List ResourceID) :
    (rs.foldl setResourceNonIdle manager).available = manager.available ∧
    (rs.foldl setResourceNonIdle manager).total = manager.total ∧
    ∀ w : ResourceID, ¬ w.isImplicitResource → (w ∈ rs ∨ manager.Busy w) →
      (rs.foldl setResourceNonIdle manager).Busy w := by
  induction rs generalizing manager with
  | nil => exact ⟨rfl, rfl, fun w _ h => h.resolve_left List.not_mem_nil⟩
  | cons r rs ih =>
    obtain ⟨havailable, htotal, hbusy⟩ := ih (manager.setResourceNonIdle r)
    refine ⟨havailable.trans (available_setCurrent _ _ _), htotal.trans (total_setCurrent _ _ _), ?_⟩
    intro w hw h
    apply hbusy w hw
    rcases h with h | h
    · rcases List.mem_cons.mp h with rfl | h
      · exact .inr (busy_setCurrent_self hw)
      · exact .inl h
    · exact .inr (busy_setResourceNonIdle r hw h)

end LocalResourceManager

/-! ### What holds between two operations -/

/-- An allocation fits the totals. -/
def Fit (total : NodeResourceInstanceSet) (allocation : Dict ResourceID (List ℤ)) : Prop :=
  ∀ r a, allocation.get? r = some a → total.get r ≠ [] ∧ a.length = (total.get r).length ∧
  ∀ i, 0 ≤ amountAt a i

/-- Whatever an allocation has of an explicit resource, it has of one that is marked as busy. -/
def Marked (manager : LocalResourceManager) (allocation : Dict ResourceID (List ℤ)) : Prop :=
  ∀ r a, allocation.get? r = some a → ¬ r.isImplicitResource → ∀ i, 0 < amountAt a i →
    ∃ w : ResourceID, allocation.get? w = some a ∧ ¬ w.isImplicitResource ∧ manager.Busy w

theorem Fit.nonneg {total : NodeResourceInstanceSet} {allocation : Dict ResourceID (List ℤ)}
    (h : Fit total allocation)
    (r : ResourceID) (i : ℕ) : 0 ≤ amountAt ((allocation.get? r).getD []) i := by
  cases hr : allocation.get? r with
  | none => exact le_refl 0
  | some a => exact (h r a hr).2.2 i

namespace LocalNode

/-- The invariant of the careful runs. -/
structure Inv (node : LocalNode) : Prop where
  oneImplicit : node.manager.total.OneImplicit
  length : ∀ r, (node.manager.available.get r).length = (node.manager.total.get r).length
  conserved : ∀ r i, amountAt (node.manager.available.get r) i + node.heldAt r i = amountAt
    (node.manager.total.get r) i
  fit : ∀ lease allocation, node.outstanding.get? lease = some allocation →
    Fit node.manager.total allocation
  marked : ∀ lease allocation, node.outstanding.get? lease = some allocation →
    Marked node.manager allocation

theorem Inv.heldAt_nonneg {node : LocalNode} (h : node.Inv) (r : ResourceID) (i : ℕ) :
    0 ≤ node.heldAt r i :=
  Dict.sum_nonneg (fun l A hA => (h.fit l A hA).nonneg r i)

theorem heldAt_of_unused {node : LocalNode} {r : ResourceID} (h : node.Unused r) (i : ℕ) :
    node.heldAt r i = 0 := by
  apply List.sum_eq_zero
  intro a ha
  obtain ⟨e, he, rfl⟩ := List.mem_map.mp ha
  show amountAt ((e.2.get? r).getD []) i = 0
  rw [h e.1 e.2 (Dict.get?_eq_some_iff.mpr he)]
  rfl

variable {outstanding : Dict ℕ (Dict ResourceID (List ℤ))}

theorem heldAt_set (manager manager' : LocalResourceManager) {lease : ℕ}
    (h : outstanding.get? lease = none) (allocation : Dict ResourceID (List ℤ))
    (r : ResourceID) (i : ℕ) :
    heldAt ⟨manager', outstanding.set lease allocation⟩ r i =
      heldAt ⟨manager, outstanding⟩ r i + amountAt ((allocation.get? r).getD []) i :=
  Dict.sum_set_of_get?_eq_none h allocation _

theorem heldAt_erase {manager manager' : LocalResourceManager}
    {lease : ℕ} {allocation : Dict ResourceID (List ℤ)}
    (h : outstanding.get? lease = some allocation) (r : ResourceID)
    (i : ℕ) :
    heldAt ⟨manager, outstanding⟩ r i =
      amountAt ((allocation.get? r).getD []) i + heldAt ⟨manager', outstanding.erase lease⟩ r i :=
  Dict.sum_erase h _

end LocalNode

/-! ### Releasing -/

namespace LocalResourceManager

/-- What is available, still to be freed and held by others makes up the total. -/
structure Releasing (manager : LocalResourceManager) (total : NodeResourceInstanceSet)
    (left : List (ResourceID × List ℤ)) (others : ResourceID → ℕ → ℤ) : Prop where
  total_eq : manager.total = total
  length : ∀ r, (manager.available.get r).length = (total.get r).length
  nodup : (left.map Prod.fst).Nodup
  fit : ∀ e ∈ left, total.get e.1 ≠ [] ∧ e.2.length = (total.get e.1).length ∧ ∀ i, 0 ≤ amountAt e.2 i
  conserved : ∀ r i, amountAt (manager.available.get r) i + amountAt ((left.lookup r).getD []) i +
    others r i =
    amountAt (total.get r) i

variable {manager : LocalResourceManager} {total : NodeResourceInstanceSet}
  {left : List (ResourceID × List ℤ)} {others : ResourceID → ℕ → ℤ}

theorem freeResource_ok (hone : total.OneImplicit) {r : ResourceID} {a : List ℤ}
    (hothers : ∀ r i, 0 ≤ others r i) (h : Releasing manager total ((r, a) :: left) others) (now : ℤ) :
    ∃ manager', freeResource now true manager (r, a) = .ok manager' ∧
    Releasing manager' total left others ∧
      ∀ w, manager.Busy w → (∃ i, 0 < others w i) → manager'.Busy w := by
  obtain ⟨hpresent, hlength, hnonneg⟩ := h.fit (r, a) (.head _)
  have hnodup := h.nodup
  rw [List.map_cons, List.nodup_cons] at hnodup
  have hnotin : left.lookup r = none := by
    rw [List.lookup_eq_none_iff]
    intro e he
    have hmem : e.1 ∈ left.map Prod.fst := List.mem_map_of_mem he
    have hne : r ≠ e.1 := fun heq => hnodup.1 (heq ▸ hmem)
    simpa [bne_iff_ne] using hne
  have hhas : manager.total.has r = true := by
    rw [h.total_eq]
    exact decide_eq_true hpresent
  have hpresent' : manager.available.get r ≠ [] := by
    rw [← List.length_pos_iff, h.length r]
    exact List.length_pos_iff.mpr hpresent
  have hlength' : a.length = (manager.available.get r).length := hlength.trans (h.length r).symm
  obtain ⟨available, hfree, hget⟩ := free_eq_ok (hone.of_get h.length) hpresent' hlength'
  have hself : ∀ i, amountAt (available.get r) i = amountAt (manager.available.get r) i +
    amountAt a i := by
    intro i
    rw [hget r, if_pos rfl, amountAt_addInstances hlength'.symm]
  have hsum : ∀ i, amountAt (available.get r) i + others r i = amountAt (total.get r) i := by
    intro i
    have hconserved := h.conserved r i
    rw [List.lookup_cons, beq_self_eq_true] at hconserved
    rw [hself]
    exact hconserved
  have hcheck : ((List.range (manager.total.get r).length).all
      (fun i => amountAt (available.get r) i ≤ amountAt (manager.total.get r) i)) = true := by
    rw [List.all_eq_true]
    intro i _
    rw [h.total_eq]
    have hi := hsum i
    have hi' := hothers r i
    exact decide_eq_true (by omega)
  set freed : LocalResourceManager := { manager with available := available } with hfreed
  set isIdle := (List.range (manager.total.get r).length).all
    (fun i => amountAt (available.get r) i = amountAt (manager.total.get r) i) with hisIdle
  refine ⟨if true = true ∧ isIdle = true then freed.setResourceIdle now r else freed, ?_, ?_, ?_⟩
  · unfold freeResource
    rw [if_pos hhas]
    simp only [hfree]
    show (rayCheck _ _ >>= fun _ => _) = _
    rw [hcheck]
    rfl
  · have hreleasing : Releasing freed total left others := by
      refine ⟨h.total_eq, ?_, hnodup.2, fun e he => h.fit e (.tail _ he), ?_⟩
      · intro r'
        show (available.get r').length = _
        rw [hget r']
        split_ifs with hr
        · rw [length_addInstances hlength'.symm, hr, h.length r]
        · exact h.length r'
      · intro r' i
        show amountAt (available.get r') i + _ + _ = _
        by_cases hr : r' = r
        · rw [hr, hnotin, Option.getD_none, amountAt_nil, add_zero]
          exact hsum i
        · have hconserved := h.conserved r' i
          have hbeq : (r' == r) = false := by simpa using hr
          rw [List.lookup_cons, hbeq] at hconserved
          rw [hget r', if_neg hr]
          exact hconserved
    split_ifs
    · refine ⟨?_, ?_, hreleasing.nodup, hreleasing.fit, ?_⟩
      · exact (total_setCurrent _ _ _).trans hreleasing.total_eq
      · show ∀ r', ((freed.setCurrent r (some now)).available.get r').length = _
        rw [available_setCurrent]
        exact hreleasing.length
      · show ∀ r' i, amountAt ((freed.setCurrent r (some now)).available.get r') i + _ + _ = _
        rw [available_setCurrent]
        exact hreleasing.conserved
    · exact hreleasing
  · intro w hbusy hw
    have hbusy' : freed.Busy w := hbusy
    split_ifs with hidle
    · apply busy_setCurrent_of_ne _ _ hbusy'
      rintro rfl
      obtain ⟨i, hi⟩ := hw
      have hin : i < (manager.total.get w).length := by
        by_contra hnot
        have hsumi := hsum i
        rw [← h.total_eq, amountAt_of_length_le (not_lt.mp hnot), amountAt_of_length_le] at hsumi
        · omega
        · rw [hget w, if_pos rfl, length_addInstances hlength'.symm, h.length w, ← h.total_eq]
          exact not_lt.mp hnot
      have hall := List.all_eq_true.mp hidle.2 i (List.mem_range.mpr hin)
      have heq := of_decide_eq_true hall
      have hsumi := hsum i
      rw [h.total_eq] at heq
      omega
    · exact hbusy'

theorem foldlM_freeResource_ok (hone : total.OneImplicit)
    (hothers : ∀ r i, 0 ≤ others r i) (now : ℤ) (h : Releasing manager total left others) :
    ∃ manager', left.foldlM (freeResource now true) manager = .ok manager' ∧
      Releasing manager' total [] others ∧
      ∀ w, manager.Busy w → (∃ i, 0 < others w i) → manager'.Busy w := by
  induction left generalizing manager with
  | nil => exact ⟨manager, rfl, h, fun _ hw _ => hw⟩
  | cons e left ih =>
    obtain ⟨manager₁, hfree, hreleasing, hbusy⟩ := freeResource_ok hone hothers h now
    obtain ⟨manager', hloop, hreleasing', hbusy'⟩ := ih hreleasing
    refine ⟨manager', ?_, hreleasing', fun w hw hheld => hbusy' w (hbusy w hw hheld) hheld⟩
    rw [List.foldlM_cons, hfree]
    exact hloop

end LocalResourceManager

namespace LocalNode

open LocalResourceManager

variable {node : LocalNode}

/-- An outstanding allocation can be released, and the invariant holds without it. -/
theorem Inv.release (h : node.Inv) {lease : ℕ} {allocation : Dict ResourceID (List ℤ)}
    (hlease : node.outstanding.get? lease = some allocation) (now : ℤ) :
    ∃ manager, node.manager.releaseWorkerResources now allocation = .ok manager ∧
      Inv ⟨manager, node.outstanding.erase lease⟩ := by
  have hfit := h.fit lease allocation hlease
  have hothersfit : ∀ l A, (node.outstanding.erase lease).get? l = some A →
    node.outstanding.get? l = some A := by
    intro l A hA
    rw [Dict.get?_erase] at hA
    split_ifs at hA
    exact hA
  set others : ResourceID → ℕ → ℤ := heldAt ⟨node.manager, node.outstanding.erase lease⟩ with hothers
  have hothersnonneg : ∀ r i, 0 ≤ others r i :=
    fun r i => Dict.sum_nonneg (fun l A hA => (h.fit l A (hothersfit l A hA)).nonneg r i)
  have hheld : ∀ r i, node.heldAt r i = amountAt ((allocation.get? r).getD []) i + others r i :=
    fun r i => heldAt_erase hlease r i
  have hreleasing : Releasing node.manager node.manager.total allocation.entries others := by
    refine ⟨rfl, h.length, allocation.nodup, ?_, ?_⟩
    · intro e he
      exact hfit e.1 e.2 (Dict.get?_eq_some_iff.mpr he)
    · intro r i
      have hconserved := h.conserved r i
      rw [hheld] at hconserved
      show _ + amountAt ((allocation.get? r).getD []) i + _ = _
      omega
  obtain ⟨freed, hloop, hreleased, hbusy⟩ :=
    foldlM_freeResource_ok h.oneImplicit hothersnonneg now hreleasing
  have hinv : ∀ manager : LocalResourceManager, manager.available = freed.available →
    manager.total = freed.total →
      manager.idleTimeStates = freed.idleTimeStates → Inv ⟨manager, node.outstanding.erase lease⟩ := by
    intro manager havailable htotal hmarks
    have htotal' : manager.total = node.manager.total := htotal.trans hreleased.total_eq
    refine ⟨?_, ?_, ?_, ?_, ?_⟩
    · show manager.total.OneImplicit
      rw [htotal']
      exact h.oneImplicit
    · show ∀ r, (manager.available.get r).length = (manager.total.get r).length
      rw [havailable, htotal']
      exact hreleased.length
    · intro r i
      rw [havailable, htotal']
      have hconserved := hreleased.conserved r i
      rw [List.lookup_nil, Option.getD_none, amountAt_nil, add_zero] at hconserved
      exact hconserved
    · intro l A hA
      show Fit manager.total A
      rw [htotal']
      exact h.fit l A (hothersfit l A hA)
    · intro l A hA r a ha hr i hi
      obtain ⟨w, hw, hexplicit, hwbusy⟩ := h.marked l A (hothersfit l A hA) r a ha hr i hi
      refine ⟨w, hw, hexplicit, ?_⟩
      have hpart : amountAt ((A.get? w).getD []) i ≤ others w i := by
        have hnonneg : ∀ l A, (node.outstanding.erase lease).get? l = some A →
          0 ≤ amountAt ((A.get? w).getD []) i :=
          fun l A hA => (h.fit l A (hothersfit l A hA)).nonneg w i
        exact Dict.le_sum hnonneg hA
      rw [hw, Option.getD_some] at hpart
      obtain ⟨state, hstate⟩ := hbusy w hwbusy ⟨i, by omega⟩
      exact ⟨state, by rw [hmarks]; exact hstate.1, hstate.2⟩
  unfold releaseWorkerResources freeTaskResourceInstances
  split_ifs with hempty
  · refine ⟨node.manager, rfl, ?_⟩
    rw [hempty] at hloop
    have hsame : node.manager = freed := Except.ok.inj hloop
    rw [hsame]
    exact hinv freed rfl rfl rfl
  · refine ⟨freed.onResourceOrStateChanged, ?_, hinv _ rfl rfl rfl⟩
    rw [hloop]
    rfl

variable {node' : LocalNode}

theorem inv_allocate (h : node.Inv) {lease : ℕ} {request : ResourceSet}
    (hlease : node.outstanding.get? lease = none) (hrequest : request.Nonneg)
    (hrequests : PgRequests request)
    (hstep : node.step (.allocate lease request) = .ok node') : node'.Inv := by
  have hone : node.manager.available.OneImplicit := h.oneImplicit.of_get h.length
  obtain ⟨⟨result, manager⟩, hallocate, hstep⟩ := bind_eq_ok.mp hstep
  obtain ⟨⟨outcome, available⟩, htry, hallocate⟩ := bind_eq_ok.mp hallocate
  rcases tryAllocate_cases hone hrequest hrequests with
    ⟨set', hcall, hrestored, _⟩ | ⟨progress, originals, hcall, hserved, hall⟩ | ⟨e, hcall, _⟩
  · rw [hcall] at htry
    cases htry
    cases hallocate
    cases hstep
    refine ⟨h.oneImplicit, ?_, ?_, h.fit, h.marked⟩
    · exact fun r => (congrArg List.length (hrestored r)).trans (h.length r)
    · intro r i
      rw [hrestored r]
      exact h.conserved r i
  · rw [hcall] at htry
    cases htry
    cases hallocate
    cases hstep
    set allocated : LocalResourceManager :=
      { node.manager with available := progress.set } with hallocated
    obtain ⟨havailable, htotal, hbusy⟩ := foldl_setResourceNonIdle allocated request.resourceIds
    refine ⟨?_, ?_, ?_, ?_, ?_⟩
    · show (request.resourceIds.foldl setResourceNonIdle allocated).total.OneImplicit
      rw [htotal]
      exact h.oneImplicit
    · show ∀ r, ((request.resourceIds.foldl setResourceNonIdle allocated).available.get r).length =
        ((request.resourceIds.foldl setResourceNonIdle allocated).total.get r).length
      rw [havailable, htotal]
      exact fun r => (hserved.held.length_get r).trans (h.length r)
    · intro r i
      show amountAt ((request.resourceIds.foldl setResourceNonIdle allocated).available.get r) i + _ =
        amountAt ((request.resourceIds.foldl setResourceNonIdle allocated).total.get r) i
      rw [havailable, htotal]
      rw [heldAt_set node.manager _ hlease]
      have hconserved := h.conserved r i
      have hheld := hserved.held.conserved r i
      show amountAt (progress.set.get r) i + (node.heldAt r i + _) = amountAt
        (node.manager.total.get r) i
      omega
    · intro l A hA
      show Fit (request.resourceIds.foldl setResourceNonIdle allocated).total A
      rw [htotal]
      rw [Dict.get?_set] at hA
      split_ifs at hA with hl
      · obtain rfl := Option.some.inj hA
        intro r a ha
        refine ⟨?_, (hserved.held.length r a ha).trans (h.length r), hserved.held.nonneg r a ha⟩
        rw [← List.length_pos_iff]
        show 0 < (node.manager.total.get r).length
        rw [← h.length r]
        exact List.length_pos_iff.mpr (hserved.held.present r a ha)
      · exact h.fit l A hA
    · intro l A hA r a ha hr i hi
      rw [Dict.get?_set] at hA
      split_ifs at hA with hl
      · obtain rfl := Option.some.inj hA
        rcases hserved.origin r a ha with hmem | ⟨w, hw, hwa, dw, dr, hdw, hindex, hdr, horiginal, _⟩
        · exact ⟨r, ha, hr, hbusy r hr (.inl hmem)⟩
        · have hexplicit : ¬ w.isImplicitResource := by
            rw [isImplicitResource_eq_of_parse hdw hindex hdr horiginal]
            exact hr
          exact ⟨w, hwa, hexplicit, hbusy w hexplicit (.inl hw)⟩
      · obtain ⟨w, hw, hexplicit, hwbusy⟩ := h.marked l A hA r a ha hr i hi
        exact ⟨w, hw, hexplicit, hbusy w hexplicit (.inr hwbusy)⟩
  · rw [hcall] at htry
    cases htry

variable {r : ResourceID}

/-- Resources that no allocation has taken from can be changed, if totals and availabilities change
alike. -/
theorem inv_change (h : node.Inv) (hunused : node.Unused r)
    (manager : LocalResourceManager) (instances instances' : List ℤ)
    (havailable : ∀ r', manager.available.get r' = if r' = r then instances
      else node.manager.available.get r')
    (htotal : ∀ r', manager.total.get r' = if r' = r then instances' else node.manager.total.get r')
    (hlength : instances.length = instances'.length)
    (hsame : ∀ i, amountAt instances i = amountAt instances' i)
    (hone : r.isImplicitResource → instances'.length = 1)
    (hbusy : ∀ w, w ≠ r → node.manager.Busy w → manager.Busy w) : Inv ⟨manager, node.outstanding⟩ := by
  have hne : ∀ lease allocation, node.outstanding.get? lease = some allocation →
    ∀ r' a, allocation.get? r' = some a →
      r' ≠ r := by
    rintro lease allocation hlease r' a ha rfl
    rw [hunused lease allocation hlease] at ha
    cases ha
  refine ⟨?_, ?_, ?_, ?_, ?_⟩
  · intro r' hr'
    rw [htotal r']
    split_ifs with hr
    · exact hone (hr ▸ hr')
    · exact h.oneImplicit r' hr'
  · intro r'
    rw [havailable r', htotal r']
    split_ifs
    · exact hlength
    · exact h.length r'
  · intro r' i
    show amountAt (manager.available.get r') i + node.heldAt r' i = amountAt (manager.total.get r') i
    rw [havailable r', htotal r']
    split_ifs with hr
    · rw [hr, heldAt_of_unused hunused, add_zero]
      exact hsame i
    · exact h.conserved r' i
  · intro lease allocation hlease r' a ha
    rw [htotal r', if_neg (hne lease allocation hlease r' a ha)]
    exact h.fit lease allocation hlease r' a ha
  · intro lease allocation hlease r' a ha hr' i hi
    obtain ⟨w, hw, hexplicit, hwbusy⟩ := h.marked lease allocation hlease r' a ha hr' i hi
    exact ⟨w, hw, hexplicit, hbusy w (hne lease allocation hlease w a hw) hwbusy⟩

theorem Inv.eq_of_unused (h : node.Inv) (hunused : node.Unused r) :
    node.manager.available.get r = node.manager.total.get r := by
  apply eq_of_amountAt (h.length r)
  intro i
  have hconserved := h.conserved r i
  rw [heldAt_of_unused hunused, add_zero] at hconserved
  exact hconserved

theorem inv_add (h : node.Inv) {now : ℤ} {instances : List ℤ}
    (hunused : node.Unused r) (hstep : node.step (.add now r instances) = .ok node') : node'.Inv := by
  obtain ⟨manager, hadd, hstep⟩ := bind_eq_ok.mp hstep
  cases hstep
  obtain ⟨available, havailable, hadd⟩ := bind_eq_ok.mp hadd
  obtain ⟨total, htotal, hadd⟩ := bind_eq_ok.mp hadd
  cases hadd
  obtain ⟨hexplicit, hgetavailable⟩ := get_of_add havailable
  obtain ⟨_, hgettotal⟩ := get_of_add htotal
  set added : LocalResourceManager :=
    { node.manager with available := available, total := total } with hadded
  apply inv_change h hunused (added.setResourceIdle now r).onResourceOrStateChanged
    (extendInstances (node.manager.available.get r) instances)
    (extendInstances (node.manager.total.get r) instances)
  · show ∀ r', ((added.setCurrent r (some now)).available.get r') = _
    rw [available_setCurrent]
    exact hgetavailable
  · show ∀ r', ((added.setCurrent r (some now)).total.get r') = _
    rw [total_setCurrent]
    exact hgettotal
  · rw [h.eq_of_unused hunused]
  · intro i
    rw [h.eq_of_unused hunused]
  · exact fun hr => absurd hr hexplicit
  · intro w hw hbusy
    have hbusy' : added.Busy w := hbusy
    exact busy_setCurrent_of_ne hw (some now) hbusy'

theorem inv_delete (h : node.Inv) (hunused : node.Unused r) :
    Inv ⟨node.manager.deleteLocalResource r, node.outstanding⟩ := by
  apply inv_change h hunused (node.manager.deleteLocalResource r)
    (if r.isImplicitResource then [kResourceUnitScaling] else [])
    (if r.isImplicitResource then [kResourceUnitScaling] else [])
  · intro r'
    show (node.manager.available.remove r).get r' = _
    rw [get_remove]
    by_cases hr : r' = r
    · rw [if_pos hr, if_pos hr, hr]
    · rw [if_neg hr, if_neg hr]
  · intro r'
    show (node.manager.total.remove r).get r' = _
    rw [get_remove]
    by_cases hr : r' = r
    · rw [if_pos hr, if_pos hr, hr]
    · rw [if_neg hr, if_neg hr]
  · rfl
  · exact fun i => rfl
  · intro hr
    rw [if_pos hr]
    rfl
  · rintro w hw ⟨state, hget, hnone⟩
    refine ⟨state, ?_, hnone⟩
    show (node.manager.idleTimeStates.erase (.resource r)).get? (.resource w) = some state
    rw [Dict.get?_erase, if_neg (fun heq => hw (WorkArtifact.resource.inj heq))]
    exact hget

/-- The operations of a careful run keep the invariant. -/
theorem inv_step (h : node.Inv) {operation : LocalOperation}
    (hproper : node.Proper operation) (hcareful : node.Careful operation)
    (hstep : node.step operation = .ok node') :
    node'.Inv := by
  cases operation with
  | allocate lease request => exact inv_allocate h hproper hcareful.1 hcareful.2 hstep
  | release now lease =>
    cases hlease : node.outstanding.get? lease with
    | none =>
      rw [step, hlease] at hstep
      cases hstep
      exact h
    | some allocation =>
      obtain ⟨manager, hrelease, hinv⟩ := h.release hlease now
      rw [step, hlease] at hstep
      simp only at hstep
      rw [hrelease] at hstep
      cases hstep
      exact hinv
  | add now r instances => exact inv_add h hcareful hstep
  | delete r =>
    cases hstep
    exact inv_delete h hproper

theorem inv_start {total : NodeResourceInstanceSet} (hone : total.OneImplicit)
    (draining : Bool) (now : ℤ) :
    (start total draining now).Inv := by
  refine ⟨hone, fun _ => rfl, fun r i => ?_, nofun, nofun⟩
  show amountAt (total.get r) i + 0 = amountAt (total.get r) i
  rw [add_zero]

theorem Inv.accounted (h : node.Inv) : node.Accounted := by
  refine ⟨h.conserved, ?_, ?_⟩
  · intro now lease
    cases hlease : node.outstanding.get? lease with
    | none => exact ⟨node, by rw [step, hlease]⟩
    | some allocation =>
      obtain ⟨manager, hrelease, _⟩ := h.release hlease now
      refine ⟨⟨manager, node.outstanding.erase lease⟩, ?_⟩
      rw [step, hlease]
      simp only
      rw [hrelease]
      rfl
  · intro hidle r hr
    apply eq_of_amountAt (h.length r)
    intro i
    have hconserved := h.conserved r i
    suffices hzero : node.heldAt r i = 0 by omega
    by_contra hheld
    -- something of the resource is outstanding, so a resource is marked as busy
    obtain ⟨lease, allocation, hlease, hpos⟩ : ∃ lease allocation, node.outstanding.get? lease =
      some allocation ∧
        0 < amountAt ((allocation.get? r).getD []) i := by
      by_contra hnone
      push Not at hnone
      apply hheld
      apply List.sum_eq_zero
      intro a ha
      obtain ⟨e, he, rfl⟩ := List.mem_map.mp ha
      have hlease := Dict.get?_eq_some_iff.mpr he
      exact le_antisymm (hnone e.1 e.2 hlease) ((h.fit e.1 e.2 hlease).nonneg r i)
    cases ha : allocation.get? r with
    | none =>
      rw [ha] at hpos
      exact absurd hpos (lt_irrefl 0)
    | some a =>
      rw [ha] at hpos
      obtain ⟨w, _, _, hbusy⟩ := h.marked lease allocation hlease r a ha hr i hpos
      rw [not_isLocalNodeIdle_of_busy hbusy] at hidle
      cases hidle

/-- In every run that adds only to resources not in use the local resources are accounted for. -/
theorem accounted_of_reach {isUnitInstanceResource : ResourceID → Bool} {nodeTotal : NodeResourceSet}
    {total : NodeResourceInstanceSet}
    (htotal : ofTotal isUnitInstanceResource nodeTotal = .ok total) (draining : Bool)
    (now : ℤ) {node : LocalNode}
    (h : Reach step (fun node operation => node.Proper operation ∧ node.Careful operation)
      (start total draining now) node) :
    node.Accounted := by
  have hinv : node.Inv := by
    apply Reach.inv h (inv_start (oneImplicit_of_ofTotal htotal) draining now)
    intro node operation node' hinv hok hstep
    exact inv_step hinv hok.1 hok.2 hstep
  exact hinv.accounted

theorem twoCpus_ne_nil : ([20000] : List ℤ) ≠ [] := List.cons_ne_nil _ _

/-- A node with two CPUs. -/
def twoCpus : NodeResourceInstanceSet := empty.store ⟨"CPU"⟩ [20000] twoCpus_ne_nil

theorem ofTotal_twoCpus :
    ofTotal (fun _ => false) (DefaultMap.empty.set ⟨"CPU"⟩ 20000) = .ok twoCpus := rfl

/-- A demand for one CPU. -/
def oneCpu : ResourceSet := DefaultMap.empty.set ⟨"CPU"⟩ 10000

theorem nonneg_oneCpu : oneCpu.Nonneg := by
  intro r
  unfold oneCpu
  rw [DefaultMap.get_set]
  split_ifs
  · decide
  · exact le_refl 0

theorem pgRequests_oneCpu : PgRequests oneCpu := by
  have hentries : (pgResourceMap oneCpu).entries = [] := by decide
  intro e he
  rw [hentries] at he
  cases he

/-- The draining node after one CPU was allocated. -/
def nodeInUse : LocalNode where
  manager :=
    { available := twoCpus.store ⟨"CPU"⟩ [10000] (List.cons_ne_nil _ _)
      total := twoCpus
      idleTimeStates := Dict.ofList [(.resource ⟨"CPU"⟩, ⟨none, none⟩)]
      isLocalNodeDraining := true
      version := 1
      drained := 0 }
  outstanding := Dict.ofList [(0, Dict.ofList [(⟨"CPU"⟩, [10000])])]

theorem step_nodeInUse : (start twoCpus true 0).step (.allocate 0 oneCpu) = .ok nodeInUse := rfl

theorem proper_nodeInUse : (start twoCpus true 0).Proper (.allocate 0 oneCpu) := rfl

theorem careful_nodeInUse : (start twoCpus true 0).Careful (.allocate 0 oneCpu) :=
  ⟨nonneg_oneCpu, pgRequests_oneCpu⟩

theorem accounted_of_reach_nodeInUse : nodeInUse.Accounted :=
  accounted_of_reach ofTotal_twoCpus true 0
    (.tail .refl ⟨proper_nodeInUse, careful_nodeInUse⟩ step_nodeInUse)

/-- Adding to a resource in use makes the node idle, and a draining node is shut down with work on
it. -/
theorem not_accounted_addInUse : ofTotal (fun _ => false) (DefaultMap.empty.set ⟨"CPU"⟩ 20000) = .ok twoCpus ∧
    ∃ node, Reach step Proper (start twoCpus true 0) node ∧ ¬ node.Accounted ∧ node.manager.drained = 1 := by
  have hproper : nodeInUse.Proper (.add 1 ⟨"CPU"⟩ [10000]) := trivial
  refine ⟨ofTotal_twoCpus, _, .tail (.tail .refl proper_nodeInUse step_nodeInUse) hproper rfl, ?_, rfl⟩
  intro h
  have hsame := h.idle rfl ⟨"CPU"⟩ (by decide)
  exact absurd hsame (by decide)

end LocalNode

end RayTfm.Raylet
