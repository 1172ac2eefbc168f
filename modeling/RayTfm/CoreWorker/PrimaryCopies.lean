import RayTfm.CoreWorker.ReferenceTable
import RayTfm.Lib.Reach

/-! # Where the primary copy of an object is

The owner of an object keeps the node on which the primary copy is pinned and a mark that the object
was spilled, with the node whose disk holds it or no node for external storage.  Both are reported
late, and nodes die in between.  When the primary copy is lost the two are unset and the object is
queued for recovery; the recovery manager then asks again and does nothing for an object that is
pinned or marked as spilled.

`unsetObjectPrimaryCopy` removes the mark only if a node is recorded with it, and a report from a
node that is already dead sets the mark without recording the node.  So the mark can outlive the
copy when such a report finds no node recorded, and never otherwise
(`available_of_recoverObject_skipped`). -/

namespace RayTfm.CoreWorker

open RayTfm.Raylet

variable {O N : Type} [DecidableEq O] [DecidableEq N]

/-! ### Pinning and spilling -/

/-- `ReferenceCounter::UnsetObjectPrimaryCopy`. -/
def Reference.unsetObjectPrimaryCopy (ref : Reference O N) : Reference O N :=
  if ref.spilled ∧ ref.spilledNodeId ≠ none then
    { ref with pinnedAtNodeId := none, spilled := false, spilledUrl := "", spilledNodeId := none }
  else { ref with pinnedAtNodeId := none }

/-- What `HandleObjectSpilled` records for a node that is alive, or for external storage. -/
def Reference.spilledAt (ref : Reference O N) (spilledUrl : String) (spilledNodeId : Option N) :
    Reference O N :=
  { ref with
    spilledUrl := if spilledUrl = "" then ref.spilledUrl else spilledUrl
    spilledNodeId := if spilledNodeId = none then ref.spilledNodeId else spilledNodeId }

namespace ReferenceCounter

/-- Rewrite an entry and queue its object for recovery. -/
def setRefToRecover (counter : ReferenceCounter O N) (objectId : O) (ref : Reference O N) :
    ReferenceCounter O N :=
  { counter.setRef objectId ref with objectsToRecover := counter.objectsToRecover ++ [objectId] }

/-- One turn of the loop of `ResetObjectsOnRemovedNode`. -/
def resetObjectOnRemovedNode (lineagePinningEnabled : Bool) (nodeId : N)
    (counter : ReferenceCounter O N)
    (objectId : O) : ReferenceCounter O N :=
  match counter.objectIdRefs.get? objectId with
  | none => counter
  | some ref =>
    if ref.pinnedAtNodeId = some nodeId ∨ ref.spilledNodeId = some nodeId then
      if ref.unsetObjectPrimaryCopy.outOfScope lineagePinningEnabled then
        counter.setRef objectId ref.unsetObjectPrimaryCopy
      else counter.setRefToRecover objectId ref.unsetObjectPrimaryCopy
    else counter

/-- `ReferenceCounter::ResetObjectsOnRemovedNode`. -/
def resetObjectsOnRemovedNode (lineagePinningEnabled : Bool) (counter : ReferenceCounter O N)
    (nodeId : N) :
    ReferenceCounter O N :=
  counter.objectIdRefs.keys.foldl (resetObjectOnRemovedNode lineagePinningEnabled nodeId) counter

/-- `ReferenceCounter::FlushObjectsToRecover`. -/
def flushObjectsToRecover (counter : ReferenceCounter O N) : List O × ReferenceCounter O N :=
  (counter.objectsToRecover, { counter with objectsToRecover := [] })

/-- `ReferenceCounter::UpdateObjectPinnedAtRaylet`. -/
def updateObjectPinnedAtRaylet (lineagePinningEnabled : Bool) (isNodeDead : N → Bool)
    (counter : ReferenceCounter O N) (objectId : O) (nodeId : N) :
    Except RayError (ReferenceCounter O N) :=
  match counter.objectIdRefs.get? objectId with
  | none => .ok counter
  | some ref =>
    if objectId ∈ counter.freedObjects then .ok counter
    else do
      rayCheck ref.ownedByUs "it->second.owned_by_us_"
      return (
        if ref.outOfScope lineagePinningEnabled then counter
        else if isNodeDead nodeId then counter.setRefToRecover objectId ref.unsetObjectPrimaryCopy
        else counter.setRef objectId { ref with pinnedAtNodeId := some nodeId })

/-- `ReferenceCounter::HandleObjectSpilled`: whether the report was accepted, and the table after
it. -/
def handleObjectSpilled (lineagePinningEnabled : Bool) (isNodeDead : N → Bool)
    (counter : ReferenceCounter O N)
    (objectId : O) (spilledUrl : String) (spilledNodeId : Option N) : Bool × ReferenceCounter O N :=
  match counter.objectIdRefs.get? objectId with
  | none => (false, counter)
  | some ref =>
    if ref.outOfScope lineagePinningEnabled ∧ spilledNodeId ≠ none then (false, counter)
    else
      let marked := { ref with spilled := true, didSpill := true }
      let spilledLocationAlive := spilledNodeId.all (fun nodeId => !isNodeDead nodeId)
      if spilledLocationAlive then
        (true, counter.setRef objectId (marked.spilledAt spilledUrl spilledNodeId))
      else (true, counter.setRefToRecover objectId marked.unsetObjectPrimaryCopy)

/-- `ReferenceCounter::IsPlasmaObjectPinnedOrSpilled`: owned by us, pinned at, spilled. -/
def isPlasmaObjectPinnedOrSpilled (counter : ReferenceCounter O N) (objectId : O) :
    Option (Bool × Option N × Bool) :=
  match counter.objectIdRefs.get? objectId with
  | none => none
  | some ref => if ref.ownedByUs then some (true, ref.pinnedAtNodeId, ref.spilled)
      else some (false, none, false)

end ReferenceCounter

/-! ### Recovery -/

/-- What `RecoverObject` does. -/
inductive Recovery where
  | leftToGcs
  | refNotFound
  | borrowed
  | started
  | alreadyStarted
  | skipped
deriving DecidableEq, Repr

/-- `ObjectRecoveryManager::RecoverObject`: the branch taken, and `objects_pending_recovery_` after
it. -/
def recoverObject (isForActorCreationTask : O → Bool) (objectsPendingRecovery : List O)
    (counter : ReferenceCounter O N) (objectId : O) : Recovery × List O :=
  if isForActorCreationTask objectId then (.leftToGcs, objectsPendingRecovery)
  else match counter.isPlasmaObjectPinnedOrSpilled objectId with
  | none => (.refNotFound, objectsPendingRecovery)
  | some (ownedByUs, pinnedAt, spilled) =>
    if !ownedByUs then (.borrowed, objectsPendingRecovery)
    else if pinnedAt = none ∧ !spilled then
      if objectId ∈ objectsPendingRecovery then (.alreadyStarted, objectsPendingRecovery)
      else (.started, objectsPendingRecovery ++ [objectId])
    else (.skipped, objectsPendingRecovery)

variable {ref : Reference O N}
variable {o : O}

omit [DecidableEq N] in
theorem pinned_or_spilled_of_recoverObject_skipped {isForActorCreationTask : O → Bool}
    {objectsPendingRecovery : List O}
    {counter : ReferenceCounter O N} (hget : counter.objectIdRefs.get? o = some ref)
    (h : (recoverObject isForActorCreationTask objectsPendingRecovery counter o).1 = .skipped) :
    (∃ n, ref.pinnedAtNodeId = some n) ∨ ref.spilled = true := by
  unfold recoverObject ReferenceCounter.isPlasmaObjectPinnedOrSpilled at h
  rw [hget] at h
  cases hpinned : ref.pinnedAtNodeId with
  | some n => exact .inl ⟨n, rfl⟩
  | none =>
    right
    cases hspilled : ref.spilled with
    | true => rfl
    | false =>
      exfalso
      cases hactor : isForActorCreationTask o <;> cases howned : ref.ownedByUs <;>
        by_cases hpending : o ∈ objectsPendingRecovery <;>
        simp [hpinned, hspilled, hactor, howned, hpending] at h

/-! ### The owner and the nodes -/

/-- The table of an owner together with what happened around it: the nodes that died, those whose
removal was handled, the objects that were ever queued for recovery and, for each object, the node
of the last spill report that was accepted. -/
structure OwnerState (O N : Type) where
  counter : ReferenceCounter O N
  deadNodes : List N
  resetNodes : List N
  queued : List O
  lastSpill : Dict O (Option N)

/-- What can happen. -/
inductive OwnerOp (O N : Type) where
  | addOwnedObject (objectId : O) (innerIds : List O)
      (lineageEligibility : LineageReconstructionEligibility)
      (addLocalRef : Bool) (pinnedAtNodeId : Option N)
  | updateObjectPinnedAtRaylet (objectId : O) (nodeId : N)
  | handleObjectSpilled (objectId : O) (spilledUrl : String) (spilledNodeId : Option N)
  | nodeDies (nodeId : N)
  | resetObjectsOnRemovedNode (nodeId : N)
  | flushObjectsToRecover

namespace OwnerState

/-- A new worker. -/
def init : OwnerState O N := ⟨.empty, [], [], [], .empty⟩

/-- `is_node_dead_`. -/
def isNodeDead (w : OwnerState O N) (nodeId : N) : Bool := nodeId ∈ w.deadNodes

/-- A new table, with the objects queued in it recorded. -/
def withCounter (w : OwnerState O N) (counter : ReferenceCounter O N) : OwnerState O N :=
  { w with counter := counter, queued := w.queued ++ counter.objectsToRecover }

/-- One operation. -/
def step (lineagePinningEnabled : Bool) (w : OwnerState O N) :
    OwnerOp O N → Except RayError (OwnerState O N)
  | .addOwnedObject objectId innerIds lineageEligibility addLocalRef pinnedAtNodeId => do
      let counter ← w.counter.addOwnedObject objectId innerIds lineageEligibility addLocalRef
        pinnedAtNodeId
      return w.withCounter counter
  | .updateObjectPinnedAtRaylet objectId nodeId => do
      let counter ← w.counter.updateObjectPinnedAtRaylet lineagePinningEnabled w.isNodeDead
        objectId nodeId
      return w.withCounter counter
  | .handleObjectSpilled objectId spilledUrl spilledNodeId =>
    let (accepted, counter) :=
      w.counter.handleObjectSpilled lineagePinningEnabled w.isNodeDead objectId spilledUrl spilledNodeId
    let reported := w.withCounter counter
    .ok (if accepted then { reported with lastSpill := w.lastSpill.set objectId spilledNodeId }
      else reported)
  | .nodeDies nodeId => .ok { w with deadNodes := insertNew w.deadNodes nodeId }
  | .resetObjectsOnRemovedNode nodeId =>
    .ok { w.withCounter (w.counter.resetObjectsOnRemovedNode lineagePinningEnabled nodeId) with
      resetNodes := insertNew w.resetNodes nodeId }
  | .flushObjectsToRecover => .ok { w with counter := w.counter.flushObjectsToRecover.2 }

/-- The removal of a node is handled only after the node died. -/
def Admissible (w : OwnerState O N) : OwnerOp O N → Prop
  | .resetObjectsOnRemovedNode nodeId => nodeId ∈ w.deadNodes
  | _ => True

/-- A spill report that names a dead node finds a node recorded, when the object is in scope. -/
def SpillNodeRecorded (lineagePinningEnabled : Bool) (w : OwnerState O N) : OwnerOp O N → Prop
  | .handleObjectSpilled objectId _ (some nodeId) =>
    nodeId ∈ w.deadNodes → ∀ ref, w.counter.objectIdRefs.get? objectId = some ref →
      ref.outOfScope lineagePinningEnabled = false → ref.spilledNodeId ≠ none
  | _ => True

/-- The object is pinned at a node that is not dead, or the last report of its spill, whose mark is
still set, named external storage or a node that is not dead. -/
def Available (w : OwnerState O N) (o : O) (ref : Reference O N) : Prop :=
  (∃ n, ref.pinnedAtNodeId = some n ∧ n ∉ w.deadNodes) ∨
    (ref.spilled = true ∧ ∃ node, w.lastSpill.get? o = some node ∧ ∀ n, node = some n → n ∉ w.deadNodes)

end OwnerState

/-! ### Tables with the same copies -/

/-- The entries record the same copies. -/
def Reference.SameCopies (ref ref' : Reference O N) : Prop :=
  ref'.pinnedAtNodeId = ref.pinnedAtNodeId ∧ ref'.spilled = ref.spilled ∧
  ref'.spilledNodeId = ref.spilledNodeId

/-- Entries are added, and those that were there keep their copies. -/
structure ReferenceCounter.KeepsCopies (counter counter' : ReferenceCounter O N) : Prop where
  entry : ∀ o ref', counter'.objectIdRefs.get? o = some ref' →
    (∃ ref, counter.objectIdRefs.get? o = some ref ∧ ref.SameCopies ref') ∨
      (counter.objectIdRefs.get? o = none ∧ ref'.spilled = false)
  known : ∀ o, (counter.objectIdRefs.get? o).isSome → (counter'.objectIdRefs.get? o).isSome
  objectsToRecover : counter'.objectsToRecover = counter.objectsToRecover

namespace ReferenceCounter
omit [DecidableEq N]

theorem KeepsCopies.refl (counter : ReferenceCounter O N) : counter.KeepsCopies counter :=
  ⟨fun _ ref h => .inl ⟨ref, h, rfl, rfl, rfl⟩, fun _ h => h, rfl⟩

variable {counter counter' : ReferenceCounter O N}

theorem KeepsCopies.trans {counter'' : ReferenceCounter O N} (h : counter.KeepsCopies counter')
    (h' : counter'.KeepsCopies counter'') : counter.KeepsCopies counter'' := by
  refine ⟨fun o ref'' hget'' => ?_, fun o ho => h'.known o (h.known o ho),
    h'.objectsToRecover.trans h.objectsToRecover⟩
  rcases h'.entry o ref'' hget'' with ⟨ref', hget', hp', hs', hn'⟩ | ⟨hnone', hs''⟩
  · rcases h.entry o ref' hget' with ⟨ref, hget, hp, hs, hn⟩ | ⟨hnone, hs⟩
    · exact .inl ⟨ref, hget, hp'.trans hp, hs'.trans hs, hn'.trans hn⟩
    · exact .inr ⟨hnone, hs'.trans hs⟩
  · refine .inr ⟨?_, hs''⟩
    cases hget : counter.objectIdRefs.get? o with
    | none => rfl
    | some ref =>
      have := h.known o (by rw [hget]; rfl)
      rw [hnone'] at this
      cases this

theorem keepsCopies_setRef (counter : ReferenceCounter O N) {o : O} {ref' : Reference O N}
    (h : (∃ ref, counter.objectIdRefs.get? o = some ref ∧ ref.SameCopies ref') ∨
      (counter.objectIdRefs.get? o = none ∧ ref'.spilled = false)) : counter.KeepsCopies
        (counter.setRef o ref') := by
  refine ⟨fun o₁ ref₁ hget => ?_, fun o₁ ho₁ => ?_, rfl⟩
  · rw [setRef, Dict.get?_set] at hget
    split at hget
    · next heq =>
        cases hget
        rw [heq]
        exact h
    · exact .inl ⟨ref₁, hget, rfl, rfl, rfl⟩
  · rw [setRef, Dict.get?_set]
    split
    · rfl
    · exact ho₁

theorem keepsCopies_addContainedInOwned (o : O) (counter : ReferenceCounter O N) (innerId : O) :
    counter.KeepsCopies (addContainedInOwned o counter innerId) := by
  apply keepsCopies_setRef
  cases hget : counter.objectIdRefs.get? innerId with
  | none => exact .inr ⟨rfl, rfl⟩
  | some inner => exact .inl ⟨inner, rfl, rfl, rfl, rfl⟩

theorem keepsCopies_foldl_addContainedInOwned (o : O) (innerIds : List O)
    (counter : ReferenceCounter O N) :
    counter.KeepsCopies (innerIds.foldl (addContainedInOwned o) counter) := by
  induction innerIds generalizing counter with
  | nil => exact .refl counter
  | cons innerId innerIds ih => exact (keepsCopies_addContainedInOwned o counter innerId).trans (ih _)

theorem keepsCopies_addNestedObjectIdsInternal {o : O} {innerIds : List O}
    (h : counter.addNestedObjectIdsInternal o innerIds = .ok counter') :
    counter.KeepsCopies counter' := by
  unfold addNestedObjectIdsInternal at h
  cases hget : counter.objectIdRefs.get? o with
  | none =>
    rw [hget] at h
    cases h
    exact .refl counter
  | some ref =>
    rw [hget] at h
    cases howned : ref.ownedByUs with
    | false =>
      simp only [howned] at h
      cases h
    | true =>
      simp only [howned] at h
      cases h
      apply KeepsCopies.trans _ (keepsCopies_foldl_addContainedInOwned o innerIds _)
      exact keepsCopies_setRef counter (.inl ⟨ref, hget, rfl, rfl, rfl⟩)

theorem keepsCopies_addFirstLocalRef (counter : ReferenceCounter O N) (o : O) :
    counter.KeepsCopies (counter.addFirstLocalRef o) := by
  unfold addFirstLocalRef
  cases hget : counter.objectIdRefs.get? o with
  | none => exact .refl counter
  | some ref => exact keepsCopies_setRef counter (.inl ⟨ref, hget, rfl, rfl, rfl⟩)

theorem keepsCopies_addOwnedObject {o : O} {innerIds : List O}
    {lineageEligibility : LineageReconstructionEligibility} {addLocalRef : Bool}
    {pinnedAtNodeId : Option N}
    (h : counter.addOwnedObject o innerIds lineageEligibility addLocalRef pinnedAtNodeId =
      .ok counter') :
    counter.KeepsCopies counter' := by
  unfold addOwnedObject at h
  cases hget : counter.objectIdRefs.get? o with
  | some ref =>
    rw [hget] at h
    cases h
  | none =>
    rw [hget] at h
    have hadded : counter.KeepsCopies (counter.setRef o (.created lineageEligibility pinnedAtNodeId)) :=
      keepsCopies_setRef counter (.inr ⟨hget, rfl⟩)
    obtain ⟨nested, hnested, h⟩ : ∃ nested, counter.KeepsCopies nested ∧ (do
        rayCheck (o ∉ nested.reconstructableOwnedObjects) "reconstructable_owned_objects_index_.emplace"
        let indexed := { nested with reconstructableOwnedObjects :=
          nested.reconstructableOwnedObjects ++ [o] }
        return if addLocalRef then indexed.addFirstLocalRef o else indexed) = .ok counter' := by
      cases hinner : innerIds.isEmpty with
      | true =>
        rw [hinner] at h
        exact ⟨_, hadded, h⟩
      | false =>
        rw [hinner] at h
        cases hn : (counter.setRef o
          (.created lineageEligibility pinnedAtNodeId)).addNestedObjectIdsInternal
            o innerIds with
        | error e =>
          simp only [hn] at h
          cases h
        | ok nested =>
          simp only [hn] at h
          exact ⟨nested, hadded.trans (keepsCopies_addNestedObjectIdsInternal hn), h⟩
    by_cases hindexed : o ∈ nested.reconstructableOwnedObjects
    · simp only [hindexed, not_true_eq_false, decide_false] at h
      cases h
    · simp only [hindexed, not_false_eq_true, decide_true] at h
      cases h
      have hkeep : nested.KeepsCopies
          { nested with reconstructableOwnedObjects := nested.reconstructableOwnedObjects ++ [o] } :=
        ⟨fun _ ref h => .inl ⟨ref, h, rfl, rfl, rfl⟩, fun _ h => h, rfl⟩
      cases addLocalRef with
      | true => exact (hnested.trans hkeep).trans (keepsCopies_addFirstLocalRef _ o)
      | false => exact hnested.trans hkeep

end ReferenceCounter

/-! ### The copies that an entry records -/

/-- An object that was queued is pinned only at a node whose removal was not handled, and a spill
mark stands for external storage or for such a node, which the entry then records. -/
structure OwnerState.Sound (w : OwnerState O N) (o : O) (ref : Reference O N) : Prop where
  pinned : o ∈ w.queued → ∀ n, ref.pinnedAtNodeId = some n → n ∉ w.resetNodes
  spilled : ref.spilled = true → w.lastSpill.get? o = some none ∨
    ∃ n, w.lastSpill.get? o = some (some n) ∧ ref.spilledNodeId = some n ∧ n ∉ w.resetNodes

/-- What every operation keeps. -/
structure OwnerState.Inv (w : OwnerState O N) : Prop where
  sound : ∀ o ref, w.counter.objectIdRefs.get? o = some ref → w.Sound o ref
  dead : ∀ n ∈ w.resetNodes, n ∈ w.deadNodes
  pending : ∀ o ∈ w.counter.objectsToRecover, o ∈ w.queued
  known : ∀ o ∈ w.queued, (w.counter.objectIdRefs.get? o).isSome

variable {w : OwnerState O N}

omit [DecidableEq N] in
/-- Without a primary copy an entry is sound if its mark stands for external storage. -/
theorem OwnerState.Sound.unset
    (h : ref.spilledNodeId = none → ref.spilled = true → w.lastSpill.get? o = some none) :
    w.Sound o ref.unsetObjectPrimaryCopy := by
  unfold Reference.unsetObjectPrimaryCopy
  split
  · exact ⟨nofun, nofun⟩
  · next hmark =>
      refine ⟨nofun, fun hspilled => ?_⟩
      have hnode : ref.spilledNodeId = none := by
        by_contra hnode
        exact hmark ⟨hspilled, hnode⟩
      exact .inl (h hnode hspilled)

omit [DecidableEq N] in
theorem OwnerState.Sound.external (h : w.Sound o ref)
    (hnode : ref.spilledNodeId = none) (hspilled : ref.spilled = true) :
    w.lastSpill.get? o = some none := by
  rcases h.spilled hspilled with hexternal | ⟨n, _, hn, _⟩
  · exact hexternal
  · rw [hnode] at hn
    cases hn

omit [DecidableEq N] in
theorem OwnerState.Sound.congr {w' : OwnerState O N} {ref' : Reference O N} (h : w.Sound o ref)
    (hsame : ref.SameCopies ref') (hqueued : o ∈ w'.queued → o ∈ w.queued)
    (hlast : w'.lastSpill.get? o = w.lastSpill.get? o) (hreset : w'.resetNodes = w.resetNodes) :
    w'.Sound o ref' := by
  obtain ⟨hpinned, hspilled, hnode⟩ := hsame
  refine ⟨fun hq n hn => ?_, fun hs => ?_⟩
  · rw [hreset]
    rw [hpinned] at hn
    exact h.pinned (hqueued hq) n hn
  · rw [hreset, hlast, hnode]
    rw [hspilled] at hs
    exact h.spilled hs

/-! ### Removed nodes -/

/-- What the removal of a node makes of an entry. -/
def Reference.resetOnRemovedNode (ref : Reference O N) (nodeId : N) : Reference O N :=
  if ref.pinnedAtNodeId = some nodeId ∨
    ref.spilledNodeId = some nodeId then ref.unsetObjectPrimaryCopy else ref

namespace ReferenceCounter

theorem get?_resetObjectOnRemovedNode (lineagePinningEnabled : Bool) (n : N)
    (counter : ReferenceCounter O N) (o o₁ : O) :
    (resetObjectOnRemovedNode lineagePinningEnabled n counter o).objectIdRefs.get? o₁ =
      if o₁ = o then (counter.objectIdRefs.get? o).map (·.resetOnRemovedNode n)
      else counter.objectIdRefs.get? o₁ := by
  unfold resetObjectOnRemovedNode
  cases hget : counter.objectIdRefs.get? o with
  | none =>
    by_cases heq : o₁ = o
    · rw [if_pos heq, heq]
      exact hget
    · rw [if_neg heq]
  | some ref =>
    simp only [Option.map_some, Reference.resetOnRemovedNode]
    split
    · split <;> rw [← Dict.get?_set] <;> rfl
    · by_cases heq : o₁ = o
      · rw [if_pos heq, heq, hget]
      · rw [if_neg heq]

theorem mem_objectsToRecover_resetObjectOnRemovedNode {lineagePinningEnabled : Bool} {n : N}
    {counter : ReferenceCounter O N} {o o₁ : O}
    (h : o₁ ∈ (resetObjectOnRemovedNode lineagePinningEnabled n counter o).objectsToRecover) :
    o₁ ∈ counter.objectsToRecover ∨ (o₁ = o ∧ ∃ ref, counter.objectIdRefs.get? o = some ref ∧
      (ref.pinnedAtNodeId = some n ∨ ref.spilledNodeId = some n)) := by
  unfold resetObjectOnRemovedNode at h
  cases hget : counter.objectIdRefs.get? o with
  | none =>
    rw [hget] at h
    exact .inl h
  | some ref =>
    simp only [hget] at h
    split at h
    · next hnode =>
        split at h
        · exact .inl h
        · rcases List.mem_append.1 h with h | h
          · exact .inl h
          · exact .inr ⟨List.mem_singleton.1 h, ref, rfl, hnode⟩
    · exact .inl h

theorem foldl_resetObjectOnRemovedNode (lineagePinningEnabled : Bool) (n : N) {l : List O}
    (hl : l.Nodup)
    (counter : ReferenceCounter O N) :
    (∀ o, (l.foldl (resetObjectOnRemovedNode lineagePinningEnabled n) counter).objectIdRefs.get? o =
      if o ∈ l then (counter.objectIdRefs.get? o).map (·.resetOnRemovedNode n)
      else counter.objectIdRefs.get? o) ∧
    ∀ o ∈ (l.foldl (resetObjectOnRemovedNode lineagePinningEnabled n) counter).objectsToRecover,
      o ∈ counter.objectsToRecover ∨ ∃ ref, counter.objectIdRefs.get? o = some ref ∧
        (ref.pinnedAtNodeId = some n ∨ ref.spilledNodeId = some n) := by
  induction l generalizing counter with
  | nil => exact ⟨fun o => rfl, fun o ho => .inl ho⟩
  | cons a l ih =>
    obtain ⟨hal, hl⟩ := List.nodup_cons.1 hl
    obtain ⟨hget, hmem⟩ := ih hl (resetObjectOnRemovedNode lineagePinningEnabled n counter a)
    rw [List.foldl_cons]
    refine ⟨fun o => ?_, fun o ho => ?_⟩
    · rw [hget o, get?_resetObjectOnRemovedNode]
      by_cases hoa : o = a
      · subst hoa
        simp [hal]
      · simp [hoa]
    · rcases hmem o ho with h | ⟨ref, href, hnode⟩
      · rcases mem_objectsToRecover_resetObjectOnRemovedNode h with h | ⟨rfl, h⟩
        · exact .inl h
        · exact .inr h
      · rw [get?_resetObjectOnRemovedNode] at href
        split at href
        · next heq =>
            obtain ⟨ref₀, href₀, rfl⟩ := Option.map_eq_some_iff.1 href
            refine .inr ⟨ref₀, heq ▸ href₀, ?_⟩
            by_contra hnot
            rw [Reference.resetOnRemovedNode, if_neg hnot] at hnode
            exact hnot hnode
        · exact .inr ⟨ref, href, hnode⟩

theorem get?_resetObjectsOnRemovedNode (lineagePinningEnabled : Bool)
    (counter : ReferenceCounter O N) (n : N) (o : O) :
    (counter.resetObjectsOnRemovedNode lineagePinningEnabled n).objectIdRefs.get? o =
      (counter.objectIdRefs.get? o).map (·.resetOnRemovedNode n) := by
  unfold resetObjectsOnRemovedNode
  rw [(foldl_resetObjectOnRemovedNode lineagePinningEnabled n counter.objectIdRefs.keys_nodup
    counter).1 o]
  split
  · rfl
  · next hnot => rw [Dict.get?_eq_none_iff.2 hnot]; rfl

end ReferenceCounter

/-! ### Every operation keeps the invariant -/

namespace OwnerState

omit [DecidableEq N] in
theorem inv_init : (init : OwnerState O N).Inv := by
  refine ⟨fun o ref h => ?_, nofun, nofun, nofun⟩
  cases h

variable {w : OwnerState O N} {counter : ReferenceCounter O N}

omit [DecidableEq N] in
theorem Inv.withCounter_of_keepsCopies (h : w.Inv)
    (hkeep : w.counter.KeepsCopies counter) : (w.withCounter counter).Inv := by
  have hqueued : ∀ o ∈ (w.withCounter counter).queued, o ∈ w.queued := by
    intro o ho
    rcases List.mem_append.1 ho with ho | ho
    · exact ho
    · rw [hkeep.objectsToRecover] at ho
      exact h.pending o ho
  refine ⟨fun o ref' hget => ?_, h.dead, fun o ho => List.mem_append_right _ ho,
    fun o ho => hkeep.known o (h.known o (hqueued o ho))⟩
  rcases hkeep.entry o ref' hget with ⟨ref, href, hsame⟩ | ⟨hnone, hspilled⟩
  · exact (h.sound o ref href).congr hsame (hqueued o) rfl rfl
  · refine ⟨fun ho => ?_, fun hs => ?_⟩
    · have := h.known o (hqueued o ho)
      rw [hnone] at this
      cases this
    · rw [hspilled] at hs
      cases hs

omit [DecidableEq N] in
/-- A table in which one entry is rewritten, and its object perhaps queued; the report of a spill
may be recorded. -/
theorem Inv.withCounter_of_setRef (h : w.Inv) {o : O}
    {ref' : Reference O N} {lastSpill : Dict O (Option N)}
    (hrefs : counter.objectIdRefs = w.counter.objectIdRefs.set o ref')
    (hrecover : ∀ o₁ ∈ counter.objectsToRecover, o₁ ∈ w.counter.objectsToRecover ∨ o₁ = o)
    (hlast : ∀ o₁, o₁ ≠ o → lastSpill.get? o₁ = w.lastSpill.get? o₁)
    (hsound : ({ w.withCounter counter with lastSpill := lastSpill } : OwnerState O N).Sound o ref') :
    ({ w.withCounter counter with lastSpill := lastSpill } : OwnerState O N).Inv := by
  have hqueued : ∀ o₁ ∈ (w.withCounter counter).queued, o₁ ∈ w.queued ∨ o₁ = o := by
    intro o₁ ho₁
    rcases List.mem_append.1 ho₁ with ho₁ | ho₁
    · exact .inl ho₁
    · exact (hrecover o₁ ho₁).imp_left (h.pending o₁)
  refine ⟨fun o₁ ref₁ hget₁ => ?_, h.dead, fun o₁ ho₁ => List.mem_append_right _ ho₁, fun o₁ ho₁ => ?_⟩
  · have hget₁ : counter.objectIdRefs.get? o₁ = some ref₁ := hget₁
    rw [hrefs, Dict.get?_set] at hget₁
    split at hget₁
    · next heq =>
        cases hget₁
        rw [heq]
        exact hsound
    · next hne =>
        exact (h.sound o₁ ref₁ hget₁).congr ⟨rfl, rfl, rfl⟩
          (fun hq => (hqueued o₁ hq).resolve_right hne)
          (hlast o₁ hne) rfl
  · show (counter.objectIdRefs.get? o₁).isSome
    rw [hrefs, Dict.get?_set]
    split
    · rfl
    · next hne => exact h.known o₁ ((hqueued o₁ ho₁).resolve_right hne)

theorem not_mem_resetNodes_of_alive (h : w.Inv) {n : N} (hn : w.isNodeDead n = false) :
    n ∉ w.resetNodes := by
  intro hmem
  have hdead : w.isNodeDead n = true := decide_eq_true (h.dead n hmem)
  rw [hn] at hdead
  cases hdead

variable {lineagePinningEnabled : Bool}

theorem Inv.updateObjectPinnedAtRaylet (h : w.Inv) {o : O} {n : N}
    (hstep : w.counter.updateObjectPinnedAtRaylet lineagePinningEnabled w.isNodeDead o n =
      .ok counter) :
    (w.withCounter counter).Inv := by
  unfold ReferenceCounter.updateObjectPinnedAtRaylet at hstep
  cases hget : w.counter.objectIdRefs.get? o with
  | none =>
    rw [hget] at hstep
    cases hstep
    exact h.withCounter_of_keepsCopies (.refl _)
  | some ref =>
    simp only [hget] at hstep
    split at hstep
    · cases hstep
      exact h.withCounter_of_keepsCopies (.refl _)
    cases howned : ref.ownedByUs with
    | false =>
      simp only [howned] at hstep
      cases hstep
    | true =>
      simp only [howned] at hstep
      have hcounter := Except.ok.inj hstep
      subst hcounter
      have hsound := h.sound o ref hget
      split
      · exact h.withCounter_of_keepsCopies (.refl _)
      split
      · exact h.withCounter_of_setRef rfl
          (fun o₁ ho₁ => (List.mem_append.1 ho₁).imp_right List.mem_singleton.1) (fun _ _ => rfl)
          (.unset hsound.external)
      · next halive =>
          refine h.withCounter_of_setRef rfl (fun o₁ ho₁ => .inl ho₁) (fun _ _ => rfl)
            ⟨fun _ n₁ hn₁ => ?_, ?_⟩
          · cases hn₁
            exact not_mem_resetNodes_of_alive h (Bool.eq_false_iff.2 halive)
          · exact hsound.spilled

variable {w' : OwnerState O N}

/-- The report of a spill, if a dead node is named only when the entry records a node. -/
theorem Inv.handleObjectSpilled (h : w.Inv) {o : O} {spilledUrl : String} {spilledNodeId : Option N}
    (hrecorded : w.SpillNodeRecorded lineagePinningEnabled
      (.handleObjectSpilled o spilledUrl spilledNodeId))
    (hstep : w.step lineagePinningEnabled (.handleObjectSpilled o spilledUrl spilledNodeId) =
      .ok w') : w'.Inv := by
  have hw' := (Except.ok.inj hstep).symm
  subst hw'
  cases hget : w.counter.objectIdRefs.get? o with
  | none => exact h.withCounter_of_keepsCopies (.refl _)
  | some ref =>
    have hsound := h.sound o ref hget
    have hlast : ∀ o₁, o₁ ≠ o → (w.lastSpill.set o spilledNodeId).get? o₁ = w.lastSpill.get? o₁ :=
      fun o₁ hne => Dict.get?_set_ne _ _ hne
    simp only
    split
    · exact h.withCounter_of_keepsCopies (.refl _)
    · next hscope =>
        cases hnode : spilledNodeId with
        | none =>
          refine h.withCounter_of_setRef rfl (fun o₁ ho₁ => .inl ho₁) (hnode ▸ hlast)
            ⟨fun hq n hn => ?_, fun _ => ?_⟩
          · apply hsound.pinned _ n hn
            exact (List.mem_append.1 hq).elim id (h.pending o)
          · exact .inl (Dict.get?_set_self _ _ _)
        | some n =>
          cases hdead : w.isNodeDead n with
          | false =>
            have halive := not_mem_resetNodes_of_alive h hdead
            simp only [Option.all_some, hdead]
            refine h.withCounter_of_setRef rfl (fun o₁ ho₁ => .inl ho₁) (hnode ▸ hlast)
              ⟨fun hq n₁ hn₁ => ?_, fun _ => ?_⟩
            · apply hsound.pinned _ n₁ hn₁
              exact (List.mem_append.1 hq).elim id (h.pending o)
            · exact .inr ⟨n, Dict.get?_set_self _ _ _, rfl, halive⟩
          | true =>
            simp only [Option.all_some, hdead]
            refine h.withCounter_of_setRef rfl
              (fun o₁ ho₁ => (List.mem_append.1 ho₁).imp_right List.mem_singleton.1)
              (hnode ▸ hlast) (.unset fun hnone _ => ?_)
            rw [hnode] at hrecorded hscope
            have hin : ref.outOfScope lineagePinningEnabled = false := by
              rw [Bool.eq_false_iff]
              exact fun hout => hscope ⟨hout, nofun⟩
            exact absurd hnone (hrecorded (of_decide_eq_true hdead) ref hget hin)

theorem Inv.resetObjectsOnRemovedNode (h : w.Inv) {n : N}
    (hdead : n ∈ w.deadNodes)
    (hstep : w.step lineagePinningEnabled (.resetObjectsOnRemovedNode n) = .ok w') :
    w'.Inv := by
  have hw' := (Except.ok.inj hstep).symm
  subst hw'
  have hget := ReferenceCounter.get?_resetObjectsOnRemovedNode lineagePinningEnabled w.counter n
  have hmem := (ReferenceCounter.foldl_resetObjectOnRemovedNode lineagePinningEnabled n
    w.counter.objectIdRefs.keys_nodup w.counter).2
  have hreset : ∀ n₁, n₁ ∉ w.resetNodes → n₁ ≠ n → n₁ ∉ insertNew w.resetNodes n := by
    intro n₁ hn₁ hne
    rw [mem_insertNew]
    exact fun hor => hor.elim hn₁ hne
  refine ⟨fun o ref' hget' => ?_, fun n₁ hn₁ => ?_, fun o ho => List.mem_append_right _ ho,
    fun o ho => ?_⟩
  · have hget' : (w.counter.resetObjectsOnRemovedNode lineagePinningEnabled n).objectIdRefs.get? o =
      some ref' := hget'
    rw [hget o] at hget'
    obtain ⟨ref, href, rfl⟩ := Option.map_eq_some_iff.1 hget'
    have hsound := h.sound o ref href
    unfold Reference.resetOnRemovedNode
    split
    · exact .unset hsound.external
    · next hnode =>
        have hpinned : ∀ n₁, ref.pinnedAtNodeId = some n₁ → n₁ ≠ n :=
          fun n₁ hn₁ heq => hnode (.inl (heq ▸ hn₁))
        have hspilled : ∀ n₁, ref.spilledNodeId = some n₁ → n₁ ≠ n :=
          fun n₁ hn₁ heq => hnode (.inr (heq ▸ hn₁))
        refine ⟨fun hq n₁ hn₁ => ?_, fun hs => ?_⟩
        · apply hreset n₁ _ (hpinned n₁ hn₁)
          apply hsound.pinned _ n₁ hn₁
          rcases List.mem_append.1 hq with hq | hq
          · exact hq
          · rcases hmem o hq with hq | ⟨ref₁, href₁, hnode₁⟩
            · exact h.pending o hq
            · rw [href] at href₁
              cases href₁
              exact absurd hnode₁ hnode
        · rcases hsound.spilled hs with hexternal | ⟨n₁, hlast, hn₁, hlive⟩
          · exact .inl hexternal
          · exact .inr ⟨n₁, hlast, hn₁, hreset n₁ hlive (hspilled n₁ hn₁)⟩
  · rcases mem_insertNew.1 hn₁ with hn₁ | rfl
    · exact h.dead n₁ hn₁
    · exact hdead
  · show ((w.counter.resetObjectsOnRemovedNode lineagePinningEnabled n).objectIdRefs.get? o).isSome
    rw [hget o, Option.isSome_map]
    rcases List.mem_append.1 ho with ho | ho
    · exact h.known o ho
    · rcases hmem o ho with ho | ⟨ref, href, _⟩
      · exact h.known o (h.pending o ho)
      · rw [href]; rfl

theorem Inv.nodeDies (h : w.Inv) (n : N) :
    ({ w with deadNodes := insertNew w.deadNodes n } : OwnerState O N).Inv :=
  ⟨fun o ref hget => (h.sound o ref hget).congr ⟨rfl, rfl, rfl⟩ id rfl rfl,
    fun n₁ hn₁ => mem_insertNew.2 (.inl (h.dead n₁ hn₁)), h.pending, h.known⟩

omit [DecidableEq N] in
theorem Inv.flushObjectsToRecover (h : w.Inv) :
    ({ w with counter := w.counter.flushObjectsToRecover.2 } : OwnerState O N).Inv :=
  ⟨fun o ref hget => (h.sound o ref hget).congr ⟨rfl, rfl, rfl⟩ id rfl rfl, h.dead, nofun, h.known⟩

theorem inv_step {op : OwnerOp O N} (h : w.Inv)
    (hok : w.Admissible op ∧ w.SpillNodeRecorded lineagePinningEnabled op)
    (hstep : w.step lineagePinningEnabled op = .ok w') : w'.Inv := by
  cases op with
  | addOwnedObject o innerIds lineageEligibility addLocalRef pinnedAtNodeId =>
    obtain ⟨counter, hadd, hw'⟩ := bind_eq_ok.1 hstep
    cases hw'
    exact h.withCounter_of_keepsCopies (ReferenceCounter.keepsCopies_addOwnedObject hadd)
  | updateObjectPinnedAtRaylet o n =>
    obtain ⟨counter, hupdate, hw'⟩ := bind_eq_ok.1 hstep
    cases hw'
    exact h.updateObjectPinnedAtRaylet hupdate
  | handleObjectSpilled o spilledUrl spilledNodeId => exact h.handleObjectSpilled hok.2 hstep
  | nodeDies n =>
    cases hstep
    exact h.nodeDies n
  | resetObjectsOnRemovedNode n => exact h.resetObjectsOnRemovedNode hok.1 hstep
  | flushObjectsToRecover =>
    cases hstep
    exact h.flushObjectsToRecover

end OwnerState

/-! ### What recovery skips -/

/-- In a run in which every spill report of a dead node finds a node recorded, recovery of an object
that was queued is skipped, once all removals have been handled, only if a copy is left. -/
theorem available_of_recoverObject_skipped {lineagePinningEnabled : Bool} {w : OwnerState O N}
    (hreach : Reach (OwnerState.step lineagePinningEnabled)
      (fun w op => w.Admissible op ∧ w.SpillNodeRecorded lineagePinningEnabled op) .init w)
    {o : O} {ref : Reference O N} (hget : w.counter.objectIdRefs.get? o = some ref)
    (_ : ref.ownedByUs = true)
    (_ : ref.outOfScope lineagePinningEnabled = false) (hqueued : o ∈ w.queued)
    (hresets : ∀ n ∈ w.deadNodes, n ∈ w.resetNodes) {isForActorCreationTask : O → Bool}
    {objectsPendingRecovery : List O}
    (hskipped : (recoverObject isForActorCreationTask objectsPendingRecovery w.counter o).1 =
      .skipped) :
    w.Available o ref := by
  have hinv : w.Inv := hreach.inv OwnerState.inv_init fun _ _ _ h hok hstep =>
    OwnerState.inv_step h hok hstep
  have hsound := hinv.sound o ref hget
  have halive : ∀ n, n ∉ w.resetNodes → n ∉ w.deadNodes := fun n hn hdead => hn (hresets n hdead)
  rcases pinned_or_spilled_of_recoverObject_skipped hget hskipped with ⟨n, hn⟩ | hspilled
  · exact .inl ⟨n, hn, halive n (hsound.pinned hqueued n hn)⟩
  · right
    refine ⟨hspilled, ?_⟩
    rcases hsound.spilled hspilled with hlast | ⟨n, hlast, _, hn⟩
    · exact ⟨none, hlast, nofun⟩
    · refine ⟨some n, hlast, fun n₁ hn₁ => ?_⟩
      cases hn₁
      exact halive n hn

/-- An object is pinned at a node and spilled to external storage, and the node dies. -/
def externalSpill : OwnerState ℕ ℕ :=
  ⟨⟨Dict.ofList [(0, { Reference.created .eligible none with
        localRefCount := 1, pendingCreation := false, spilledUrl := "url", spilled :=
          true, didSpill := true })],
      [], [0], [0]⟩, [1], [1], [0], Dict.ofList [(0, none)]⟩

theorem available_of_recoverObject_skipped_external : externalSpill.Available 0
    { Reference.created .eligible none with
      localRefCount := 1, pendingCreation := false, spilledUrl := "url", spilled :=
        true, didSpill := true } :=
  have hreach : Reach (OwnerState.step true)
    (fun w op => w.Admissible op ∧ w.SpillNodeRecorded true op) .init
      externalSpill :=
    .tail (.tail (.tail (.tail .refl
      (i := .addOwnedObject 0 [] .eligible true (some 1)) ⟨trivial, trivial⟩ rfl)
      (i := .handleObjectSpilled 0 "url" none) ⟨trivial, trivial⟩ rfl)
      (i := .nodeDies 1) ⟨trivial, trivial⟩ rfl)
      (i := .resetObjectsOnRemovedNode 1) ⟨List.mem_singleton_self 1, trivial⟩ rfl
  have hskipped : (recoverObject (fun _ => false) [] externalSpill.counter 0).1 = .skipped := by decide
  available_of_recoverObject_skipped hreach rfl rfl (by decide) (by decide) (by decide) hskipped

/-- An object is pinned at a node, the node dies, and its report of a spill comes after its removal
was handled. -/
def lateSpill : OwnerState ℕ ℕ :=
  ⟨⟨Dict.ofList [(0, { Reference.created .eligible none with
        localRefCount := 1, pendingCreation := false, spilled := true, didSpill := true })],
      [], [0], [0, 0]⟩, [1], [1], [0, 0, 0], Dict.ofList [(0, some 1)]⟩

/-- A late spill report of the node that held the only copy makes recovery skip the lost object. -/
theorem recoverObject_skipped_lost :
    ¬ ∀ (w : OwnerState ℕ ℕ) (o : ℕ) (ref : Reference ℕ ℕ),
      Reach (OwnerState.step true) OwnerState.Admissible .init w →
      w.counter.objectIdRefs.get? o = some ref →
      ref.ownedByUs = true → ref.outOfScope true = false → o ∈ w.queued →
      (∀ n ∈ w.deadNodes, n ∈ w.resetNodes) →
      (recoverObject (fun _ => false) [] w.counter o).1 = .skipped →
      w.Available o ref := by
  intro h
  have hreach : Reach (OwnerState.step true) OwnerState.Admissible .init lateSpill :=
    .tail (.tail (.tail (.tail .refl
      (i := .addOwnedObject 0 [] .eligible true (some 1)) trivial rfl)
      (i := .nodeDies 1) trivial rfl)
      (i := .resetObjectsOnRemovedNode 1) (List.mem_singleton_self 1) rfl)
      (i := .handleObjectSpilled 0 "url" (some 1)) trivial rfl
  rcases h lateSpill 0 _ hreach rfl rfl (by decide) (by decide) (by decide) (by decide) with
    ⟨n, hn, _⟩ | ⟨_, node, hnode, hlive⟩
  · cases hn
  · cases hnode
    exact hlive 1 rfl (by decide)

end RayTfm.CoreWorker
