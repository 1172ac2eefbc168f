import RayTfm.CoreWorker.PrimaryCopies
import RayTfm.Lib.NestedDict

/-! # The operations of the reference counter

The whole of `ReferenceCounter` (`reference_counter.cc`) as far as it changes the table or the
counters of owned objects: an entry has, beside the fields of `Reference`, the size of the object
and what is known about borrowers.  The counters by state are seven numbers, `OwnedObjectCounter`;
what an entry adds to them is `ownedObjectCounts`, and `updateOwnedObjectCounters` adds or takes
that away.

A failed `RAY_CHECK` ends the process.  Procedures that call themselves have the depth of their
calls as a further argument.  An iterator is the id that it points to, and using one whose entry is
gone is a failure. Sets are lists in the order of insertion.  What only leaves the worker (messages,
callbacks, subscriptions, locations of copies) is left out. -/

namespace RayTfm.CoreWorker

open RayTfm.Raylet

variable {O N W : Type} [DecidableEq O] [DecidableEq N] [DecidableEq W]

/-! ### Entries -/

/-- `Reference`, with the size of the object and what is known about borrowers. -/
structure ReferenceEntry (O N W : Type) extends Reference O N where
  objectSize : ℤ
  ownerAddress : Option W
  containedInBorrowedIds : List O
  hasNestedRefsToReport : Bool
  borrowers : List W
  storedInObjects : Dict O W
  publishRefRemoved : Bool

namespace ReferenceEntry

/-- `Reference::Reference`, of unknown origin. -/
def unknown : ReferenceEntry O N W := ⟨.unknown, -1, none, [], false, [], .empty, false⟩

/-- `Reference::Reference`, for a reference that we created. -/
def created (ownerAddress : W) (objectSize : ℤ) (lineageEligibility : LineageReconstructionEligibility)
    (pinnedAtNodeId : Option N) : ReferenceEntry O N W :=
  { (unknown : ReferenceEntry O N W) with
    toReference := .created lineageEligibility pinnedAtNodeId
    objectSize := objectSize
    ownerAddress := some ownerAddress }

/-- `Reference::OutOfScope`. -/
def outOfScope (entry : ReferenceEntry O N W) (lineagePinningEnabled : Bool) : Bool :=
  -- the counts and the lineage references are those of the plain reference
  let inScope := !entry.toReference.outOfScope lineagePinningEnabled
  let isNested := !entry.containedInBorrowedIds.isEmpty
  let hasBorrowers := !entry.borrowers.isEmpty
  let wasStoredInObjects := !entry.storedInObjects.entries.isEmpty
  !(inScope || isNested || entry.hasNestedRefsToReport || hasBorrowers || wasStoredInObjects)

/-- `Reference::ShouldDelete`. -/
def shouldDelete (entry : ReferenceEntry O N W) (lineagePinningEnabled : Bool) : Bool :=
  if lineagePinningEnabled then entry.outOfScope lineagePinningEnabled && entry.lineageRefCount == 0
  else entry.outOfScope lineagePinningEnabled

/-- `ReferenceCounter::UnsetObjectPrimaryCopy`. -/
def unsetObjectPrimaryCopy (entry : ReferenceEntry O N W) : ReferenceEntry O N W :=
  { entry with toReference := entry.toReference.unsetObjectPrimaryCopy }

end ReferenceEntry

/-! ### The table and the counters -/

/-- The counters of owned objects by state: of their number, and of their sizes. -/
inductive OwnedObjectCounter where
  | ownedObjectsPendingCreation
  | ownedObjectsInMemory
  | ownedObjectsSpilled
  | ownedObjectsInPlasma
  | ownedObjectsSizeInMemory
  | ownedObjectsSizeSpilled
  | ownedObjectsSizeInPlasma
deriving DecidableEq, Repr

/-- The members of `ReferenceCounter`. -/
structure ReferenceTable (O N W : Type) where
  objectIdRefs : Dict O (ReferenceEntry O N W)
  freedObjects : List O
  reconstructableOwnedObjects : List O
  objectsToRecover : List O
  ownedObjects : OwnedObjectCounter → ℤ

/-- What the counter is constructed with.  `onLineageReleased` gives the bytes that were evicted and
the arguments of the task that made the object. -/
structure ReferenceCounterConfig (O N W : Type) where
  rpcAddress : W
  lineagePinningEnabled : Bool
  isActorID : O → Bool
  onLineageReleased : Option (ReferenceTable O N W → O → ℤ × List O)

/-- What an entry counts for. -/
def ownedObjectCounts (isActorID : O → Bool) (objectId : O) (entry : ReferenceEntry O N W) :
    OwnedObjectCounter → ℤ :=
  if !entry.ownedByUs || isActorID objectId then 0
  else
    let size := if 0 < entry.objectSize then entry.objectSize else 0
    if entry.pendingCreation then Pi.single .ownedObjectsPendingCreation 1
    else if entry.pinnedAtNodeId.isNone && !entry.spilled then
      Pi.single .ownedObjectsInMemory 1 + Pi.single .ownedObjectsSizeInMemory size
    else if entry.spilled && entry.pinnedAtNodeId.isSome then
      Pi.single .ownedObjectsSpilled 1 + Pi.single .ownedObjectsSizeSpilled size
    else if !entry.spilled && entry.pinnedAtNodeId.isSome then
      Pi.single .ownedObjectsInPlasma 1 + Pi.single .ownedObjectsSizeInPlasma size
    else 0

/-- The recursion is deeper than the stack. -/
def stackOverflow : RayError := .checkFailed "stack overflow"

namespace ReferenceTable

/-- The table of a new worker. -/
def init : ReferenceTable O N W := ⟨.empty, [], [], [], 0⟩

/-- A `find` whose result is used without a test, or with a check. -/
def find (t : ReferenceTable O N W) (objectId : O) : Except RayError (ReferenceEntry O N W) :=
  rayFind (t.objectIdRefs.get? objectId) "it != object_id_refs_.end()"

/-- Rewrite an entry. -/
def setRef (t : ReferenceTable O N W) (objectId : O) (entry : ReferenceEntry O N W) :
    ReferenceTable O N W :=
  { t with objectIdRefs := t.objectIdRefs.set objectId entry }

/-- `object_id_refs_.emplace(object_id, Reference())`. -/
def emplace (t : ReferenceTable O N W) (objectId : O) : ReferenceTable O N W :=
  if (t.objectIdRefs.get? objectId).isSome then t else t.setRef objectId .unknown

/-- `objects_to_recover_.push_back(object_id)`. -/
def pushToRecover (t : ReferenceTable O N W) (objectId : O) : ReferenceTable O N W :=
  { t with objectsToRecover := t.objectsToRecover ++ [objectId] }

/-- `reconstructable_owned_objects_.emplace_back(object_id)`. -/
def addReconstructable (t : ReferenceTable O N W) (objectId : O) : ReferenceTable O N W :=
  { t with reconstructableOwnedObjects := t.reconstructableOwnedObjects ++ [objectId] }

/-- Removal from `reconstructable_owned_objects_` and its index. -/
def removeReconstructable (t : ReferenceTable O N W) (objectId : O) : ReferenceTable O N W :=
  { t with reconstructableOwnedObjects := t.reconstructableOwnedObjects.erase objectId }

variable (c : ReferenceCounterConfig O N W)

/-- `ReferenceCounter::UpdateOwnedObjectCounters`. -/
def updateOwnedObjectCounters (t : ReferenceTable O N W) (objectId : O) (entry : ReferenceEntry O N W)
    (decrement : Bool) : ReferenceTable O N W :=
  let counts := ownedObjectCounts c.isActorID objectId entry
  { t with ownedObjects := if decrement then t.ownedObjects - counts else t.ownedObjects + counts }

/-- An entry is rewritten between a decrement for the old state and an increment for the new one. -/
def recount (t : ReferenceTable O N W) (objectId : O) (old new : ReferenceEntry O N W) :
    ReferenceTable O N W :=
  let decremented := t.updateOwnedObjectCounters c objectId old true
  (decremented.setRef objectId new).updateOwnedObjectCounters c objectId new false

/-! ### Nested and borrowed references -/

/-- `ReferenceCounter::SetNestedRefInUseRecursive`. -/
def setNestedRefInUseRecursive : ℕ → ReferenceTable O N W → O → Except RayError (ReferenceTable O N W)
  | 0, _, _ => .error stackOverflow
  | depth + 1, t, innerId => do
      let inner ← t.find innerId
      inner.containedInBorrowedIds.foldlM
        (fun t outerId => do
          let outer ← t.find outerId
          if outer.hasNestedRefsToReport then return t
          else
            setNestedRefInUseRecursive depth
              (t.setRef outerId { outer with hasNestedRefsToReport := true }) outerId)
        t

/-- A count of an entry goes up; if the reference was not in use before, the nested references now
are. -/
def addRef (depth : ℕ) (t : ReferenceTable O N W) (objectId : O)
    (count : ReferenceEntry O N W → ReferenceEntry O N W) : Except RayError (ReferenceTable O N W) := do
  let entry ← t.find objectId
  let counted := t.setRef objectId (count entry)
  if entry.refCount = 0 ∧
    0 < (count entry).refCount then setNestedRefInUseRecursive depth counted objectId
  else return counted

/-- `ReferenceCounter::GetAndClearLocalBorrowersInternal`, with the ids already encountered; whether
there is a reference. -/
def getAndClearLocalBorrowersInternal :
    ℕ → List O × ReferenceTable O N W → O → Except RayError (Bool × List O × ReferenceTable O N W)
  | 0, _, _ => .error stackOverflow
  | depth + 1, (encounteredIds, t), objectId =>
    match t.objectIdRefs.get? objectId with
    | none => .ok (false, encounteredIds, t)
    | some ref =>
      if ref.ownedByUs then .ok (true, encounteredIds, t)
      else do
        let cleared :=
          if objectId ∈ encounteredIds then (encounteredIds, t)
          else (encounteredIds ++ [objectId],
            t.setRef objectId { ref with borrowers := [], storedInObjects := .empty })
        let (encounteredIds, t) ← ref.contains.foldlM
          (fun s containedId => do
            let (_, s) ← getAndClearLocalBorrowersInternal depth s containedId
            return s)
          cleared
        let ref ← t.find objectId
        return (true, encounteredIds, t.setRef objectId { ref with hasNestedRefsToReport := false })

/-- `ReferenceCounter::PublishRefRemovedInternal`. -/
def publishRefRemovedInternal (depth : ℕ) (t : ReferenceTable O N W) (objectId : O) :
    Except RayError (ReferenceTable O N W) := do
  let (_, _, t) ← getAndClearLocalBorrowersInternal depth ([], t) objectId
  return t

/-- `ReferenceCounter::AddNestedObjectIdsInternal`. -/
def addNestedObjectIdsInternal (depth : ℕ) (t : ReferenceTable O N W) (objectId : O) (innerIds : List O)
    (ownerAddress : W) : Except RayError (ReferenceTable O N W) :=
  if ownerAddress = c.rpcAddress then
    match t.objectIdRefs.get? objectId with
    | none => .ok t
    | some entry => do
        rayCheck entry.ownedByUs "it->second.owned_by_us_"
        innerIds.foldlM
          (fun t innerId => addRef depth (t.emplace innerId) innerId
            (fun inner => { inner with containedInOwned := insertNew inner.containedInOwned objectId }))
          (t.setRef objectId { entry with contains := innerIds.foldl insertNew entry.contains })
  else
    innerIds.foldlM
      (fun t innerId => do
        let inner ← (t.emplace innerId).find innerId
        return (t.emplace innerId).setRef innerId (
          if inner.ownedByUs then { inner with borrowers := insertNew inner.borrowers ownerAddress }
          else if (inner.storedInObjects.get? objectId).isSome then inner
          else { inner with storedInObjects := inner.storedInObjects.set objectId ownerAddress }))
      t

/-! ### Going out of scope -/

/-- `ReferenceCounter::OnObjectOutOfScopeOrFreed`. -/
def onObjectOutOfScopeOrFreed (t : ReferenceTable O N W) (objectId : O) :
    Except RayError (ReferenceTable O N W) := do
  let entry ← t.find objectId
  return t.recount c objectId entry entry.unsetObjectPrimaryCopy

/-- `OnObjectOutOfScopeOrFreed`, if the object is out of scope. -/
def freeIfOutOfScope (t : ReferenceTable O N W) (objectId : O) (entry : ReferenceEntry O N W) :
    Except RayError (ReferenceTable O N W) :=
  if entry.outOfScope c.lineagePinningEnabled then t.onObjectOutOfScopeOrFreed c objectId else .ok t

/-- `ReferenceCounter::EraseReference`. -/
def eraseReference (t : ReferenceTable O N W) (objectId : O) :
    Except RayError (ReferenceTable O N W) := do
  let entry ← t.find objectId
  rayCheck (entry.shouldDelete c.lineagePinningEnabled)
    "it->second.ShouldDelete(lineage_pinning_enabled_)"
  let unlisted := t.removeReconstructable objectId
  let counted := { unlisted with freedObjects := unlisted.freedObjects.erase objectId }
  let decremented :=
    if entry.ownedByUs && !c.isActorID objectId then counted.updateOwnedObjectCounters c objectId
      entry true else counted
  return { decremented with objectIdRefs := decremented.objectIdRefs.erase objectId }

/-- `ReferenceCounter::ReleaseLineageReferences`, with the bytes of lineage that were evicted. -/
def releaseLineageReferences : ℕ → ReferenceTable O N W → O → Except RayError (ℤ × ReferenceTable O N W)
  | 0, _, _ => .error stackOverflow
  | depth + 1, t, objectId => do
      let entry ← t.find objectId
      let (lineageBytesEvicted, argumentIds) :=
        match c.onLineageReleased with
        | some onLineageReleased => if entry.ownedByUs then onLineageReleased t objectId else (0, [])
        | none => (0, [])
      let released :=
        if c.onLineageReleased.isSome ∧ entry.ownedByUs ∧ !entry.outOfScope c.lineagePinningEnabled ∧
            entry.lineageEligibility = .eligible then
          t.setRef objectId { entry with lineageEligibility := .ineligibleLineageEvicted }
        else t
      argumentIds.foldlM
        (fun (bytes, t) argumentId =>
          match t.objectIdRefs.get? argumentId with
          | none => .ok (bytes, t)
          | some arg =>
            if arg.lineageRefCount = 0 then .ok (bytes, t)
            else do
              let arg := { arg with lineageRefCount := arg.lineageRefCount - 1 }
              let t := t.setRef argumentId arg
              let t ← t.freeIfOutOfScope c argumentId arg
              let arg ← t.find argumentId
              if arg.shouldDelete c.lineagePinningEnabled then do
                rayCheck (!arg.publishRefRemoved) "!arg_it->second.publish_ref_removed"
                let (evicted, t) ← releaseLineageReferences depth t argumentId
                let t ← t.eraseReference c argumentId
                return (bytes + evicted, t)
              else return (bytes, t))
        (lineageBytesEvicted, released)

/-- The owner that waits for the last reference is told. -/
def publishIfRefRemoved (depth : ℕ) (t : ReferenceTable O N W) (id : O) :
    Except RayError (ReferenceTable O N W) := do
  let entry ← t.find id
  if entry.refCount = 0 ∧ entry.publishRefRemoved then do
    let t ← t.publishRefRemovedInternal depth id
    let entry ← t.find id
    return t.setRef id { entry with publishRefRemoved := false }
  else return t

/-- An inner entry no longer counts the outer object, of which `ownedByUs` says whether it is
owned. -/
def removeOuter (id : O) (ownedByUs : Bool) (inner : ReferenceEntry O N W) :
    Except RayError (ReferenceEntry O N W) :=
  if ownedByUs then do
    rayCheck (id ∈ inner.containedInOwned) "contained_in_owned.erase(id)"
    return { inner with containedInOwned := inner.containedInOwned.erase id }
  else do
    rayCheck (id ∈ inner.containedInBorrowedIds) "contained_in_borrowed_ids.erase(id)"
    return { inner with containedInBorrowedIds := inner.containedInBorrowedIds.erase id }

/-- An object that is out of scope is freed, and its lineage need not be evicted any more. -/
def leaveScope (t : ReferenceTable O N W) (id : O) (entry : ReferenceEntry O N W) :
    Except RayError (ReferenceTable O N W) := do
  let freed ← t.freeIfOutOfScope c id entry
  return if entry.outOfScope c.lineagePinningEnabled then freed.removeReconstructable id else freed

/-- `ReferenceCounter::DeleteReferenceInternal`. -/
def deleteReferenceInternal : ℕ → ReferenceTable O N W → O → Except RayError (ReferenceTable O N W)
  | 0, _, _ => .error stackOverflow
  | depth + 1, t, id => do
      let t ← t.publishIfRefRemoved depth id
      let entry ← t.find id
      let t ← (if entry.outOfScope c.lineagePinningEnabled then entry.contains else []).foldlM
        (fun t innerId =>
          match t.objectIdRefs.get? innerId with
          | none => .ok t
          | some inner => do
              let inner ← removeOuter id entry.ownedByUs inner
              deleteReferenceInternal depth (t.setRef innerId inner) innerId)
        t
      let t ← t.leaveScope c id entry
      let entry ← t.find id
      if entry.shouldDelete c.lineagePinningEnabled then do
        let (_, t) ← t.releaseLineageReferences c depth id
        t.eraseReference c id
      else return t

/-- `DeleteReferenceInternal`, if the reference is not in use any more. -/
def deleteIfUnused (depth : ℕ) (t : ReferenceTable O N W) (objectId : O)
    (entry : ReferenceEntry O N W) :
    Except RayError (ReferenceTable O N W) :=
  if entry.refCount = 0 then t.deleteReferenceInternal c depth objectId else .ok t

/-- `ReferenceCounter::RemoveLocalReferenceInternal`. -/
def removeLocalReferenceInternal (depth : ℕ) (t : ReferenceTable O N W) (objectId : O) :
    Except RayError (ReferenceTable O N W) :=
  match t.objectIdRefs.get? objectId with
  | none => .ok t
  | some entry =>
    if entry.localRefCount = 0 then .ok t
    else
      let entry := { entry with localRefCount := entry.localRefCount - 1 }
      (t.setRef objectId entry).deleteIfUnused c depth objectId entry

/-- `ReferenceCounter::RemoveSubmittedTaskReferences`; the loop ends at an id without a
reference. -/
def removeSubmittedTaskReferences (depth : ℕ) (releaseLineage : Bool) :
    List O → ReferenceTable O N W → Except RayError (ReferenceTable O N W)
  | [], t => .ok t
  | argumentId :: argumentIds, t =>
    match t.objectIdRefs.get? argumentId with
    | none => .ok t
    | some entry => do
        rayCheck (decide (0 < entry.submittedTaskRefCount)) "it->second.submitted_task_ref_count > 0"
        let entry :=
          { entry with
            submittedTaskRefCount := entry.submittedTaskRefCount - 1
            lineageRefCount := if releaseLineage then entry.lineageRefCount - 1
              else entry.lineageRefCount }
        let t ← (t.setRef argumentId entry).deleteIfUnused c depth argumentId entry
        removeSubmittedTaskReferences depth releaseLineage argumentIds t

/-! ### Borrowing -/

/-- A borrowed object is contained in another borrowed one, if that is known. -/
def nestInBorrowed (depth : ℕ) (t : ReferenceTable O N W) (objectId outerId : O) :
    Except RayError (ReferenceTable O N W) :=
  match t.objectIdRefs.get? outerId with
  | none => .ok t
  | some outer =>
    if outer.ownedByUs then .ok t
    else do
      rayCheck (objectId ≠ outerId) "object_id != outer_id"
      let entry ← t.find objectId
      let nested := { entry with containedInBorrowedIds := insertNew entry.containedInBorrowedIds outerId }
      let t := (t.setRef outerId { outer with contains := insertNew outer.contains objectId }).setRef objectId nested
      if 0 < nested.refCount then setNestedRefInUseRecursive depth t objectId else return t

/-- `ReferenceCounter::AddBorrowedObjectInternal`. -/
def addBorrowedObjectInternal (depth : ℕ) (t : ReferenceTable O N W) (objectId : O) (outerId : Option O)
    (ownerAddress : W) : Except RayError (ReferenceTable O N W) := do
  let entry ← (t.emplace objectId).find objectId
  let t := (t.emplace objectId).setRef objectId { entry with ownerAddress := some ownerAddress }
  let t ← outerId.elim (.ok t) (t.nestInBorrowed depth objectId)
  let entry ← t.find objectId
  t.deleteIfUnused c depth objectId entry

/-- `ReferenceCounter::MergeRemoteBorrowers`. -/
def mergeRemoteBorrowers (workerAddr : W) (borrowedRefs : Dict O (ReferenceEntry O N W)) :
    ℕ → ReferenceTable O N W → O → Except RayError (ReferenceTable O N W)
  | 0, _, _ => .error stackOverflow
  | depth + 1, t, objectId =>
    match borrowedRefs.get? objectId with
    | none => .ok t
    | some borrowerRef => do
        let entry ← (t.emplace objectId).find objectId
        let borrowers := if 0 < borrowerRef.refCount then insertNew entry.borrowers workerAddr
          else entry.borrowers
        let t := (t.emplace objectId).setRef objectId
          { entry with borrowers := borrowerRef.borrowers.foldl insertNew borrowers }
        let t ← borrowerRef.containedInBorrowedIds.foldlM
          (fun t containedInBorrowedId => do
            let ownerAddress ← rayFind borrowerRef.ownerAddress "borrower_ref.owner_address_"
            t.addBorrowedObjectInternal c depth objectId (some containedInBorrowedId) ownerAddress)
          t
        let entry ← t.find objectId
        let t ← bif entry.ownedByUs then .ok t else t.setNestedRefInUseRecursive depth objectId
        let t ← borrowerRef.storedInObjects.entries.foldlM
          (fun t storedInObject => t.addNestedObjectIdsInternal c depth storedInObject.1
            [objectId] storedInObject.2) t
        borrowerRef.contains.foldlM (mergeRemoteBorrowers workerAddr borrowedRefs depth) t

/-! ### Owned objects -/

/-- `ReferenceCounter::AddOwnedObjectInternal`; whether the object is new. -/
def addOwnedObjectInternal (depth : ℕ) (t : ReferenceTable O N W) (objectId : O) (innerIds : List O)
    (ownerAddress : W) (objectSize : ℤ) (lineageEligibility : LineageReconstructionEligibility)
    (addLocalRef : Bool) (pinnedAtNodeId : Option N) : Except RayError (Bool × ReferenceTable O N W) :=
  if (t.objectIdRefs.get? objectId).isSome then .ok (false, t)
  else do
    let added := t.setRef objectId (.created ownerAddress objectSize lineageEligibility pinnedAtNodeId)
    let t ← bif innerIds.isEmpty then .ok added
      else added.addNestedObjectIdsInternal c depth objectId innerIds c.rpcAddress
    rayCheck (objectId ∉ t.reconstructableOwnedObjects) "reconstructable_owned_objects_index_.emplace"
    let t := t.addReconstructable objectId
    let entry ← t.find objectId
    let entry := if addLocalRef then { entry with localRefCount := entry.localRefCount + 1 } else entry
    return (true, (t.setRef objectId entry).updateOwnedObjectCounters c objectId entry false)

/-- `ReferenceCounter::UpdateObjectPendingCreationInternal`. -/
def updateObjectPendingCreationInternal (pendingCreation : Bool) (t : ReferenceTable O N W)
    (objectId : O) :
    ReferenceTable O N W :=
  match t.objectIdRefs.get? objectId with
  | none => t
  | some entry => t.recount c objectId entry { entry with pendingCreation := pendingCreation }

/-- The start of `AddDynamicReturn` and `OwnDynamicStreamingTaskReturnRef`: the owner and the
eligibility of the generator object. -/
def findGenerator (t : ReferenceTable O N W) (generatorId : O) :
    Option (Except RayError (W × LineageReconstructionEligibility)) :=
  (t.objectIdRefs.get? generatorId).map (fun outer => do
    rayCheck outer.ownedByUs "outer_it->second.owned_by_us_"
    let ownerAddress ← rayFind outer.ownerAddress "outer_it->second.owner_address_.has_value()"
    return (ownerAddress, outer.lineageEligibility))

/-- One turn of the loop of `ResetObjectsOnRemovedNode`. -/
def resetObjectOnRemovedNode (nodeId : N) (t : ReferenceTable O N W) (objectId : O) :
    ReferenceTable O N W :=
  match t.objectIdRefs.get? objectId with
  | none => t
  | some entry =>
    if entry.pinnedAtNodeId = some nodeId ∨ entry.spilledNodeId = some nodeId then
      let t := t.recount c objectId entry entry.unsetObjectPrimaryCopy
      if entry.unsetObjectPrimaryCopy.outOfScope c.lineagePinningEnabled then t
      else t.pushToRecover objectId
    else t

/-- One turn of the loop of `FreePlasmaObjects`. -/
def freePlasmaObject (t : ReferenceTable O N W) (objectId : O) :
    Except RayError (ReferenceTable O N W) :=
  match t.objectIdRefs.get? objectId with
  | none => .ok t
  | some entry =>
    let t := { t with freedObjects := insertNew t.freedObjects objectId }
    if entry.ownedByUs then t.onObjectOutOfScopeOrFreed c objectId else .ok t

/-- The loop of `EvictLineage`; each round takes the first object off the list. -/
def evictLineageLoop (depth : ℕ) (minBytesToEvict : ℤ) :
    ℕ → ℤ × ReferenceTable O N W → Except RayError (ReferenceTable O N W)
  | 0, (_, t) => .ok t
  | rounds + 1, (lineageBytesEvicted, t) =>
    match t.reconstructableOwnedObjects with
    | [] => .ok t
    | objectId :: rest =>
      if lineageBytesEvicted < minBytesToEvict then do
        let (evicted, t) ← ({ t with reconstructableOwnedObjects := rest }).releaseLineageReferences
          c depth objectId
        evictLineageLoop depth minBytesToEvict rounds (lineageBytesEvicted + evicted, t)
      else .ok t

/-- `ReferenceCounter::UpdateObjectPinnedAtRaylet`; `nodeDead` is what `is_node_dead_` says of the
node. -/
def updateObjectPinnedAtRaylet (t : ReferenceTable O N W) (objectId : O) (nodeId : N)
    (nodeDead : Bool) :
    Except RayError (ReferenceTable O N W) :=
  match t.objectIdRefs.get? objectId with
  | none => .ok t
  | some entry =>
    if objectId ∈ t.freedObjects then .ok t
    else do
      rayCheck entry.ownedByUs "it->second.owned_by_us_"
      return (
        if entry.outOfScope c.lineagePinningEnabled then t
        else if nodeDead then (t.recount c objectId entry
          entry.unsetObjectPrimaryCopy).pushToRecover objectId
        else t.recount c objectId entry { entry with pinnedAtNodeId := some nodeId })

/-- What `HandleObjectSpilled` marks first. -/
def markSpilled (entry : ReferenceEntry O N W) : ReferenceEntry O N W :=
  { entry with spilled := true, didSpill := true }

/-- `ReferenceCounter::HandleObjectSpilled`: whether the report was accepted, and the table after
it. `nodeDead` is what `is_node_dead_` says of the node. -/
def handleObjectSpilled (t : ReferenceTable O N W) (objectId : O) (spilledUrl : String)
    (spilledNodeId : Option N)
    (nodeDead : Bool) : Bool × ReferenceTable O N W :=
  match t.objectIdRefs.get? objectId with
  | none => (false, t)
  | some entry =>
    if entry.outOfScope c.lineagePinningEnabled ∧ spilledNodeId ≠ none then (false, t)
    else
      let marked := markSpilled entry
      let t := (t.updateOwnedObjectCounters c objectId entry true).setRef objectId marked
      if spilledNodeId = none ∨ !nodeDead then
        let new := { marked with toReference := marked.toReference.spilledAt spilledUrl spilledNodeId }
        (true, (t.setRef objectId new).updateOwnedObjectCounters c objectId new false)
      else
        let new := marked.unsetObjectPrimaryCopy
        -- the decrement and the increment around the reset stand inside those around the whole update
        let t := (t.recount c objectId marked new).pushToRecover objectId
        (true, t.updateOwnedObjectCounters c objectId new false)

/-! ### The public operations -/

/-- `ReferenceCounter::AddOwnedObject`. -/
def addOwnedObject (depth : ℕ) (t : ReferenceTable O N W) (objectId : O) (innerIds : List O)
    (ownerAddress : W)
    (objectSize : ℤ) (lineageEligibility : LineageReconstructionEligibility) (addLocalRef : Bool)
    (pinnedAtNodeId : Option N) : Except RayError (ReferenceTable O N W) := do
  let (added, t) ← t.addOwnedObjectInternal c depth objectId innerIds ownerAddress objectSize
    lineageEligibility
    addLocalRef pinnedAtNodeId
  rayCheck added "Tried to create an owned object that already exists: "
  return t

/-- `ReferenceCounter::AddDynamicReturn`. -/
def addDynamicReturn (depth : ℕ) (t : ReferenceTable O N W) (objectId generatorId : O) :
    Except RayError (ReferenceTable O N W) :=
  match t.findGenerator generatorId with
  | none => .ok t
  | some found => do
      let (ownerAddress, lineageEligibility) ← found
      let (_, t) ← t.addOwnedObjectInternal c depth objectId [] ownerAddress
        (-1) lineageEligibility false none
      t.addNestedObjectIdsInternal c depth generatorId [objectId] ownerAddress

/-- `ReferenceCounter::OwnDynamicStreamingTaskReturnRef`. -/
def ownDynamicStreamingTaskReturnRef (depth : ℕ) (t : ReferenceTable O N W) (objectId generatorId : O) :
    Except RayError (ReferenceTable O N W) :=
  match t.findGenerator generatorId with
  | none => .ok t
  | some found => do
      let (ownerAddress, lineageEligibility) ← found
      let (_, t) ← t.addOwnedObjectInternal c depth objectId [] ownerAddress
        (-1) lineageEligibility true none
      return t

/-- `ReferenceCounter::UpdateObjectSize`. -/
def updateObjectSize (t : ReferenceTable O N W) (objectId : O) (objectSize : ℤ) :
    ReferenceTable O N W :=
  match t.objectIdRefs.get? objectId with
  | none => t
  | some entry => t.recount c objectId entry { entry with objectSize := objectSize }

/-- `ReferenceCounter::AddLocalReference`. -/
def addLocalReference (depth : ℕ) (t : ReferenceTable O N W) (objectId : O) :
    Except RayError (ReferenceTable O N W) :=
  (t.emplace objectId).addRef depth objectId
    (fun entry => { entry with localRefCount := entry.localRefCount + 1 })

/-- `ReferenceCounter::ReleaseAllLocalReferences`. -/
def releaseAllLocalReferences (depth : ℕ) (t : ReferenceTable O N W) :
    Except RayError (ReferenceTable O N W) :=
  (t.objectIdRefs.entries.flatMap (fun ref => List.replicate ref.2.localRefCount ref.1)).foldlM
    (removeLocalReferenceInternal c depth) t

/-- A task is submitted with an argument, for the first time or again. -/
def addSubmittedTaskReference (depth : ℕ) (lineage : ℕ) (t : ReferenceTable O N W) (argumentId : O) :
    Except RayError (ReferenceTable O N W) :=
  t.addRef depth argumentId (fun entry =>
    { entry with
      submittedTaskRefCount := entry.submittedTaskRefCount + 1
      lineageRefCount := entry.lineageRefCount + lineage })

/-- `ReferenceCounter::UpdateSubmittedTaskReferences`. -/
def updateSubmittedTaskReferences (depth : ℕ) (t : ReferenceTable O N W)
    (returnIds argumentIdsToAdd argumentIdsToRemove : List O) :
    Except RayError (ReferenceTable O N W) := do
  let t := returnIds.foldl (updateObjectPendingCreationInternal c true) t
  let t ← argumentIdsToAdd.foldlM
    (fun t argumentId => (t.emplace argumentId).addSubmittedTaskReference depth 1 argumentId) t
  t.removeSubmittedTaskReferences c depth true argumentIdsToRemove

/-- `ReferenceCounter::UpdateResubmittedTaskReferences`. -/
def updateResubmittedTaskReferences (depth : ℕ) (t : ReferenceTable O N W) (argumentIds : List O) :
    Except RayError (ReferenceTable O N W) :=
  argumentIds.foldlM (addSubmittedTaskReference depth 0) t

/-- `ReferenceCounter::UpdateFinishedTaskReferences`. -/
def updateFinishedTaskReferences (depth : ℕ) (t : ReferenceTable O N W) (returnIds argumentIds : List O)
    (releaseLineage : Bool) (workerAddr : W) (borrowedRefs : Dict O (ReferenceEntry O N W)) :
    Except RayError (ReferenceTable O N W) := do
  let t := returnIds.foldl (updateObjectPendingCreationInternal c false) t
  let t ← argumentIds.foldlM (mergeRemoteBorrowers c workerAddr borrowedRefs depth) t
  t.removeSubmittedTaskReferences c depth releaseLineage argumentIds

/-- `ReferenceCounter::PopAndClearLocalBorrowers`. -/
def popAndClearLocalBorrowers (depth : ℕ) (t : ReferenceTable O N W) (borrowedIds : List O) :
    Except RayError (ReferenceTable O N W) := do
  let (_, t) ← borrowedIds.foldlM
    (fun s borrowedId => do
      let (found, s) ← getAndClearLocalBorrowersInternal depth s borrowedId
      rayCheck found "GetAndClearLocalBorrowersInternal"
      return s)
    ([], t)
  borrowedIds.foldlM
    (fun t borrowedId =>
      match t.objectIdRefs.get? borrowedId with
      | none => .ok t
      | some entry =>
        let entry := { entry with localRefCount := entry.localRefCount - 1 }
        (t.setRef borrowedId entry).deleteIfUnused c depth borrowedId entry)
    t

/-- `ReferenceCounter::CleanupBorrowersOnRefRemoved`. -/
def cleanupBorrowersOnRefRemoved (depth : ℕ) (t : ReferenceTable O N W)
    (newBorrowerRefs : Dict O (ReferenceEntry O N W)) (objectId : O) (borrowerAddr : W) :
    Except RayError (ReferenceTable O N W) := do
  let t ← t.mergeRemoteBorrowers c borrowerAddr newBorrowerRefs depth objectId
  match t.objectIdRefs.get? objectId with
  | none => return t
  | some entry =>
    (t.setRef objectId { entry with borrowers := entry.borrowers.erase borrowerAddr
      }).deleteReferenceInternal c depth
      objectId

/-- `ReferenceCounter::SubscribeRefRemoved`. -/
def subscribeRefRemoved (depth : ℕ) (t : ReferenceTable O N W) (objectId : O)
    (containedInId : Option O) :
    Except RayError (ReferenceTable O N W) := do
  let t := t.emplace objectId
  let t ← containedInId.elim (.ok t)
    (fun containedInId => t.addNestedObjectIdsInternal c depth containedInId [objectId] c.rpcAddress)
  let reference ← t.find objectId
  if reference.refCount = 0 then do
    let t ← t.publishRefRemovedInternal depth objectId
    t.deleteReferenceInternal c depth objectId
  else return t.setRef objectId { reference with publishRefRemoved := true }

/-- `ReferenceCounter::ReportLocalityData`. -/
def reportLocalityData (t : ReferenceTable O N W) (objectId : O) (objectSize : ℤ) :
    Except RayError (ReferenceTable O N W) :=
  match t.objectIdRefs.get? objectId with
  | none => .ok t
  | some entry => do
      rayCheck (!entry.ownedByUs) "ReportLocalityData should only be used for borrowed references."
      return if 0 < objectSize then t.setRef objectId { entry with objectSize := objectSize } else t

/-- `ReferenceCounter::AddBorrowerAddress`. -/
def addBorrowerAddress (t : ReferenceTable O N W) (objectId : O) (borrowerAddress : W) :
    Except RayError (ReferenceTable O N W) := do
  let entry ← t.find objectId
  rayCheck entry.ownedByUs "AddBorrowerAddress should only be used for owner references."
  rayCheck (borrowerAddress ≠ c.rpcAddress) "The borrower cannot be the owner itself"
  return t.setRef objectId { entry with borrowers := insertNew entry.borrowers borrowerAddress }

end ReferenceTable

/-! ### Calls -/

/-- The operations that change the table. -/
inductive ReferenceCounterOp (O N W : Type) where
  | addOwnedObject (objectId : O) (innerIds : List O) (ownerAddress : W) (objectSize : ℤ)
      (lineageEligibility : LineageReconstructionEligibility) (addLocalRef : Bool)
      (pinnedAtNodeId : Option N)
  | addDynamicReturn (objectId generatorId : O)
  | ownDynamicStreamingTaskReturnRef (objectId generatorId : O)
  | addBorrowedObject (objectId : O) (outerId : Option O) (ownerAddress : W)
  | updateObjectSize (objectId : O) (objectSize : ℤ)
  | addLocalReference (objectId : O)
  | removeLocalReference (objectId : O)
  | releaseAllLocalReferences
  | tryReleaseLocalRefs (objectIds : List O)
  | updateSubmittedTaskReferences (returnIds argumentIdsToAdd argumentIdsToRemove : List O)
  | updateResubmittedTaskReferences (argumentIds : List O)
  | updateFinishedTaskReferences (returnIds argumentIds : List O) (releaseLineage : Bool)
      (workerAddr : W)
      (borrowedRefs : Dict O (ReferenceEntry O N W))
  | freePlasmaObjects (objectIds : List O)
  | tryMarkFreedObjectInUseAgain (objectId : O)
  | evictLineage (minBytesToEvict : ℤ)
  | resetObjectsOnRemovedNode (nodeId : N)
  | flushObjectsToRecover
  | updateObjectPinnedAtRaylet (objectId : O) (nodeId : N) (nodeDead : Bool)
  | popAndClearLocalBorrowers (borrowedIds : List O)
  | cleanupBorrowersOnRefRemoved (newBorrowerRefs : Dict O (ReferenceEntry O N W)) (objectId : O)
      (borrowerAddr : W)
  | addNestedObjectIds (objectId : O) (innerIds : List O) (ownerAddress : W)
  | publishRefRemoved (objectId : O)
  | subscribeRefRemoved (objectId : O) (containedInId : Option O)
  | updateObjectPendingCreation (objectId : O) (pendingCreation : Bool)
  | handleObjectSpilled (objectId : O) (spilledUrl : String) (spilledNodeId : Option N)
      (nodeDead : Bool)
  | reportLocalityData (objectId : O) (objectSize : ℤ)
  | addBorrowerAddress (objectId : O) (borrowerAddress : W)

/-- One operation. -/
def ReferenceTable.perform (c : ReferenceCounterConfig O N W) (depth : ℕ) (t : ReferenceTable O N W) :
    ReferenceCounterOp O N W → Except RayError (ReferenceTable O N W)
  | .addOwnedObject objectId innerIds ownerAddress objectSize lineageEligibility addLocalRef pinnedAtNodeId =>
    t.addOwnedObject c depth objectId innerIds ownerAddress objectSize lineageEligibility addLocalRef pinnedAtNodeId
  | .addDynamicReturn objectId generatorId => t.addDynamicReturn c depth objectId generatorId
  | .ownDynamicStreamingTaskReturnRef objectId generatorId =>
    t.ownDynamicStreamingTaskReturnRef c depth objectId generatorId
  | .addBorrowedObject objectId outerId ownerAddress => t.addBorrowedObjectInternal c depth objectId outerId ownerAddress
  | .updateObjectSize objectId objectSize => .ok (t.updateObjectSize c objectId objectSize)
  | .addLocalReference objectId => t.addLocalReference depth objectId
  | .removeLocalReference objectId => t.removeLocalReferenceInternal c depth objectId
  | .releaseAllLocalReferences => t.releaseAllLocalReferences c depth
  | .tryReleaseLocalRefs objectIds => objectIds.foldlM (removeLocalReferenceInternal c depth) t
  | .updateSubmittedTaskReferences returnIds argumentIdsToAdd argumentIdsToRemove =>
    t.updateSubmittedTaskReferences c depth returnIds argumentIdsToAdd argumentIdsToRemove
  | .updateResubmittedTaskReferences argumentIds => t.updateResubmittedTaskReferences depth argumentIds
  | .updateFinishedTaskReferences returnIds argumentIds releaseLineage workerAddr borrowedRefs =>
    t.updateFinishedTaskReferences c depth returnIds argumentIds releaseLineage workerAddr borrowedRefs
  | .freePlasmaObjects objectIds => objectIds.foldlM (freePlasmaObject c) t
  | .tryMarkFreedObjectInUseAgain objectId => .ok (
      if (t.objectIdRefs.get? objectId).isSome then { t with freedObjects := t.freedObjects.erase objectId } else t)
  | .evictLineage minBytesToEvict =>
    evictLineageLoop c depth minBytesToEvict t.reconstructableOwnedObjects.length (0, t)
  | .resetObjectsOnRemovedNode nodeId => .ok (t.objectIdRefs.keys.foldl (resetObjectOnRemovedNode c nodeId) t)
  | .flushObjectsToRecover => .ok { t with objectsToRecover := [] }
  | .updateObjectPinnedAtRaylet objectId nodeId nodeDead => t.updateObjectPinnedAtRaylet c objectId nodeId nodeDead
  | .popAndClearLocalBorrowers borrowedIds => t.popAndClearLocalBorrowers c depth borrowedIds
  | .cleanupBorrowersOnRefRemoved newBorrowerRefs objectId borrowerAddr =>
    t.cleanupBorrowersOnRefRemoved c depth newBorrowerRefs objectId borrowerAddr
  | .addNestedObjectIds objectId innerIds ownerAddress =>
    t.addNestedObjectIdsInternal c depth objectId innerIds ownerAddress
  | .publishRefRemoved objectId => t.publishRefRemovedInternal depth objectId
  | .subscribeRefRemoved objectId containedInId => t.subscribeRefRemoved c depth objectId containedInId
  | .updateObjectPendingCreation objectId pendingCreation =>
    .ok (updateObjectPendingCreationInternal c pendingCreation t objectId)
  | .handleObjectSpilled objectId spilledUrl spilledNodeId nodeDead =>
    .ok (t.handleObjectSpilled c objectId spilledUrl spilledNodeId nodeDead).2
  | .reportLocalityData objectId objectSize => t.reportLocalityData objectId objectSize
  | .addBorrowerAddress objectId borrowerAddress => t.addBorrowerAddress c objectId borrowerAddress

/-- A call: the operation, what the callback for released lineage does during it, and how deep the
stack is. -/
structure ReferenceCounterCall (O N W : Type) where
  depth : ℕ
  onLineageReleased : Option (ReferenceTable O N W → O → ℤ × List O)
  operation : ReferenceCounterOp O N W

/-- One call. -/
def ReferenceTable.call (c : ReferenceCounterConfig O N W) (t : ReferenceTable O N W)
    (call : ReferenceCounterCall O N W) : Except RayError (ReferenceTable O N W) :=
  t.perform { c with onLineageReleased := call.onLineageReleased } call.depth call.operation

end RayTfm.CoreWorker
