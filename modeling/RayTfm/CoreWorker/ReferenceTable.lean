import RayTfm.Lib.Dict
import RayTfm.Raylet.Check

/-! # The reference table of an owner

The entries of a worker's reference table, as far as they concern objects that the worker owns: the
counts that keep an object in scope, which objects contain which, and where the primary copy is.  An
object is in scope while it is counted or, when it cannot be reconstructed, while its lineage is
(`Reference.outOfScope`). -/

namespace RayTfm.CoreWorker

open RayTfm.Raylet

/-- `LineageReconstructionEligibility`. -/
inductive LineageReconstructionEligibility where
  | eligible
  | ineligiblePut
  | ineligibleNoRetries
  | ineligibleLineageEvicted
  | ineligibleLineageDisabled
  | ineligibleRefNotFound
deriving DecidableEq, Repr

/-- `Reference`. -/
structure Reference (O N : Type) where
  ownedByUs : Bool
  lineageEligibility : LineageReconstructionEligibility
  lineageRefCount : ℕ
  localRefCount : ℕ
  submittedTaskRefCount : ℕ
  containedInOwned : List O
  contains : List O
  pinnedAtNodeId : Option N
  spilledUrl : String
  spilledNodeId : Option N
  spilled : Bool
  didSpill : Bool
  pendingCreation : Bool
deriving DecidableEq, Repr

namespace Reference

variable {O N : Type}

/-- `Reference::Reference`, of unknown origin. -/
def unknown : Reference O N :=
  ⟨false, .eligible, 0, 0, 0, [], [], none, "", none, false, false, false⟩

/-- `Reference::Reference`, for a reference that we created. -/
def created (lineageEligibility : LineageReconstructionEligibility) (pinnedAtNodeId : Option N) :
    Reference O N :=
  { unknown with
    ownedByUs := true
    lineageEligibility := lineageEligibility
    pinnedAtNodeId := pinnedAtNodeId
    pendingCreation := pinnedAtNodeId.isNone }

/-- `Reference::RefCount`. -/
def refCount (ref : Reference O N) : ℕ :=
  ref.localRefCount + ref.submittedTaskRefCount + ref.containedInOwned.length

/-- `Reference::OutOfScope`. -/
def outOfScope (ref : Reference O N) (lineagePinningEnabled : Bool) : Bool :=
  let inScope := 0 < ref.refCount
  let hasLineageReferences :=
    lineagePinningEnabled ∧ ref.ownedByUs ∧ ref.lineageEligibility ≠ .eligible ∧ 0 < ref.lineageRefCount
  !(decide inScope || decide hasLineageReferences)

end Reference

/-- `ReferenceCounter`. -/
structure ReferenceCounter (O N : Type) where
  objectIdRefs : Dict O (Reference O N)
  freedObjects : List O
  reconstructableOwnedObjects : List O
  objectsToRecover : List O
deriving DecidableEq

/-- Insertion into a set. -/
def insertNew {A : Type} [DecidableEq A] (l : List A) (a : A) : List A := if a ∈ l then l else l ++ [a]

@[simp] theorem mem_insertNew {A : Type} [DecidableEq A] {l : List A} {a b : A} :
    b ∈ insertNew l a ↔ b ∈ l ∨ b = a := by
  unfold insertNew
  split
  · next ha => exact ⟨.inl, fun h => h.elim id (fun heq => heq ▸ ha)⟩
  · rw [List.mem_append, List.mem_singleton]

namespace ReferenceCounter

variable {O N : Type} [DecidableEq O]

/-- The table of a new worker. -/
def empty : ReferenceCounter O N := ⟨Dict.empty, [], [], []⟩

/-- Rewrite an entry. -/
def setRef (counter : ReferenceCounter O N) (objectId : O) (ref : Reference O N) :
    ReferenceCounter O N :=
  { counter with objectIdRefs := counter.objectIdRefs.set objectId ref }

/-- The entry of an inner object records that an owned object contains it; a new entry is made if
there is none. -/
def addContainedInOwned (objectId : O) (counter : ReferenceCounter O N) (innerId : O) :
    ReferenceCounter O N :=
  let inner := (counter.objectIdRefs.get? innerId).getD .unknown
  counter.setRef innerId { inner with containedInOwned := insertNew inner.containedInOwned objectId }

/-- `ReferenceCounter::AddNestedObjectIdsInternal` for an object of our own. -/
def addNestedObjectIdsInternal (counter : ReferenceCounter O N) (objectId : O) (innerIds : List O) :
    Except RayError (ReferenceCounter O N) :=
  match counter.objectIdRefs.get? objectId with
  | none => .ok counter
  | some ref => do
      rayCheck ref.ownedByUs "it->second.owned_by_us_"
      let counter := counter.setRef objectId
        { ref with contains := innerIds.foldl insertNew ref.contains }
      return innerIds.foldl (addContainedInOwned objectId) counter

/-- What `AddOwnedObjectInternal` does when `add_local_ref` is set. -/
def addFirstLocalRef (counter : ReferenceCounter O N) (objectId : O) : ReferenceCounter O N :=
  match counter.objectIdRefs.get? objectId with
  | none => counter
  | some ref => counter.setRef objectId { ref with localRefCount := ref.localRefCount + 1 }

/-- `ReferenceCounter::AddOwnedObject`. -/
def addOwnedObject (counter : ReferenceCounter O N) (objectId : O) (innerIds : List O)
    (lineageEligibility : LineageReconstructionEligibility) (addLocalRef : Bool)
    (pinnedAtNodeId : Option N) :
    Except RayError (ReferenceCounter O N) := do
  rayCheck (counter.objectIdRefs.get? objectId).isNone
    "Tried to create an owned object that already exists: "
  let added := counter.setRef objectId (.created lineageEligibility pinnedAtNodeId)
  let nested ← if innerIds.isEmpty then .ok added
    else added.addNestedObjectIdsInternal objectId innerIds
  rayCheck (objectId ∉ nested.reconstructableOwnedObjects)
    "reconstructable_owned_objects_index_.emplace"
  let indexed := { nested with reconstructableOwnedObjects := nested.reconstructableOwnedObjects ++
    [objectId] }
  return if addLocalRef then indexed.addFirstLocalRef objectId else indexed

end ReferenceCounter

end RayTfm.CoreWorker
