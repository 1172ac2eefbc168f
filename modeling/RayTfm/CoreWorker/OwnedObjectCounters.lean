import RayTfm.CoreWorker.ReferenceOperations
import RayTfm.Lib.Ensures

/-! # The counters of owned objects

By how much the counters differ from the sums over the table, counter by counter, is the
`discrepancy`.  A decrement on the old state of an entry and an increment on its new state, around
the change, leave it as it is (`discrepancy_recount`), and so does every operation of the reference
counter with one exception: a spill reported by a dead node decrements twice and increments twice,
with another change in between (`discrepancy_handleObjectSpilled`).  So the counters are exact along
every run in which such a report finds the object pending, or neither pinned nor spilled to a known
node. -/

namespace RayTfm.CoreWorker

open RayTfm.Raylet

variable {O N W : Type} [DecidableEq O] [DecidableEq N] [DecidableEq W]

namespace ReferenceTable

/-! ### The discrepancy -/

/-- What an object counts for. -/
def countsAt (isActorID : O → Bool) (t : ReferenceTable O N W) (objectId : O) :
    OwnedObjectCounter → ℤ :=
  (t.objectIdRefs.get? objectId).elim 0 (ownedObjectCounts isActorID objectId)

/-- The sums over the table. -/
def ownedObjectSums (isActorID : O → Bool) (t : ReferenceTable O N W) : OwnedObjectCounter → ℤ :=
  t.objectIdRefs.sum (ownedObjectCounts isActorID)

/-- The counters, less the sums over the table. -/
def discrepancy (isActorID : O → Bool) (t : ReferenceTable O N W) : OwnedObjectCounter → ℤ :=
  t.ownedObjects - t.ownedObjectSums isActorID

/-- The counters differ from the sums by `d`. -/
def HasDiscrepancy (isActorID : O → Bool) (d : OwnedObjectCounter → ℤ) (t : ReferenceTable O N W) :
    Prop :=
  t.discrepancy isActorID = d

/-- The discrepancy is the same, and every object counts for the same. -/
structure SameCounts (isActorID : O → Bool) (t t' : ReferenceTable O N W) : Prop where
  discrepancy : t'.discrepancy isActorID = t.discrepancy isActorID
  countsAt : ∀ objectId, t'.countsAt isActorID objectId = t.countsAt isActorID objectId

section counters
variable {isActorID : O → Bool} {d : OwnedObjectCounter → ℤ} {t t' : ReferenceTable O N W}
    {objectId : O}
  {entry new : ReferenceEntry O N W}
omit [DecidableEq N] [DecidableEq W]

theorem find_eq_ok : t.find objectId = .ok entry ↔ t.objectIdRefs.get? objectId = some entry := by
  unfold find
  cases t.objectIdRefs.get? objectId with
  | none => exact ⟨nofun, nofun⟩
  | some entry' =>
    rw [rayFind_some, Option.some.injEq]
    exact ⟨Except.ok.inj, congrArg Except.ok⟩

theorem countsAt_of_get? (hget : t.objectIdRefs.get? objectId = some entry) :
    t.countsAt isActorID objectId = ownedObjectCounts isActorID objectId entry := by
  rw [countsAt, hget]
  rfl

theorem ownedObjectSums_eq (objectId : O) : t.ownedObjectSums isActorID =
    t.countsAt isActorID objectId + (t.objectIdRefs.erase objectId).sum
      (ownedObjectCounts isActorID) := by
  unfold ownedObjectSums countsAt
  cases hget : t.objectIdRefs.get? objectId with
  | none =>
    rw [Dict.erase_of_get?_eq_none hget]
    exact (zero_add _).symm
  | some entry => exact Dict.sum_erase hget _

theorem discrepancy_setRef : (t.setRef objectId new).discrepancy isActorID =
    t.discrepancy isActorID + t.countsAt isActorID objectId - ownedObjectCounts isActorID
      objectId new := by
  have hsum : (t.setRef objectId new).ownedObjectSums isActorID = ownedObjectCounts isActorID
    objectId new +
      (t.objectIdRefs.erase objectId).sum (ownedObjectCounts isActorID) := Dict.sum_set _ _ _ _
  unfold discrepancy
  rw [hsum, ownedObjectSums_eq objectId]
  show t.ownedObjects - _ = _
  abel

omit [DecidableEq O] in
theorem discrepancy_updateOwnedObjectCounters (c : ReferenceCounterConfig O N W) (decrement : Bool) :
    (t.updateOwnedObjectCounters c objectId entry decrement).discrepancy c.isActorID =
      t.discrepancy c.isActorID +
      if decrement then -ownedObjectCounts c.isActorID objectId entry
      else ownedObjectCounts c.isActorID objectId entry := by
  unfold discrepancy updateOwnedObjectCounters
  cases decrement with
  | true =>
    show t.ownedObjects - _ - t.ownedObjectSums c.isActorID = _
    rw [if_pos rfl]
    abel
  | false =>
    show t.ownedObjects + _ - t.ownedObjectSums c.isActorID = _
    rw [if_neg Bool.false_ne_true]
    abel

theorem HasDiscrepancy.setRef (h : t.HasDiscrepancy isActorID d)
    (hcounts : ownedObjectCounts isActorID objectId new = t.countsAt isActorID objectId) :
    (t.setRef objectId new).HasDiscrepancy isActorID d := by
  unfold HasDiscrepancy at h ⊢
  rw [discrepancy_setRef, hcounts, h, add_sub_cancel_right]

theorem HasDiscrepancy.setRef_of_get? (h : t.HasDiscrepancy isActorID d)
    (hget : t.objectIdRefs.get? objectId = some entry)
    (hcounts : ownedObjectCounts isActorID objectId new = ownedObjectCounts isActorID objectId entry) :
    (t.setRef objectId new).HasDiscrepancy isActorID d :=
  h.setRef (hcounts.trans (countsAt_of_get? hget).symm)

theorem SameCounts.refl (isActorID : O → Bool) (t : ReferenceTable O N W) : t.SameCounts isActorID t :=
  ⟨rfl, fun _ => rfl⟩

theorem SameCounts.setRef (h : t.SameCounts isActorID t')
    (hcounts : ownedObjectCounts isActorID objectId new = t'.countsAt isActorID objectId) :
    t.SameCounts isActorID (t'.setRef objectId new) := by
  refine ⟨HasDiscrepancy.setRef h.discrepancy hcounts, fun objectId' => ?_⟩
  rw [← h.countsAt objectId']
  by_cases heq : objectId' = objectId
  · rw [heq, ← hcounts]
    exact countsAt_of_get? (Dict.get?_set_self _ _ _)
  · unfold ReferenceTable.countsAt
    rw [ReferenceTable.setRef, Dict.get?_set_ne _ _ heq]

theorem SameCounts.setRef_of_get? (h : t.SameCounts isActorID t')
    (hget : t'.objectIdRefs.get? objectId = some entry)
    (hcounts : ownedObjectCounts isActorID objectId new = ownedObjectCounts isActorID objectId entry) :
    t.SameCounts isActorID (t'.setRef objectId new) :=
  h.setRef (hcounts.trans (countsAt_of_get? hget).symm)

theorem SameCounts.emplace (h : t.SameCounts isActorID t') (objectId : O) :
    t.SameCounts isActorID (t'.emplace objectId) := by
  unfold ReferenceTable.emplace
  split_ifs with hget
  · exact h
  · apply h.setRef
    rw [ReferenceTable.countsAt, Option.not_isSome_iff_eq_none.mp hget]
    rfl

theorem HasDiscrepancy.of_sameCounts (h : t.HasDiscrepancy isActorID d)
    (hsame : t.SameCounts isActorID t') :
    t'.HasDiscrepancy isActorID d := hsame.discrepancy.trans h

theorem HasDiscrepancy.emplace (h : t.HasDiscrepancy isActorID d) (objectId : O) :
    (t.emplace objectId).HasDiscrepancy isActorID d :=
      h.of_sameCounts ((SameCounts.refl isActorID t).emplace objectId)

/-- After the decrement on the old state, the new one is in the table without being counted. -/
theorem discrepancy_decrement (c : ReferenceCounterConfig O N W)
    (hget : t.objectIdRefs.get? objectId = some entry) :
    ((t.updateOwnedObjectCounters c objectId entry true).setRef objectId new).discrepancy c.isActorID =
      t.discrepancy c.isActorID - ownedObjectCounts c.isActorID objectId new := by
  have hcounts : (t.updateOwnedObjectCounters c objectId entry true).countsAt c.isActorID objectId =
      ownedObjectCounts c.isActorID objectId entry := countsAt_of_get? hget
  rw [discrepancy_setRef, discrepancy_updateOwnedObjectCounters, hcounts, if_pos rfl]
  abel

theorem discrepancy_recount (c : ReferenceCounterConfig O N W)
    (hget : t.objectIdRefs.get? objectId = some entry) :
    (t.recount c objectId entry new).discrepancy c.isActorID = t.discrepancy c.isActorID := by
  unfold recount
  rw [discrepancy_updateOwnedObjectCounters, discrepancy_decrement c hget, if_neg Bool.false_ne_true]
  abel

variable {c : ReferenceCounterConfig O N W}

/-- An entry that is in the table without being counted is counted by an increment. -/
theorem HasDiscrepancy.increment
    (h : t.HasDiscrepancy c.isActorID (d - ownedObjectCounts c.isActorID objectId entry))
    (hget : t.objectIdRefs.get? objectId = some entry)
    (hcounts : ownedObjectCounts c.isActorID objectId new = ownedObjectCounts c.isActorID
      objectId entry) :
    ((t.setRef objectId new).updateOwnedObjectCounters c objectId new false).HasDiscrepancy
      c.isActorID d := by
  unfold HasDiscrepancy at h ⊢
  rw [discrepancy_updateOwnedObjectCounters, discrepancy_setRef, countsAt_of_get? hget,
    if_neg Bool.false_ne_true, hcounts, h]
  abel

theorem HasDiscrepancy.recount (h : t.HasDiscrepancy c.isActorID d)
    (hget : t.objectIdRefs.get? objectId = some entry) :
    (t.recount c objectId entry new).HasDiscrepancy c.isActorID d :=
  (discrepancy_recount c hget).trans h

omit [DecidableEq O] in
theorem HasDiscrepancy.pushToRecover (h : t.HasDiscrepancy isActorID d) :
    (t.pushToRecover objectId).HasDiscrepancy isActorID d := h

end counters

/-! ### Nested references -/

section borrowed
variable {isActorID : O → Bool} {d : OwnedObjectCounter → ℤ} {t₀ t : ReferenceTable O N W}
variable {depth : ℕ}
omit [DecidableEq N] [DecidableEq W]

theorem sameCounts_setNestedRefInUseRecursive {innerId : O} (h : t₀.SameCounts isActorID t) :
    Ensures (t.setNestedRefInUseRecursive depth innerId) (t₀.SameCounts isActorID) := by
  induction depth generalizing t innerId with
  | zero => exact .error _
  | succ depth ih =>
    refine .bind (fun inner _ => .foldlM h (fun t outerId _ h => ?_))
    refine .bind (fun outer houter => .ite (fun _ => .ok h) (fun _ => ih ?_))
    exact h.setRef_of_get? (find_eq_ok.mp houter) rfl

theorem ensures_setNestedRefInUseRecursive {innerId : O} (h : t.HasDiscrepancy isActorID d) :
    Ensures (t.setNestedRefInUseRecursive depth innerId) (HasDiscrepancy isActorID d) :=
  (sameCounts_setNestedRefInUseRecursive (.refl isActorID t)).mono
    (fun _ hsame => h.of_sameCounts hsame)

variable {objectId : O}
variable {count : ReferenceEntry O N W → ReferenceEntry O N W}

theorem sameCounts_addRef
    (hcount : ∀ entry, ownedObjectCounts isActorID objectId (count entry) =
      ownedObjectCounts isActorID objectId entry)
    (h : t₀.SameCounts isActorID t) : Ensures (t.addRef depth objectId count)
    (t₀.SameCounts isActorID) := by
  refine .bind (fun entry hentry => ?_)
  have hcounted := h.setRef_of_get? (find_eq_ok.mp hentry) (hcount entry)
  exact .ite (fun _ => sameCounts_setNestedRefInUseRecursive hcounted) (fun _ => .ok hcounted)

theorem ensures_addRef
    (hcount : ∀ entry, ownedObjectCounts isActorID objectId (count entry) =
      ownedObjectCounts isActorID objectId entry)
    (h : t.HasDiscrepancy isActorID d) : Ensures (t.addRef depth objectId count)
    (HasDiscrepancy isActorID d) :=
  (sameCounts_addRef hcount (.refl isActorID t)).mono (fun _ hsame => h.of_sameCounts hsame)

theorem ensures_getAndClearLocalBorrowersInternal {encounteredIds : List O}
    (h : t.HasDiscrepancy isActorID d) :
    Ensures (getAndClearLocalBorrowersInternal depth (encounteredIds, t) objectId)
      (fun s => s.2.2.HasDiscrepancy isActorID d) := by
  induction depth generalizing t encounteredIds objectId with
  | zero => exact .error _
  | succ depth ih =>
    unfold getAndClearLocalBorrowersInternal
    split
    · exact .ok h
    · next ref hget =>
        refine .ite (fun _ => .ok h) (fun _ => ?_)
        refine .bind_of (P := fun s => s.2.HasDiscrepancy isActorID d) (.foldlM ?_ ?_) ?_
        · split_ifs
          · exact h
          · exact h.setRef_of_get? hget rfl
        · rintro ⟨encounteredIds, t⟩ containedId _ h
          exact .bind_of (ih h) (fun _ h => .ok h)
        · rintro ⟨encounteredIds, t⟩ h
          exact .bind (fun ref hfind => .ok (h.setRef_of_get? (find_eq_ok.mp hfind) rfl))

theorem ensures_publishRefRemovedInternal (h : t.HasDiscrepancy isActorID d) :
    Ensures (t.publishRefRemovedInternal depth objectId) (HasDiscrepancy isActorID d) :=
  .bind_of (ensures_getAndClearLocalBorrowersInternal h) (fun _ h => .ok h)

end borrowed

section operations
variable {c : ReferenceCounterConfig O N W} {d : OwnedObjectCounter → ℤ} {t₀ t : ReferenceTable O N W}
variable {depth : ℕ} {objectId : O} {innerIds : List O} {ownerAddress : W}
omit [DecidableEq N] [DecidableEq W]

theorem sameCounts_addNestedObjectIdsInternal [DecidableEq W] (h : t₀.SameCounts c.isActorID t) :
    Ensures (t.addNestedObjectIdsInternal c depth objectId innerIds ownerAddress)
    (t₀.SameCounts c.isActorID) := by
  refine .ite (fun _ => ?_) (fun _ => ?_)
  · split
    · exact .ok h
    · next entry hget =>
        refine .bind (fun _ _ => .foldlM (h.setRef_of_get? hget rfl) (fun t innerId _ h => ?_))
        exact sameCounts_addRef (fun _ => rfl) (h.emplace innerId)
  · refine .foldlM h (fun t innerId _ h => .bind (fun inner hinner => .ok ?_))
    apply (h.emplace innerId).setRef_of_get? (find_eq_ok.mp hinner)
    split_ifs
    · rfl
    · rfl
    · rfl

theorem ensures_addNestedObjectIdsInternal [DecidableEq W] (h : t.HasDiscrepancy c.isActorID d) :
    Ensures (t.addNestedObjectIdsInternal c depth objectId innerIds ownerAddress)
      (HasDiscrepancy c.isActorID d) :=
  (sameCounts_addNestedObjectIdsInternal (.refl c.isActorID t)).mono
    (fun _ hsame => h.of_sameCounts hsame)

/-! ### Going out of scope -/

theorem ensures_onObjectOutOfScopeOrFreed (h : t.HasDiscrepancy c.isActorID d) :
    Ensures (t.onObjectOutOfScopeOrFreed c objectId) (HasDiscrepancy c.isActorID d) :=
  .bind (fun _ hentry => .ok (h.recount (find_eq_ok.mp hentry)))

theorem ensures_eraseReference (h : t.HasDiscrepancy c.isActorID d) :
    Ensures (t.eraseReference c objectId) (HasDiscrepancy c.isActorID d) := by
  refine .bind (fun entry hentry => .bind (fun _ _ => .ok ?_))
  have hget := find_eq_ok.mp hentry
  have hsum : t.ownedObjectSums c.isActorID = ownedObjectCounts c.isActorID objectId entry +
      (t.objectIdRefs.erase objectId).sum (ownedObjectCounts c.isActorID) := Dict.sum_erase hget _
  unfold HasDiscrepancy discrepancy at h ⊢
  rw [hsum] at h
  split_ifs with hcounted
  · show t.ownedObjects - ownedObjectCounts c.isActorID objectId entry -
      (t.objectIdRefs.erase objectId).sum (ownedObjectCounts c.isActorID) = d
    rw [← h]
    abel
  · have hzero : ownedObjectCounts c.isActorID objectId entry = 0 := by
      apply if_pos
      cases howned : entry.ownedByUs <;> cases hactor : c.isActorID objectId <;> simp_all
    show t.ownedObjects - (t.objectIdRefs.erase objectId).sum (ownedObjectCounts c.isActorID) = d
    rw [← h, hzero, zero_add]

variable {entry : ReferenceEntry O N W}

theorem ensures_freeIfOutOfScope (h : t.HasDiscrepancy c.isActorID d) :
    Ensures (t.freeIfOutOfScope c objectId entry) (HasDiscrepancy c.isActorID d) :=
  .ite (fun _ => ensures_onObjectOutOfScopeOrFreed h) (fun _ => .ok h)

theorem ensures_releaseLineageReferences (h : t.HasDiscrepancy c.isActorID d) :
    Ensures (t.releaseLineageReferences c depth objectId)
      (fun s => s.2.HasDiscrepancy c.isActorID d) := by
  induction depth generalizing t objectId with
  | zero => exact .error _
  | succ depth ih =>
    refine .bind (fun entry hentry => .foldlM ?_ ?_)
    · show HasDiscrepancy c.isActorID d (ite _ _ _)
      split_ifs
      · exact h.setRef_of_get? (find_eq_ok.mp hentry) rfl
      · exact h
    · rintro ⟨bytes, t⟩ argumentId _ h
      dsimp only
      split
      · exact .ok h
      · next arg hget =>
          refine .ite (fun _ => .ok h)
            (fun _ => .bind_of (ensures_freeIfOutOfScope (h.setRef_of_get? hget rfl)) ?_)
          refine fun t h => .bind
            (fun arg _ => .ite (fun _ => .bind (fun _ _ => .bind_of (ih h) ?_)) (fun _ => .ok h))
          rintro ⟨evicted, t⟩ h
          exact .bind_of (ensures_eraseReference h) (fun _ h => .ok h)

variable {id : O}

theorem ensures_publishIfRefRemoved (h : t.HasDiscrepancy c.isActorID d) :
    Ensures (t.publishIfRefRemoved depth id) (HasDiscrepancy c.isActorID d) := by
  refine .bind (fun _ _ => .ite (fun _ => .bind_of (ensures_publishRefRemovedInternal h) ?_)
    (fun _ => .ok h))
  exact fun t h => .bind (fun entry hentry => .ok (h.setRef_of_get? (find_eq_ok.mp hentry) rfl))

theorem ensures_removeOuter {innerId : O} {ownedByUs : Bool} {inner : ReferenceEntry O N W} :
    Ensures (removeOuter id ownedByUs inner) (fun inner' =>
      ownedObjectCounts c.isActorID innerId inner' = ownedObjectCounts c.isActorID innerId inner) :=
  .ite (fun _ => .bind (fun _ _ => .ok rfl)) (fun _ => .bind (fun _ _ => .ok rfl))

theorem ensures_leaveScope (h : t.HasDiscrepancy c.isActorID d) :
    Ensures (t.leaveScope c id entry) (HasDiscrepancy c.isActorID d) := by
  refine .bind_of (ensures_freeIfOutOfScope h) (fun t h => .ok ?_)
  split_ifs
  · exact h
  · exact h

theorem ensures_deleteReferenceInternal (h : t.HasDiscrepancy c.isActorID d) :
    Ensures (t.deleteReferenceInternal c depth id) (HasDiscrepancy c.isActorID d) := by
  induction depth generalizing t id with
  | zero => exact .error _
  | succ depth ih =>
    refine .bind_of (ensures_publishIfRefRemoved h)
      (fun t h => .bind (fun entry _ => .bind_of (.foldlM h ?_) ?_))
    · intro t innerId _ h
      split
      · exact .ok h
      · next inner hget =>
          exact .bind_of ensures_removeOuter (fun inner' hcounts => ih (h.setRef_of_get? hget hcounts))
    · refine fun t h => .bind_of (ensures_leaveScope h)
        (fun t h => .bind (fun entry _ => .ite ?_ (fun _ => .ok h)))
      refine fun _ => .bind_of (ensures_releaseLineageReferences h) ?_
      rintro ⟨_, t⟩ h
      exact ensures_eraseReference h

theorem ensures_deleteIfUnused (h : t.HasDiscrepancy c.isActorID d) :
    Ensures (t.deleteIfUnused c depth objectId entry) (HasDiscrepancy c.isActorID d) :=
  .ite (fun _ => ensures_deleteReferenceInternal h) (fun _ => .ok h)

theorem ensures_removeLocalReferenceInternal (h : t.HasDiscrepancy c.isActorID d) :
    Ensures (t.removeLocalReferenceInternal c depth objectId) (HasDiscrepancy c.isActorID d) := by
  unfold removeLocalReferenceInternal
  split
  · exact .ok h
  · next entry hget =>
      exact .ite (fun _ => .ok h) (fun _ => ensures_deleteIfUnused (h.setRef_of_get? hget rfl))

variable {releaseLineage : Bool} {argumentIds : List O}

theorem ensures_removeSubmittedTaskReferences (h : t.HasDiscrepancy c.isActorID d) :
    Ensures (removeSubmittedTaskReferences c depth releaseLineage argumentIds t)
      (HasDiscrepancy c.isActorID d) := by
  induction argumentIds generalizing t with
  | nil => exact .ok h
  | cons argumentId argumentIds ih =>
    unfold removeSubmittedTaskReferences
    split
    · exact .ok h
    · next entry hget =>
        refine .bind (fun _ _ => .bind_of (ensures_deleteIfUnused ?_) (fun t h => ih h))
        exact h.setRef_of_get? hget rfl

/-! ### Borrowing -/

variable {isActorID : O → Bool}

theorem ensures_nestInBorrowed {outerId : O} (h : t.HasDiscrepancy isActorID d) :
    Ensures (t.nestInBorrowed depth objectId outerId) (HasDiscrepancy isActorID d) := by
  unfold nestInBorrowed
  split
  · exact .ok h
  · next outer hget =>
      refine .ite (fun _ => .ok h) (fun _ => .bind (fun _ hne => .bind (fun entry hentry => ?_)))
      have hne : objectId ≠ outerId := of_decide_eq_true (rayCheck_eq_ok.mp hne)
      have houter : (t.setRef outerId
        { outer with contains := insertNew outer.contains objectId }).HasDiscrepancy
          isActorID d := h.setRef_of_get? hget rfl
      have hentry' : (t.setRef outerId
        { outer with contains := insertNew outer.contains objectId }).objectIdRefs.get?
          objectId = some entry := (Dict.get?_set_ne _ _ hne).trans (find_eq_ok.mp hentry)
      have hnested : ((t.setRef outerId
        { outer with contains := insertNew outer.contains objectId }).setRef objectId
          { entry with containedInBorrowedIds := insertNew entry.containedInBorrowedIds outerId
            }).HasDiscrepancy
          isActorID d := houter.setRef_of_get? hentry' rfl
      exact .ite (fun _ => ensures_setNestedRefInUseRecursive hnested) (fun _ => .ok hnested)

theorem ensures_addBorrowedObjectInternal {outerId : Option O}
    (h : t.HasDiscrepancy c.isActorID d) :
    Ensures (t.addBorrowedObjectInternal c depth objectId outerId ownerAddress)
      (HasDiscrepancy c.isActorID d) := by
  refine .bind (fun entry hentry => .bind_of (P := HasDiscrepancy c.isActorID d) ?_ ?_)
  · have howner : ((t.emplace objectId).setRef objectId
      { entry with ownerAddress := some ownerAddress }).HasDiscrepancy
        c.isActorID d := (h.emplace objectId).setRef_of_get? (find_eq_ok.mp hentry) rfl
    cases outerId with
    | none => exact .ok howner
    | some outerId => exact ensures_nestInBorrowed howner
  · exact fun t h => .bind (fun _ _ => ensures_deleteIfUnused h)

variable {borrowedRefs : Dict O (ReferenceEntry O N W)}

theorem ensures_mergeRemoteBorrowers [DecidableEq W] {workerAddr : W}
    (h : t.HasDiscrepancy c.isActorID d) :
    Ensures (mergeRemoteBorrowers c workerAddr borrowedRefs depth t objectId)
      (HasDiscrepancy c.isActorID d) := by
  induction depth generalizing t objectId with
  | zero => exact .error _
  | succ depth ih =>
    unfold mergeRemoteBorrowers
    split
    · exact .ok h
    · next borrowerRef _ =>
        refine .bind (fun entry hentry => .bind_of
          (.foldlM (P := HasDiscrepancy c.isActorID d) ?_ ?_) ?_)
        · exact (h.emplace objectId).setRef_of_get? (find_eq_ok.mp hentry) rfl
        · exact fun t _ _ h => .bind (fun _ _ => ensures_addBorrowedObjectInternal h)
        refine fun t h => .bind (fun entry _ => .bind_of (P := HasDiscrepancy c.isActorID d) ?_ ?_)
        · cases entry.ownedByUs with
          | true => exact .ok h
          | false => exact ensures_setNestedRefInUseRecursive h
        refine fun t h => .bind_of (.foldlM h (fun _ _ _ h => ensures_addNestedObjectIdsInternal h)) ?_
        exact fun t h => .foldlM h (fun _ _ _ h => ih h)

/-! ### Owned objects -/

variable {objectSize : ℤ}
variable {lineageEligibility : LineageReconstructionEligibility} {pinnedAtNodeId : Option N}

/-- An object that we own is counted once its entry is complete; until then its entry is one too
many. -/
theorem ensures_addOwnedObjectInternal [DecidableEq W] {addLocalRef : Bool}
    (h : t.HasDiscrepancy c.isActorID d) :
    Ensures (t.addOwnedObjectInternal c depth objectId innerIds ownerAddress objectSize
      lineageEligibility addLocalRef
      pinnedAtNodeId) (fun s => s.2.HasDiscrepancy c.isActorID d) := by
  refine .ite (fun _ => .ok h)
    (fun hnew => .bind_of (P := (t.setRef objectId (.created ownerAddress objectSize
    lineageEligibility pinnedAtNodeId)).SameCounts c.isActorID) ?_
      (fun t' hsame => .bind (fun _ _ => .bind ?_)))
  · cases innerIds.isEmpty with
    | true => exact .ok (.refl _ _)
    | false => exact sameCounts_addNestedObjectIdsInternal (.refl _ _)
  · intro entry hentry
    have hget : t'.objectIdRefs.get? objectId = some entry := find_eq_ok.mp hentry
    have hbefore : t.countsAt c.isActorID objectId = 0 := by
      rw [countsAt, Option.not_isSome_iff_eq_none.mp hnew]
      rfl
    have hcounts := hsame.countsAt objectId
    rw [countsAt_of_get? hget, countsAt_of_get? (Dict.get?_set_self _ _ _)] at hcounts
    have huncounted : (t'.addReconstructable objectId).HasDiscrepancy c.isActorID
        (d - ownedObjectCounts c.isActorID objectId entry) := by
      refine hsame.discrepancy.trans ?_
      rw [discrepancy_setRef, hbefore, h, ← hcounts, add_zero]
    cases addLocalRef with
    | true => exact .ok (huncounted.increment hget rfl)
    | false => exact .ok (huncounted.increment hget rfl)

variable {pendingCreation : Bool}

theorem HasDiscrepancy.updateObjectPendingCreationInternal (h : t.HasDiscrepancy c.isActorID d) :
    (updateObjectPendingCreationInternal c pendingCreation t objectId).HasDiscrepancy
      c.isActorID d := by
  unfold ReferenceTable.updateObjectPendingCreationInternal
  split
  · exact h
  · next entry hget => exact h.recount hget

theorem HasDiscrepancy.foldl_updateObjectPendingCreationInternal {objectIds : List O}
    (h : t.HasDiscrepancy c.isActorID d) :
    (objectIds.foldl (ReferenceTable.updateObjectPendingCreationInternal c pendingCreation)
      t).HasDiscrepancy
      c.isActorID d := by
  induction objectIds generalizing t with
  | nil => exact h
  | cons objectId objectIds ih => exact ih h.updateObjectPendingCreationInternal

theorem HasDiscrepancy.updateObjectSize (h : t.HasDiscrepancy c.isActorID d) :
    (t.updateObjectSize c objectId objectSize).HasDiscrepancy c.isActorID d := by
  unfold ReferenceTable.updateObjectSize
  split
  · exact h
  · next entry hget => exact h.recount hget

theorem HasDiscrepancy.resetObjectsOnRemovedNode [DecidableEq N] {nodeId : N} {objectIds : List O}
    (h : t.HasDiscrepancy c.isActorID d) :
    (objectIds.foldl (resetObjectOnRemovedNode c nodeId) t).HasDiscrepancy c.isActorID d := by
  induction objectIds generalizing t with
  | nil => exact h
  | cons objectId objectIds ih =>
    refine ih ?_
    unfold resetObjectOnRemovedNode
    split
    · exact h
    · next entry hget =>
        split_ifs
        · exact h.recount hget
        · exact (h.recount hget).pushToRecover
        · exact h

theorem ensures_freePlasmaObject (h : t.HasDiscrepancy c.isActorID d) :
    Ensures (t.freePlasmaObject c objectId) (HasDiscrepancy c.isActorID d) := by
  unfold freePlasmaObject
  split
  · exact .ok h
  · have hfreed : ({ t with freedObjects := insertNew t.freedObjects objectId }).HasDiscrepancy
      c.isActorID d := h
    exact .ite (fun _ => ensures_onObjectOutOfScopeOrFreed hfreed) (fun _ => .ok hfreed)

theorem ensures_evictLineageLoop {rounds : ℕ} {minBytesToEvict lineageBytesEvicted : ℤ}
    (h : t.HasDiscrepancy c.isActorID d) :
    Ensures (evictLineageLoop c depth minBytesToEvict rounds (lineageBytesEvicted, t))
      (HasDiscrepancy c.isActorID d) := by
  induction rounds generalizing t lineageBytesEvicted with
  | zero => exact .ok h
  | succ rounds ih =>
    unfold evictLineageLoop
    split
    · exact .ok h
    · next objectId rest _ =>
        have hpopped : ({ t with reconstructableOwnedObjects := rest }).HasDiscrepancy
          c.isActorID d := h
        refine .ite (fun _ => .bind_of (ensures_releaseLineageReferences hpopped) ?_) (fun _ => .ok h)
        rintro ⟨evicted, t⟩ h
        exact ih h

theorem ensures_updateObjectPinnedAtRaylet {nodeId : N} {nodeDead : Bool}
    (h : t.HasDiscrepancy c.isActorID d) :
    Ensures (t.updateObjectPinnedAtRaylet c objectId nodeId nodeDead)
      (HasDiscrepancy c.isActorID d) := by
  unfold updateObjectPinnedAtRaylet
  split
  · exact .ok h
  · next entry hget =>
      refine .ite (fun _ => .ok h) (fun _ => .bind (fun _ _ => .ok ?_))
      split_ifs
      · exact h
      · exact (h.recount hget).pushToRecover
      · exact h.recount hget

/-! ### The public operations -/

theorem ensures_addOwnedObject [DecidableEq W] {addLocalRef : Bool}
    (h : t.HasDiscrepancy c.isActorID d) :
    Ensures (t.addOwnedObject c depth objectId innerIds ownerAddress objectSize
      lineageEligibility addLocalRef
      pinnedAtNodeId) (HasDiscrepancy c.isActorID d) := by
  refine .bind_of (ensures_addOwnedObjectInternal h) ?_
  rintro ⟨added, t⟩ h
  exact .bind (fun _ _ => .ok h)

theorem ensures_addDynamicReturn [DecidableEq W] {generatorId : O}
    (h : t.HasDiscrepancy c.isActorID d) :
    Ensures (t.addDynamicReturn c depth objectId generatorId) (HasDiscrepancy c.isActorID d) := by
  unfold addDynamicReturn
  split
  · exact .ok h
  · refine .bind (fun found _ => .bind_of (ensures_addOwnedObjectInternal h) ?_)
    rintro ⟨added, t⟩ h
    exact ensures_addNestedObjectIdsInternal h

theorem ensures_ownDynamicStreamingTaskReturnRef [DecidableEq W] {generatorId : O}
    (h : t.HasDiscrepancy c.isActorID d) :
    Ensures (t.ownDynamicStreamingTaskReturnRef c depth objectId generatorId)
      (HasDiscrepancy c.isActorID d) := by
  unfold ownDynamicStreamingTaskReturnRef
  split
  · exact .ok h
  · refine .bind (fun found _ => .bind_of (ensures_addOwnedObjectInternal h) ?_)
    rintro ⟨added, t⟩ h
    exact .ok h

theorem ensures_addSubmittedTaskReference {lineage : ℕ} {argumentId : O}
    (h : t.HasDiscrepancy isActorID d) :
    Ensures (t.addSubmittedTaskReference depth lineage argumentId) (HasDiscrepancy isActorID d) :=
  ensures_addRef (fun _ => rfl) h

theorem ensures_updateSubmittedTaskReferences {returnIds argumentIdsToAdd argumentIdsToRemove : List O}
    (h : t.HasDiscrepancy c.isActorID d) :
    Ensures (t.updateSubmittedTaskReferences c depth returnIds argumentIdsToAdd argumentIdsToRemove)
      (HasDiscrepancy c.isActorID d) := by
  refine .bind_of (.foldlM h.foldl_updateObjectPendingCreationInternal ?_) ?_
  · exact fun t argumentId _ h => ensures_addSubmittedTaskReference (h.emplace argumentId)
  · exact fun t h => ensures_removeSubmittedTaskReferences h

theorem ensures_updateFinishedTaskReferences [DecidableEq W] {returnIds : List O}
    {workerAddr : W} (h : t.HasDiscrepancy c.isActorID d) :
    Ensures (t.updateFinishedTaskReferences c depth returnIds argumentIds releaseLineage workerAddr
      borrowedRefs)
      (HasDiscrepancy c.isActorID d) :=
  .bind_of (.foldlM h.foldl_updateObjectPendingCreationInternal
    (fun _ _ _ h => ensures_mergeRemoteBorrowers h))
    (fun _ h => ensures_removeSubmittedTaskReferences h)

theorem ensures_popAndClearLocalBorrowers {borrowedIds : List O} (h : t.HasDiscrepancy c.isActorID d) :
    Ensures (t.popAndClearLocalBorrowers c depth borrowedIds) (HasDiscrepancy c.isActorID d) := by
  refine .bind_of (P := fun s => s.2.HasDiscrepancy c.isActorID d) (.foldlM h ?_) ?_
  · rintro ⟨encounteredIds, t⟩ borrowedId _ h
    exact .bind_of (ensures_getAndClearLocalBorrowersInternal h) (fun s h => .bind (fun _ _ => .ok h))
  · rintro ⟨encounteredIds, t⟩ h
    refine .foldlM h (fun t borrowedId _ h => ?_)
    split
    · exact .ok h
    · next entry hget => exact ensures_deleteIfUnused (h.setRef_of_get? hget rfl)

theorem ensures_cleanupBorrowersOnRefRemoved [DecidableEq W]
    {newBorrowerRefs : Dict O (ReferenceEntry O N W)}
    {borrowerAddr : W} (h : t.HasDiscrepancy c.isActorID d) :
    Ensures (t.cleanupBorrowersOnRefRemoved c depth newBorrowerRefs objectId borrowerAddr)
      (HasDiscrepancy c.isActorID d) := by
  refine .bind_of (ensures_mergeRemoteBorrowers h) (fun t h => ?_)
  split
  · exact .ok h
  · next entry hget => exact ensures_deleteReferenceInternal (h.setRef_of_get? hget rfl)

theorem ensures_subscribeRefRemoved [DecidableEq W] {containedInId : Option O}
    (h : t.HasDiscrepancy c.isActorID d) :
    Ensures (t.subscribeRefRemoved c depth objectId containedInId) (HasDiscrepancy c.isActorID d) := by
  refine .bind_of (P := HasDiscrepancy c.isActorID d) ?_
    (fun t h => .bind (fun reference hfind => .ite ?_ ?_))
  · cases containedInId with
    | none => exact .ok (h.emplace objectId)
    | some containedInId => exact ensures_addNestedObjectIdsInternal (h.emplace objectId)
  · exact fun _ => .bind_of (ensures_publishRefRemovedInternal h)
      (fun _ h => ensures_deleteReferenceInternal h)
  · exact fun _ => .ok (h.setRef_of_get? (find_eq_ok.mp hfind) rfl)

theorem ensures_reportLocalityData (h : t.HasDiscrepancy isActorID d) :
    Ensures (t.reportLocalityData objectId objectSize) (HasDiscrepancy isActorID d) := by
  unfold reportLocalityData
  split
  · exact .ok h
  · next entry hget =>
      refine .bind (fun _ hborrowed => .ok ?_)
      have hborrowed := rayCheck_eq_ok.mp hborrowed
      split_ifs
      · apply h.setRef_of_get? hget
        unfold ownedObjectCounts
        rw [if_pos (by simp only [hborrowed, Bool.true_or]),
          if_pos (by simp only [hborrowed, Bool.true_or])]
      · exact h

theorem ensures_addBorrowerAddress [DecidableEq W] {borrowerAddress : W}
    (h : t.HasDiscrepancy c.isActorID d) :
    Ensures (t.addBorrowerAddress c objectId borrowerAddress) (HasDiscrepancy c.isActorID d) :=
  .bind (fun _ hfind =>
    .bind (fun _ _ => .bind (fun _ _ => .ok (h.setRef_of_get? (find_eq_ok.mp hfind) rfl))))

/-! ### Spilled objects -/

/-- A report that is rejected, or comes from a node that is alive, leaves the discrepancy as it is;
one from a dead node adds the state after the reset once more, and takes the state before it away
once more. -/
theorem discrepancy_handleObjectSpilled {spilledUrl : String} {spilledNodeId : Option N}
    {nodeDead : Bool} :
    (t.handleObjectSpilled c objectId spilledUrl spilledNodeId nodeDead).2.discrepancy c.isActorID =
      t.discrepancy c.isActorID +
        match t.objectIdRefs.get? objectId with
        | none => 0
        | some entry =>
          if entry.outOfScope c.lineagePinningEnabled = false ∧ spilledNodeId ≠ none ∧
            nodeDead = true then
            ownedObjectCounts c.isActorID objectId (markSpilled entry).unsetObjectPrimaryCopy -
              ownedObjectCounts c.isActorID objectId (markSpilled entry)
          else 0 := by
  unfold handleObjectSpilled
  cases hget : t.objectIdRefs.get? objectId with
  | none => exact (add_zero _).symm
  | some entry =>
    have hmarked : ((t.updateOwnedObjectCounters c objectId entry true).setRef objectId
        (markSpilled entry)).discrepancy c.isActorID =
          t.discrepancy c.isActorID - ownedObjectCounts c.isActorID objectId (markSpilled entry) :=
      discrepancy_decrement c hget
    dsimp only
    by_cases hrejected : entry.outOfScope c.lineagePinningEnabled ∧ spilledNodeId ≠ none
    · rw [if_pos hrejected, if_neg, add_zero]
      exact fun hin => absurd (hrejected.1.symm.trans hin.1) nofun
    rw [if_neg hrejected]
    have hget' : ((t.updateOwnedObjectCounters c objectId entry true).setRef objectId
        (markSpilled entry)).objectIdRefs.get? objectId =
          some (markSpilled entry) := Dict.get?_set_self _ _ _
    by_cases halive : spilledNodeId = none ∨ !nodeDead
    · rw [if_pos halive, discrepancy_updateOwnedObjectCounters, discrepancy_setRef,
        countsAt_of_get? hget', hmarked, if_neg Bool.false_ne_true, if_neg]
      · abel
      · rintro ⟨_, hnode, hdead⟩
        rw [hdead] at halive
        exact halive.elim hnode nofun
    · push Not at halive
      have hdead : nodeDead = true := by simpa using halive.2
      have hin : entry.outOfScope c.lineagePinningEnabled = false := by
        rw [Bool.eq_false_iff]
        exact fun hout => hrejected ⟨hout, halive.1⟩
      rw [if_neg (not_or.mpr halive), if_pos ⟨hin, halive.1, hdead⟩,
        discrepancy_updateOwnedObjectCounters, if_neg Bool.false_ne_true]
      show discrepancy c.isActorID (recount c _ _ _ _) + _ = _
      rw [discrepancy_recount c hget', hmarked]
      abel

end operations

section spilled
variable {isActorID : O → Bool} {objectId : O} {entry : ReferenceEntry O N W}
omit [DecidableEq O] [DecidableEq N] [DecidableEq W]

/-- What the reset of a spilled object leaves of the fields that are counted. -/
theorem unsetObjectPrimaryCopy_markSpilled (entry : ReferenceEntry O N W) :
    (markSpilled entry).unsetObjectPrimaryCopy.ownedByUs = entry.ownedByUs ∧
      (markSpilled entry).unsetObjectPrimaryCopy.pendingCreation = entry.pendingCreation ∧
      (markSpilled entry).unsetObjectPrimaryCopy.pinnedAtNodeId = none ∧
      (markSpilled entry).unsetObjectPrimaryCopy.spilled = entry.spilledNodeId.isNone := by
  unfold ReferenceEntry.unsetObjectPrimaryCopy Reference.unsetObjectPrimaryCopy markSpilled
  cases hnode : entry.spilledNodeId with
  | none => simp
  | some node => simp

/-- When the reset of a spilled object does not change what the object counts for. -/
theorem ownedObjectCounts_unset_iff :
    ownedObjectCounts isActorID objectId (markSpilled entry).unsetObjectPrimaryCopy =
        ownedObjectCounts isActorID objectId (markSpilled entry) ↔
      entry.ownedByUs = false ∨ isActorID objectId = true ∨ entry.pendingCreation = true ∨
        (entry.pinnedAtNodeId = none ∧ entry.spilledNodeId = none) := by
  obtain ⟨howned, hpending, hpinned, hspilled⟩ := unsetObjectPrimaryCopy_markSpilled entry
  have hmarked : (markSpilled entry).ownedByUs = entry.ownedByUs ∧
      (markSpilled entry).pendingCreation = entry.pendingCreation ∧
      (markSpilled entry).pinnedAtNodeId = entry.pinnedAtNodeId ∧ (markSpilled entry).spilled = true :=
    ⟨rfl, rfl, rfl, rfl⟩
  unfold ownedObjectCounts
  rw [howned, hpending, hpinned, hspilled, hmarked.1, hmarked.2.1, hmarked.2.2.1, hmarked.2.2.2]
  cases entry.ownedByUs with
  | false => simp
  | true =>
    cases isActorID objectId with
    | true => simp
    | false =>
      cases entry.pendingCreation with
      | true => simp
      | false =>
        cases entry.pinnedAtNodeId with
        | some node =>
          refine iff_of_false (fun heq => ?_) (by simp)
          have hat := congrFun heq .ownedObjectsSpilled
          cases hnode : entry.spilledNodeId with
          | some node => simp [hnode] at hat
          | none => simp [hnode] at hat
        | none =>
          cases entry.spilledNodeId with
          | some node =>
            refine iff_of_false (fun heq => ?_) (by simp)
            have hat := congrFun heq .ownedObjectsInMemory
            simp at hat
          | none => simp

end spilled

/-! ### Runs -/

/-- The counters are the sums over the table, so none of them is below zero. -/
structure Exact (isActorID : O → Bool) (t : ReferenceTable O N W) : Prop where
  eq_sums : t.ownedObjects = t.ownedObjectSums isActorID
  nonneg : ∀ counter, 0 ≤ t.ownedObjects counter

omit [DecidableEq O] [DecidableEq N] [DecidableEq W] in
theorem ownedObjectCounts_nonneg (isActorID : O → Bool) (objectId : O) (entry : ReferenceEntry O N W) :
    0 ≤ ownedObjectCounts isActorID objectId entry := by
  have hsize : (0 : ℤ) ≤ if 0 < entry.objectSize then entry.objectSize else 0 := by
    split_ifs with hpos
    · exact hpos.le
    · exact le_refl 0
  have hsingle : ∀ counter : OwnedObjectCounter, (0 : OwnedObjectCounter → ℤ) ≤ Pi.single counter 1 :=
    fun counter => Pi.single_nonneg.mpr zero_le_one
  unfold ownedObjectCounts
  split
  · exact le_refl 0
  · dsimp only
    split
    · exact hsingle _
    · split
      · exact add_nonneg (hsingle _) (Pi.single_nonneg.mpr hsize)
      · split
        · exact add_nonneg (hsingle _) (Pi.single_nonneg.mpr hsize)
        · split
          · exact add_nonneg (hsingle _) (Pi.single_nonneg.mpr hsize)
          · exact le_refl 0

omit [DecidableEq O] [DecidableEq N] [DecidableEq W] in
theorem exact_iff {isActorID : O → Bool} {t : ReferenceTable O N W} :
    t.Exact isActorID ↔ t.HasDiscrepancy isActorID 0 := by
  unfold HasDiscrepancy discrepancy
  rw [sub_eq_zero]
  refine ⟨Exact.eq_sums, fun heq => ⟨heq, ?_⟩⟩
  have hnonneg : 0 ≤ t.ownedObjectSums isActorID := by
    apply List.sum_nonneg
    intro counts hcounts
    obtain ⟨entry, _, rfl⟩ := List.mem_map.mp hcounts
    exact ownedObjectCounts_nonneg _ _ _
  rw [heq]
  exact hnonneg

omit [DecidableEq O] [DecidableEq N] [DecidableEq W] in
theorem exact_init (isActorID : O → Bool) : (init : ReferenceTable O N W).Exact isActorID :=
  ⟨rfl, fun _ => le_refl 0⟩

end ReferenceTable

/-- An operation of which the decrements and increments balance: every one but the report of a dead
node that it spilled an object in scope which we own, which is no actor and not pending, and which
is pinned or has been spilled to a known node. -/
def ReferenceCounterOp.Balanced (c : ReferenceCounterConfig O N W) (t : ReferenceTable O N W) :
    ReferenceCounterOp O N W → Prop
  | .handleObjectSpilled objectId _ spilledNodeId nodeDead =>
    ∀ entry, t.objectIdRefs.get? objectId = some entry →
      entry.outOfScope c.lineagePinningEnabled = false →
      spilledNodeId ≠ none → nodeDead = true →
      entry.ownedByUs = false ∨ c.isActorID objectId = true ∨ entry.pendingCreation = true ∨
        (entry.pinnedAtNodeId = none ∧ entry.spilledNodeId = none)
  | _ => True

namespace ReferenceTable

variable {c : ReferenceCounterConfig O N W} {t : ReferenceTable O N W}

theorem ensures_perform {depth : ℕ} {op : ReferenceCounterOp O N W} {d : OwnedObjectCounter → ℤ}
    (hop : ∀ objectId spilledUrl spilledNodeId nodeDead,
      op ≠ .handleObjectSpilled objectId spilledUrl spilledNodeId nodeDead)
    (h : t.HasDiscrepancy c.isActorID d) : Ensures (t.perform c depth op) (HasDiscrepancy c.isActorID d) := by
  cases op with
  | addOwnedObject => exact ensures_addOwnedObject h
  | addDynamicReturn => exact ensures_addDynamicReturn h
  | ownDynamicStreamingTaskReturnRef => exact ensures_ownDynamicStreamingTaskReturnRef h
  | addBorrowedObject => exact ensures_addBorrowedObjectInternal h
  | updateObjectSize => exact .ok h.updateObjectSize
  | addLocalReference objectId => exact ensures_addRef (fun _ => rfl) (h.emplace objectId)
  | removeLocalReference => exact ensures_removeLocalReferenceInternal h
  | releaseAllLocalReferences => exact .foldlM h (fun _ _ _ h => ensures_removeLocalReferenceInternal h)
  | tryReleaseLocalRefs => exact .foldlM h (fun _ _ _ h => ensures_removeLocalReferenceInternal h)
  | updateSubmittedTaskReferences => exact ensures_updateSubmittedTaskReferences h
  | updateResubmittedTaskReferences => exact .foldlM h (fun _ _ _ h => ensures_addSubmittedTaskReference h)
  | updateFinishedTaskReferences => exact ensures_updateFinishedTaskReferences h
  | freePlasmaObjects => exact .foldlM h (fun _ _ _ h => ensures_freePlasmaObject h)
  | tryMarkFreedObjectInUseAgain =>
      refine .ok ?_
      split_ifs
      · exact h
      · exact h
  | evictLineage => exact ensures_evictLineageLoop h
  | resetObjectsOnRemovedNode => exact .ok h.resetObjectsOnRemovedNode
  | flushObjectsToRecover => exact .ok h
  | updateObjectPinnedAtRaylet => exact ensures_updateObjectPinnedAtRaylet h
  | popAndClearLocalBorrowers => exact ensures_popAndClearLocalBorrowers h
  | cleanupBorrowersOnRefRemoved => exact ensures_cleanupBorrowersOnRefRemoved h
  | addNestedObjectIds => exact ensures_addNestedObjectIdsInternal h
  | publishRefRemoved => exact ensures_publishRefRemovedInternal h
  | subscribeRefRemoved => exact ensures_subscribeRefRemoved h
  | updateObjectPendingCreation => exact .ok h.updateObjectPendingCreationInternal
  | handleObjectSpilled objectId spilledUrl spilledNodeId nodeDead => exact absurd rfl (hop _ _ _ _)
  | reportLocalityData => exact ensures_reportLocalityData h
  | addBorrowerAddress => exact ensures_addBorrowerAddress h

omit [DecidableEq N] [DecidableEq W] in
/-- A spill report keeps exact counters exact if and only if it is balanced. -/
theorem exact_handleObjectSpilled_iff {objectId : O} {spilledUrl : String}
    {spilledNodeId : Option N} {nodeDead : Bool}
    (h : t.Exact c.isActorID) :
    (t.handleObjectSpilled c objectId spilledUrl spilledNodeId nodeDead).2.Exact c.isActorID ↔
      (ReferenceCounterOp.handleObjectSpilled objectId spilledUrl spilledNodeId
        nodeDead).Balanced c t := by
  have hzero : t.discrepancy c.isActorID = 0 := exact_iff.mp h
  rw [exact_iff, HasDiscrepancy, discrepancy_handleObjectSpilled, hzero, zero_add]
  show _ ↔ ∀ entry, t.objectIdRefs.get? objectId = some entry → _
  cases hget : t.objectIdRefs.get? objectId with
  | none =>
    refine iff_of_true rfl (fun entry heq => ?_)
    cases heq
  | some entry =>
    dsimp only
    by_cases hdead : entry.outOfScope c.lineagePinningEnabled = false ∧ spilledNodeId ≠ none ∧
      nodeDead = true
    · rw [if_pos hdead, sub_eq_zero, ownedObjectCounts_unset_iff]
      constructor
      · intro hbalanced entry' heq _ _ _
        cases heq
        exact hbalanced
      · exact fun hall => hall entry rfl hdead.1 hdead.2.1 hdead.2.2
    · rw [if_neg hdead]
      refine iff_of_true rfl (fun entry' heq hin hnode hnodeDead => absurd ⟨?_, hnode, hnodeDead⟩ hdead)
      cases heq
      exact hin

/-- One call keeps exact counters exact if and only if its operation is balanced. -/
theorem exact_call_iff (call : ReferenceCounterCall O N W) (h : t.Exact c.isActorID) :
    Ensures (t.call c call) (Exact c.isActorID) ↔ call.operation.Balanced c t := by
  obtain ⟨depth, onLineageReleased, op⟩ := call
  by_cases hop : ∃ objectId spilledUrl spilledNodeId nodeDead,
      op = .handleObjectSpilled objectId spilledUrl spilledNodeId nodeDead
  · obtain ⟨objectId, spilledUrl, spilledNodeId, nodeDead, rfl⟩ := hop
    have hspilled : (t.handleObjectSpilled { c with onLineageReleased := onLineageReleased }
      objectId spilledUrl
        spilledNodeId nodeDead).2.Exact c.isActorID ↔
          (ReferenceCounterOp.handleObjectSpilled objectId spilledUrl spilledNodeId
            nodeDead).Balanced c t :=
      exact_handleObjectSpilled_iff h
    constructor
    · exact fun hall => hspilled.mp (hall _ rfl)
    · exact fun hbalanced => .ok (hspilled.mpr hbalanced)
  · push Not at hop
    refine iff_of_true ?_ ?_
    · exact (ensures_perform (c := { c with onLineageReleased := onLineageReleased }) hop
        (exact_iff.mp h)).mono
        (fun _ h => exact_iff.mpr h)
    · cases op with
      | handleObjectSpilled objectId spilledUrl spilledNodeId nodeDead => exact absurd rfl (hop _ _ _ _)
      | _ => trivial

end ReferenceTable

/-- In a run the counters of owned objects are exact after every call if and only if every call is
balanced. -/
theorem ownedObjectCounters_exact_iff (c : ReferenceCounterConfig O N W)
    (calls : List (ReferenceCounterCall O N W)) :
    (∀ l, l <+: calls → Ensures (l.foldlM (ReferenceTable.call c) .init)
      (ReferenceTable.Exact c.isActorID)) ↔
      ∀ l call, l ++ [call] <+: calls →
        Ensures (l.foldlM (ReferenceTable.call c) .init) (fun t => call.operation.Balanced c t) :=
  Ensures.prefix_iff (fun _ => True) (ReferenceTable.exact_init c.isActorID) trivial
    (fun _ call h _ => ReferenceTable.exact_call_iff call h) (fun _ _ _ _ => fun _ _ => trivial)

/-- An object of ten bytes is made and pinned at a node, which dies and is then reported to have
spilled it: the number of spilled objects is below zero. -/
theorem ownedObjectCounters_below_zero :
    let c : ReferenceCounterConfig ℕ ℕ ℕ := ⟨0, true, fun _ => false, none⟩
    let calls : List (ReferenceCounterCall ℕ ℕ ℕ) :=
      [⟨1, none, .addOwnedObject 0 [] 0 10 .eligible true (some 1)⟩,
        ⟨1, none, .handleObjectSpilled 0 "url" (some 1) true⟩]
    ((calls.foldlM (ReferenceTable.call c) .init).map
      (fun t => t.ownedObjects .ownedObjectsSpilled)).toOption = some (-1) ∧
      ¬ Ensures (calls.foldlM (ReferenceTable.call c) .init) (ReferenceTable.Exact c.isActorID) := by
  intro c calls
  have hbelow : ((calls.foldlM (ReferenceTable.call c) .init).map
      (fun t => t.ownedObjects .ownedObjectsSpilled)).toOption = some (-1) := by decide
  refine ⟨hbelow, fun hexact => ?_⟩
  cases hrun : calls.foldlM (ReferenceTable.call c) .init with
  | error e =>
    rw [hrun] at hbelow
    cases hbelow
  | ok t =>
    rw [hrun] at hbelow
    have hnonneg := (hexact t hrun).nonneg .ownedObjectsSpilled
    have hvalue : t.ownedObjects .ownedObjectsSpilled = -1 := Option.some.inj hbelow
    omega

end RayTfm.CoreWorker
