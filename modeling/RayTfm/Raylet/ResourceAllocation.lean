import RayTfm.Raylet.ResourceInstances

/-! # Allocation of a resource request

`NodeResourceInstanceSet::TryAllocate` for a whole demand.  The ordinary resources are allocated
first, one by one; then the resources of placement groups, for each original resource from one
bundle, the given one or the first that has room, and the wildcard resource is allocated instance by
instance as the bundle was.  At each place where a resource cannot be allocated all that was taken
is freed again.

The call gives all or nothing (`tryAllocate_cases`): what it gives was taken from the instances and
is restored by freeing it, and what it leaves when it gives nothing is the set that it was given. -/

namespace RayTfm.Raylet

/-- What a call has taken so far, and what is left. -/
structure Progress where
  set : NodeResourceInstanceSet
  allocations : Dict ResourceID (List ℤ)

/-- How a part of the call ends: it goes on, or the call gives nothing and leaves a set. -/
inductive Attempt where
  | allocated (progress : Progress)
  | failed (set : NodeResourceInstanceSet)

/-- The resources of placement groups in a demand for one original resource. -/
abbrev PgVector := List (ResourceID × PgFormattedResourceData)

/-- The exit of a call that could not allocate a resource. -/
def Progress.rollback (progress : Progress) : Except RayError Attempt := do
  let set ← progress.set.freeAll progress.allocations
  .ok (.failed set)

/-- The loop over the demand, as to the ordinary resources. -/
def allocateOrdinary : List (ResourceID × ℤ) → Progress → Except RayError Attempt
  | [], progress => .ok (.allocated progress)
  | (resourceId, demand) :: rest, progress =>
      match parsePgId resourceId with
      | some _ => allocateOrdinary rest progress
      | none => do
          let attempt ← progress.set.tryAllocateOne resourceId demand
          match attempt with
          | (some allocation, set) => allocateOrdinary rest ⟨set, progress.allocations.set resourceId allocation⟩
          | (none, set) => Progress.rollback ⟨set, progress.allocations⟩

/-- The loop over the demand, as to the resources of placement groups: one of them is filed under
its original. -/
def collectPg (pgResourceMap : Dict ResourceID PgVector) (resourceId : ResourceID) :
    Dict ResourceID PgVector :=
  match parsePgId resourceId with
  | some data =>
    pgResourceMap.set ⟨data.originalResource⟩
      ((pgResourceMap.get? ⟨data.originalResource⟩).getD [] ++ [(resourceId, data)])
  | none => pgResourceMap

/-- `pg_resource_map`. -/
def pgResourceMap (demands : ResourceSet) : Dict ResourceID PgVector :=
  demands.resourceIds.foldl collectPg .empty

/-- The loop over the bundles of a group, for a demand that names none: the first with room. -/
def allocateFirstFit : List ResourceID → ℤ → NodeResourceInstanceSet →
    Except RayError (Option (ResourceID × List ℤ) × NodeResourceInstanceSet)
  | [], _, set => .ok (none, set)
  | indexedId :: ids, demand, set =>
    if set.has indexedId then do
      let attempt ← set.tryAllocateOne indexedId demand
      match attempt with
      | (some allocation, set) => .ok (some (indexedId, allocation), set)
      | (none, set) => allocateFirstFit ids demand set
    else allocateFirstFit ids demand set

/-- How the allocation from a bundle ends: with the wildcard resource and the allocation it is to
follow, if these were found. -/
inductive BundleAttempt where
  | allocated (progress : Progress) (wildcardId : Option ResourceID)
      (wildcardAllocation : Option (List ℤ))
  | failed (set : NodeResourceInstanceSet)

/-- The loop over the demand for one original resource, when a bundle is named. -/
def allocateGiven (demands : ResourceSet) : PgVector → Progress → Option ResourceID → Option (List ℤ) →
    Except RayError BundleAttempt
  | [], progress, wildcardId, wildcardAllocation =>
      .ok (.allocated progress wildcardId wildcardAllocation)
  | (resourceId, data) :: rest, progress, wildcardId, wildcardAllocation =>
    if data.bundleIndex ≠ -1 then do
      let attempt ← progress.set.tryAllocateOne resourceId (demands.get resourceId)
      match attempt with
      | (some allocation, set) =>
        allocateGiven demands rest ⟨set, progress.allocations.set resourceId allocation⟩ wildcardId
          (some allocation)
      | (none, set) => do
          let set ← set.freeAll progress.allocations
          .ok (.failed set)
    else allocateGiven demands rest progress (some resourceId) wildcardAllocation

/-- The allocation from a bundle of the group. -/
def allocateBundle (demands : ResourceSet) (original : ResourceID) (vector : PgVector)
    (progress : Progress) :
    Except RayError BundleAttempt :=
  match vector with
  | [(wildcardId, data)] => do
      let attempt ← allocateFirstFit (indexedIds progress.set.pgIndexedResources original data.groupId)
        (demands.get wildcardId) progress.set
      match attempt with
      | (some (indexedId, allocation), set) =>
        .ok (.allocated ⟨set, progress.allocations.set indexedId allocation⟩ (some wildcardId)
          (some allocation))
      | (none, set) => do
          let set ← set.freeAll progress.allocations
          .ok (.failed set)
  | _ => allocateGiven demands vector progress none none

/-- One round of the loop over the resources of placement groups. -/
def allocatePg (demands : ResourceSet) (original : ResourceID) (vector : PgVector)
    (progress : Progress) :
    Except RayError Attempt := do
  let attempt ← allocateBundle demands original vector progress
  match attempt with
  | .failed set => .ok (.failed set)
  | .allocated progress wildcardId wildcardAllocation => do
      let wildcardId ← rayFind wildcardId "wildcard_resource_id != nullptr"
      let wildcardAllocation ← rayFind wildcardAllocation "wildcard_allocation"
      rayCheck (wildcardAllocation ≠ []) "!(*wildcard_allocation).empty()"
      let set ← progress.set.allocateWithReference wildcardAllocation wildcardId
      .ok (.allocated ⟨set, progress.allocations.set wildcardId wildcardAllocation⟩)

/-- The loop over the resources of placement groups. -/
def allocatePgs (demands : ResourceSet) :
    List (ResourceID × PgVector) → Progress → Except RayError Attempt
  | [], progress => .ok (.allocated progress)
  | (original, vector) :: rest, progress => do
      let attempt ← allocatePg demands original vector progress
      match attempt with
      | .allocated progress => allocatePgs demands rest progress
      | .failed set => .ok (.failed set)

/-- `NodeResourceInstanceSet::TryAllocate`. -/
def NodeResourceInstanceSet.tryAllocate (set : NodeResourceInstanceSet) (demands : ResourceSet) :
    Except RayError (Option (Dict ResourceID (List ℤ)) × NodeResourceInstanceSet) := do
  let ordinary ← allocateOrdinary demands.entries.entries ⟨set, .empty⟩
  match ordinary with
  | .failed set => .ok (none, set)
  | .allocated progress => do
      let attempt ← allocatePgs demands (pgResourceMap demands).entries progress
      match attempt with
      | .failed set => .ok (none, set)
      | .allocated progress => .ok (some progress.allocations, progress.set)

/-! ### The demand for one original resource -/

/-- The resources of placement groups in a demand, for one original resource. -/
def pgVector (demands : ResourceSet) (original : ResourceID) : PgVector :=
  demands.resourceIds.filterMap (fun r => (parsePgId r).bind (fun data =>
    if ⟨data.originalResource⟩ = original then some (r, data) else none))

variable {demands : ResourceSet} {original r : ResourceID} {data : PgFormattedResourceData}

theorem mem_pgVector :
    (r, data) ∈ pgVector demands original ↔
      r ∈ demands.resourceIds ∧ parsePgId r = some data ∧ ⟨data.originalResource⟩ = original := by
  unfold pgVector
  rw [List.mem_filterMap]
  constructor
  · rintro ⟨r', hr', h⟩
    obtain ⟨data', hparse, h⟩ := Option.bind_eq_some_iff.mp h
    split_ifs at h with horiginal
    cases h
    exact ⟨hr', hparse, horiginal⟩
  · rintro ⟨hr, hparse, horiginal⟩
    refine ⟨r, hr, ?_⟩
    rw [hparse, Option.bind_some, if_pos horiginal]

theorem getD_foldl_collectPg (rs : List ResourceID) (m : Dict ResourceID PgVector)
    (original : ResourceID) :
    ((rs.foldl collectPg m).get? original).getD [] = (m.get? original).getD [] ++
      rs.filterMap (fun r => (parsePgId r).bind (fun data =>
        if ⟨data.originalResource⟩ = original then some (r, data) else none)) := by
  induction rs generalizing m with
  | nil => rw [List.foldl_nil, List.filterMap_nil, List.append_nil]
  | cons r rs ih =>
    rw [List.foldl_cons, ih, List.filterMap_cons]
    unfold collectPg
    cases hparse : parsePgId r with
    | none => rfl
    | some data =>
      simp only [Option.bind_some]
      rw [Dict.get?_set]
      by_cases horiginal : original = ⟨data.originalResource⟩
      · rw [if_pos horiginal, if_pos horiginal.symm, Option.getD_some, List.append_assoc, horiginal]
        rfl
      · rw [if_neg horiginal, if_neg (Ne.symm horiginal)]

theorem getD_pgResourceMap (demands : ResourceSet) (original : ResourceID) :
    ((pgResourceMap demands).get? original).getD [] = pgVector demands original :=
  getD_foldl_collectPg demands.resourceIds .empty original

theorem eq_pgVector_of_mem {vector : PgVector}
    (h : (original, vector) ∈ (pgResourceMap demands).entries) :
    vector = pgVector demands original := by
  rw [← getD_pgResourceMap, Dict.get?_eq_some_iff.mpr h, Option.getD_some]

theorem mem_keys_pgResourceMap (hr : r ∈ demands.resourceIds) (h : parsePgId r = some data) :
    ⟨data.originalResource⟩ ∈ (pgResourceMap demands).keys := by
  rw [← Dict.get?_isSome_iff]
  have hmem : (r, data) ∈ pgVector demands ⟨data.originalResource⟩ := mem_pgVector.mpr ⟨hr, h, rfl⟩
  rw [← getD_pgResourceMap] at hmem
  cases hget : (pgResourceMap demands).get? ⟨data.originalResource⟩ with
  | none =>
    rw [hget] at hmem
    cases hmem
  | some vector => rfl

/-- A placement group is asked for by its wildcard resource, alone or with one indexed resource of
the group. -/
inductive PgRequest : PgVector → Prop where
  | wildcard {w : ResourceID} {dw : PgFormattedResourceData} (hw : dw.bundleIndex = -1) :
      PgRequest [(w, dw)]
  | wildcardFirst {w j : ResourceID} {dw dj : PgFormattedResourceData} (hw : dw.bundleIndex = -1)
      (hj : dj.bundleIndex ≠ -1) (hgroup : dj.groupId = dw.groupId) : PgRequest [(w, dw), (j, dj)]
  | indexedFirst {w j : ResourceID} {dw dj : PgFormattedResourceData} (hw : dw.bundleIndex = -1)
      (hj : dj.bundleIndex ≠ -1) (hgroup : dj.groupId = dw.groupId) : PgRequest [(j, dj), (w, dw)]

/-- Each original resource of a placement group is asked for in this way. -/
def PgRequests (demands : ResourceSet) : Prop := ∀ e ∈ (pgResourceMap demands).entries, PgRequest e.2

/-- What a demanded resource is given: a resource of a placement group is given what is demanded of
the bundle, if one is named. -/
def grantedDemand (demands : ResourceSet) (r : ResourceID) : ℤ :=
  match parsePgId r with
  | none => demands.get r
  | some data =>
    match (pgVector demands ⟨data.originalResource⟩).find? (fun e => e.2.bundleIndex ≠ -1) with
    | some e => demands.get e.1
    | none => demands.get r

theorem grantedDemand_of_find
    (h : (r, data) ∈ pgVector demands original) {found : Option (ResourceID × PgFormattedResourceData)}
    (hfind : (pgVector demands original).find? (fun e => e.2.bundleIndex ≠ -1) = found) :
    grantedDemand demands r = demands.get ((found.map Prod.fst).getD r) := by
  obtain ⟨_, hparse, horiginal⟩ := mem_pgVector.mp h
  unfold grantedDemand
  rw [hparse]
  simp only
  rw [horiginal, hfind]
  cases found <;> rfl

/-! ### The ordinary resources -/

open NodeResourceInstanceSet

variable {set : NodeResourceInstanceSet} {progress : Progress}

theorem rollback_eq_ok (hone : set.OneImplicit) (h : Held set progress.set progress.allocations) :
    ∃ set', progress.rollback = .ok (.failed set') ∧ ∀ r, set'.get r = set.get r := by
  obtain ⟨set', hfree, hget⟩ := h.freeAll hone
  refine ⟨set', ?_, hget⟩
  unfold Progress.rollback
  rw [hfree]
  rfl

/-- The ordinary resources are all allocated, or one of them cannot be and nothing is. -/
theorem allocateOrdinary_cases (hone : set.OneImplicit) (l : List (ResourceID × ℤ))
    (progress : Progress) (hheld : Held set progress.set progress.allocations) (hdemands : ∀ e ∈ l, 0 ≤ e.2)
    (hnodup : (l.map Prod.fst).Nodup) (hfresh : ∀ e ∈ l, progress.allocations.get? e.1 = none) :
    (∃ progress', allocateOrdinary l progress = .ok (.allocated progress') ∧
      Held set progress'.set progress'.allocations ∧
      (∀ r, (r ∉ l.map Prod.fst ∨ parsePgId r ≠ none) → progress'.allocations.get? r = progress.allocations.get? r) ∧
      ∀ e ∈ l, parsePgId e.1 = none →
        ∃ a left, Taken (set.get e.1) a left e.2 ∧ progress'.allocations.get? e.1 = some a) ∨
    (∃ set', allocateOrdinary l progress = .ok (.failed set') ∧ (∀ r, set'.get r = set.get r) ∧
      ∃ e ∈ l, parsePgId e.1 = none ∧ tryAllocateInstances (set.get e.1) e.2 = none) := by
  induction l generalizing progress with
  | nil => exact .inl ⟨progress, rfl, hheld, fun _ _ => rfl, nofun⟩
  | cons e l ih =>
      obtain ⟨r, demand⟩ := e
      rw [List.map_cons, List.nodup_cons] at hnodup
      have hdemands' : ∀ e ∈ l, 0 ≤ e.2 := fun e he => hdemands e (List.mem_cons_of_mem _ he)
      cases hparse : parsePgId r with
      | some data =>
          have hround : allocateOrdinary ((r, demand) :: l) progress = allocateOrdinary l progress := by
            rw [allocateOrdinary, hparse]
          rw [hround]
          refine (ih progress hheld hdemands' hnodup.2 (fun e he => hfresh e (.tail _ he))).imp ?_ ?_
          · rintro ⟨progress', hloop, hheld', hother, hall⟩
            refine ⟨progress', hloop, hheld', ?_, ?_⟩
            · rintro r' (hr' | hr')
              · exact hother r' (.inl (fun hmem => hr' (.tail _ hmem)))
              · exact hother r' (.inr hr')
            · intro e he hnone
              rcases List.mem_cons.mp he with rfl | he
              · rw [hparse] at hnone
                cases hnone
              · exact hall e he hnone
          · rintro ⟨set', hloop, hget, e, he, hfail⟩
            exact ⟨set', hloop, hget, e, .tail _ he, hfail⟩
      | none =>
          have hget := hheld.get_none r (hfresh (r, demand) List.mem_cons_self)
          rcases tryAllocateOne_cases (hone.of_get hheld.length_get) r (hdemands (r, demand) List.mem_cons_self) with
            ⟨hnone, htry⟩ | ⟨a, left, set₁, htaken, htry, hallocated⟩
          · obtain ⟨set', hrollback, hrestored⟩ := rollback_eq_ok hone hheld
            refine .inr ⟨set', ?_, hrestored, (r, demand), List.mem_cons_self, hparse, ?_⟩
            · rw [allocateOrdinary, hparse]
              rw [htry]
              exact hrollback
            · rw [← hget]
              exact hnone
          · have hround : allocateOrdinary ((r, demand) :: l) progress =
                allocateOrdinary l ⟨set₁, progress.allocations.set r a⟩ := by
              rw [allocateOrdinary, hparse]
              simp only
              rw [htry]
              rfl
            have hne : ∀ e ∈ l, e.1 ≠ r := by
              intro e he heq
              have hmem : e.1 ∈ l.map Prod.fst := List.mem_map_of_mem he
              exact hnodup.1 (heq ▸ hmem)
            have hheld₁ : Held set set₁ (progress.allocations.set r a) :=
              hheld.allocated (hfresh (r, demand) List.mem_cons_self) hallocated
            have hfresh₁ : ∀ e ∈ l, (progress.allocations.set r a).get? e.1 = none := by
              intro e he
              rw [Dict.get?_set_ne _ _ (hne e he)]
              exact hfresh e (List.mem_cons_of_mem _ he)
            rw [hround]
            refine (ih ⟨set₁, progress.allocations.set r a⟩ hheld₁ hdemands' hnodup.2 hfresh₁).imp ?_ ?_
            · rintro ⟨progress', hloop, hheld', hother, hall⟩
              refine ⟨progress', hloop, hheld', ?_, ?_⟩
              · intro r' hr'
                have hne' : r' ≠ r := by
                  rintro rfl
                  rcases hr' with hr' | hr'
                  · exact hr' List.mem_cons_self
                  · exact hr' hparse
                rw [hother r' (hr'.imp_left (fun h hmem => h (List.mem_cons_of_mem _ hmem)))]
                exact Dict.get?_set_ne _ _ hne'
              · intro e he hnone
                rcases List.mem_cons.mp he with rfl | he
                · refine ⟨a, left, hget ▸ htaken, ?_⟩
                  rw [hother r (.inl hnodup.1)]
                  exact Dict.get?_set_self _ _ _
                · exact hall e he hnone
            · rintro ⟨set', hloop, hrestored, e, he, hfail⟩
              exact ⟨set', hloop, hrestored, e, List.mem_cons_of_mem _ he, hfail⟩

/-! ### One bundle -/

variable {demand : ℤ}

theorem allocateFirstFit_cases (hone : set.OneImplicit) (ids : List ResourceID)
    (hdemand : 0 ≤ demand) :
    (∃ id ∈ ids, ∃ a left set', Taken (set.get id) a left demand ∧ Allocated set set' id a ∧
      allocateFirstFit ids demand set = .ok (some (id, a), set')) ∨
    (allocateFirstFit ids demand set = .ok (none, set) ∧
      ∀ id ∈ ids, tryAllocateInstances (set.get id) demand = none) := by
  induction ids with
  | nil => exact .inr ⟨rfl, nofun⟩
  | cons id ids ih =>
    rw [allocateFirstFit]
    by_cases hhas : set.has id
    · rw [if_pos hhas]
      rcases tryAllocateOne_cases hone id hdemand with ⟨hnone, htry⟩ | ⟨a, left, set', htaken,
        htry, hallocated⟩
      · rw [htry]
        rcases ih with ⟨id', hid', h⟩ | ⟨hloop, hall⟩
        · exact .inl ⟨id', .tail _ hid', h⟩
        · exact .inr ⟨hloop, List.forall_mem_cons.mpr ⟨hnone, hall⟩⟩
      · rw [htry]
        exact .inl ⟨id, .head _, a, left, set', htaken, hallocated, rfl⟩
    · rw [if_neg hhas]
      have hempty : set.get id = [] := by simpa [has] using hhas
      rcases ih with ⟨id', hid', h⟩ | ⟨hloop, hall⟩
      · exact .inl ⟨id', .tail _ hid', h⟩
      · refine .inr ⟨hloop, List.forall_mem_cons.mpr ⟨?_, hall⟩⟩
        rw [hempty]
        rfl

/-- The bundles that a demanded resource can be allocated from. -/
def candidates (set : NodeResourceInstanceSet) (r : ResourceID) (data : PgFormattedResourceData) :
    List ResourceID :=
  if data.bundleIndex = -1 then indexedIds set.pgIndexedResources
    ⟨data.originalResource⟩ data.groupId else [r]

/-- An allocation from one bundle, for the demand for one original resource. -/
structure FromBundle (demands : ResourceSet) (original : ResourceID) (progress progress₁ : Progress)
    (w j : ResourceID)
    (a : List ℤ) : Prop where
  wildcard : ∃ dw, (w, dw) ∈ pgVector demands original ∧ dw.bundleIndex = -1 ∧
    ∃ dj, parseIndexedId j = some dj ∧ ⟨dj.originalResource⟩ = original ∧ dj.groupId = dw.groupId
  demanded : ∀ e ∈ pgVector demands original, e.1 = w ∨ e.1 = j
  granted : ∀ e ∈ pgVector demands original, grantedDemand demands e.1 = grantedDemand demands w
  taken : ∃ left, Taken (progress.set.get j) a left (grantedDemand demands w)
  allocated : Allocated progress.set progress₁.set j a
  allocations : progress₁.allocations = progress.allocations.set j a

theorem allocateGiven_wildcard {w : ResourceID} {dw : PgFormattedResourceData}
    (hw : dw.bundleIndex = -1) (rest : PgVector) (progress : Progress) (wildcardId : Option ResourceID)
    (wildcardAllocation : Option (List ℤ)) :
    allocateGiven demands ((w, dw) :: rest) progress wildcardId wildcardAllocation =
      allocateGiven demands rest progress (some w) wildcardAllocation := by
  rw [allocateGiven, if_neg (not_not.mpr hw)]

variable {j : ResourceID}
variable {dj : PgFormattedResourceData}

theorem allocateGiven_cases (hone : set.OneImplicit)
    (hdemands : demands.Nonneg) (hheld : Held set progress.set progress.allocations)
    (hj : dj.bundleIndex ≠ -1)
    (hfresh : progress.allocations.get? j = none) (rest : PgVector) (wildcardId : Option ResourceID) :
    (∃ set', allocateGiven demands ((j, dj) :: rest) progress wildcardId none = .ok (.failed set') ∧
      (∀ r, set'.get r = set.get r) ∧ tryAllocateInstances (set.get j) (demands.get j) = none) ∨
    ∃ progress₁ a left, Taken (progress.set.get j) a left (demands.get j) ∧
    Allocated progress.set progress₁.set j a ∧
      progress₁.allocations = progress.allocations.set j a ∧
      allocateGiven demands ((j, dj) :: rest) progress wildcardId none =
        allocateGiven demands rest progress₁ wildcardId (some a) := by
  rw [allocateGiven, if_pos hj]
  rcases tryAllocateOne_cases (hone.of_get hheld.length_get) j (hdemands j) with
    ⟨hnone, htry⟩ | ⟨a, left, set₁, htaken, htry, hallocated⟩
  · obtain ⟨set', hfree, hrestored⟩ := hheld.freeAll hone
    refine .inl ⟨set', ?_, hrestored, hheld.get_none j hfresh ▸ hnone⟩
    rw [htry]
    show (progress.set.freeAll progress.allocations >>= _) = _
    rw [hfree]
    rfl
  · refine .inr ⟨⟨set₁, progress.allocations.set j a⟩, a, left, htaken, hallocated, rfl, ?_⟩
    rw [htry]
    rfl

theorem allocateBundle_cases (hone : set.OneImplicit)
    (hdemands : demands.Nonneg) (hrequest : PgRequest (pgVector demands original))
    (hheld : Held set progress.set progress.allocations)
    (hfresh : ∀ id data, parsePgId id = some data → ⟨data.originalResource⟩ = original →
      progress.allocations.get? id = none) :
    (∃ set', allocateBundle demands original (pgVector demands original) progress = .ok (.failed set') ∧
      (∀ r, set'.get r = set.get r) ∧ ∃ r data, (r, data) ∈ pgVector demands original ∧
        ∀ id ∈ candidates set r data, tryAllocateInstances (set.get id) (demands.get r) = none) ∨
    ∃ progress₁ w j a, FromBundle demands original progress progress₁ w j a ∧
      allocateBundle demands original (pgVector demands original) progress =
        .ok (.allocated progress₁ (some w) (some a)) := by
  have hmem : ∀ r data, (r, data) ∈ pgVector demands original →
      parsePgId r = some data ∧ ⟨data.originalResource⟩ = original :=
        fun r data h => (mem_pgVector.mp h).2
  have hgrant : ∀ r data, (r, data) ∈ pgVector demands original → ∀ found,
      (pgVector demands original).find? (fun e => e.2.bundleIndex ≠ -1) = found →
        grantedDemand demands r = demands.get ((found.map Prod.fst).getD r) :=
    fun r data h found hfind => grantedDemand_of_find h hfind
  generalize hvector : pgVector demands original = vector at hrequest hmem hgrant ⊢
  cases hrequest with
  | @wildcard w dw hw =>
    obtain ⟨hparse, horiginal⟩ := hmem w dw (.head _)
    have hgranted : grantedDemand demands w = demands.get w :=
      hgrant w dw List.mem_cons_self none (by simp [hw])
    unfold allocateBundle
    rcases allocateFirstFit_cases (hone.of_get hheld.length_get)
      (indexedIds progress.set.pgIndexedResources original dw.groupId)
      (hdemands w) with ⟨j, hj, a, left, set₁, htaken, hallocated, hfit⟩ | ⟨hfit, hall⟩
    · obtain ⟨dj, hdj, hjoriginal, hjgroup⟩ := progress.set.indexed original dw.groupId j hj
      refine .inr ⟨⟨set₁, progress.allocations.set j a⟩, w, j, a, ?_, ?_⟩
      · refine ⟨⟨dw, ?_, hw, dj, hdj, hjoriginal, hjgroup⟩, ?_, ?_, ⟨left, hgranted ▸ htaken⟩,
          hallocated, rfl⟩
        · rw [hvector]
          exact .head _
        · rw [hvector]
          exact fun e he => .inl (by rw [List.mem_singleton.mp he])
        · rw [hvector]
          exact fun e he => by rw [List.mem_singleton.mp he]
      · simp only
        rw [hfit]
        rfl
    · obtain ⟨set', hfree, hrestored⟩ := hheld.freeAll hone
      refine .inl ⟨set', ?_, hrestored, w, dw, .head _, ?_⟩
      · simp only
        rw [hfit]
        show (progress.set.freeAll progress.allocations >>= _) = _
        rw [hfree]
        rfl
      · intro id hid
        rw [candidates, if_pos hw, horiginal] at hid
        obtain ⟨data, hdata, hidoriginal, _⟩ := set.indexed original dw.groupId id hid
        rw [← hheld.get_none id
          (hfresh id data (parsePgFormattedResource_of_indexed hdata).1 hidoriginal)]
        exact hall id (hheld.indexed original dw.groupId id hid)
  | @wildcardFirst w j dw dj hw hj hgroup =>
    have hwmem : (w, dw) ∈ [(w, dw), (j, dj)] := (.head _)
    have hjmem : (j, dj) ∈ [(w, dw), (j, dj)] := .tail _ (.head _)
    obtain ⟨hjparse, hjoriginal⟩ := hmem j dj hjmem
    have hfind : [(w, dw), (j, dj)].find? (fun e => e.2.bundleIndex ≠ -1) =
      some (j, dj) := by simp [hw, hj]
    have hwgranted : grantedDemand demands w = demands.get j := hgrant w dw hwmem _ hfind
    have hjgranted : grantedDemand demands j = demands.get j := hgrant j dj hjmem _ hfind
    have hbundle : allocateBundle demands original [(w, dw), (j, dj)] progress =
        allocateGiven demands [(j, dj)] progress (some w) none :=
          allocateGiven_wildcard hw _ progress none none
    rw [hbundle]
    rcases allocateGiven_cases hone hdemands hheld hj (hfresh j dj hjparse hjoriginal) [] (some w) with
      ⟨set', hgiven, hrestored, hnone⟩ | ⟨progress₁, a, left, htaken, hallocated, hallocations, hgiven⟩
    · refine .inl ⟨set', hgiven, hrestored, j, dj, hjmem, ?_⟩
      intro id hid
      rw [candidates, if_neg hj, List.mem_singleton] at hid
      exact hid ▸ hnone
    · refine .inr ⟨progress₁, w, j, a, ?_, hgiven⟩
      refine ⟨⟨dw, hvector ▸ hwmem, hw, dj, parsePgFormattedResource_eq_indexed hjparse hj,
        hjoriginal, hgroup⟩, ?_, ?_,
        ⟨left, hwgranted ▸ htaken⟩, hallocated, hallocations⟩
      · rw [hvector]
        simp
      · rw [hvector]
        simp [hwgranted, hjgranted]
  | @indexedFirst w j dw dj hw hj hgroup =>
    have hjmem : (j, dj) ∈ [(j, dj), (w, dw)] := (.head _)
    have hwmem : (w, dw) ∈ [(j, dj), (w, dw)] := .tail _ (.head _)
    obtain ⟨hjparse, hjoriginal⟩ := hmem j dj hjmem
    have hfind : [(j, dj), (w, dw)].find? (fun e => e.2.bundleIndex ≠ -1) = some (j, dj) := by simp [hj]
    have hwgranted : grantedDemand demands w = demands.get j := hgrant w dw hwmem _ hfind
    have hjgranted : grantedDemand demands j = demands.get j := hgrant j dj hjmem _ hfind
    have hbundle : allocateBundle demands original [(j, dj), (w, dw)] progress =
        allocateGiven demands [(j, dj), (w, dw)] progress none none := rfl
    rw [hbundle]
    rcases allocateGiven_cases hone hdemands hheld hj (hfresh j dj hjparse hjoriginal)
      [(w, dw)] none with
      ⟨set', hgiven, hrestored, hnone⟩ | ⟨progress₁, a, left, htaken, hallocated, hallocations, hgiven⟩
    · refine .inl ⟨set', hgiven, hrestored, j, dj, hjmem, ?_⟩
      intro id hid
      rw [candidates, if_neg hj, List.mem_singleton] at hid
      exact hid ▸ hnone
    · refine .inr ⟨progress₁, w, j, a, ?_, ?_⟩
      · refine ⟨⟨dw, hvector ▸ hwmem, hw, dj, parsePgFormattedResource_eq_indexed hjparse hj,
          hjoriginal, hgroup⟩, ?_, ?_,
          ⟨left, hwgranted ▸ htaken⟩, hallocated, hallocations⟩
        · rw [hvector]
          simp
        · rw [hvector]
          simp [hwgranted, hjgranted]
      · rw [hgiven, allocateGiven_wildcard hw]
        rfl

/-! ### All bundles -/

/-- Wildcard resources have at least what each of their bundles has, instance by instance. -/
def Covers (set : NodeResourceInstanceSet) (demands : ResourceSet) : Prop :=
  ∀ w ∈ demands.resourceIds, ∀ dw, parsePgId w = some dw → dw.bundleIndex = -1 →
    ∀ j dj, parseIndexedId j = some dj → dj.originalResource = dw.originalResource →
    dj.groupId = dw.groupId →
      set.get j ≠ [] →
        (set.get j).length = (set.get w).length ∧ ∀ i, amountAt (set.get j) i ≤ amountAt (set.get w) i

/-- The resources served when the ordinary ones and those of some originals are. -/
def IsServed (originals : List ResourceID) (r : ResourceID) : Prop :=
  ∀ data, parsePgId r = some data → ⟨data.originalResource⟩ ∈ originals

/-- What holds between two rounds of the loop over the resources of placement groups. -/
structure Served (set : NodeResourceInstanceSet) (demands : ResourceSet) (originals : List ResourceID)
    (progress : Progress) : Prop where
  held : Held set progress.set progress.allocations
  keys : ∀ r a, progress.allocations.get? r = some a → IsServed originals r
  granted : ∀ r ∈ demands.resourceIds, IsServed originals r →
    ∃ a, progress.allocations.get? r = some a ∧ a.sum = grantedDemand demands r
  origin : ∀ r a, progress.allocations.get? r = some a → r ∈ demands.resourceIds ∨
    ∃ w ∈ demands.resourceIds, progress.allocations.get? w = some a ∧ ∃ dw dr, parsePgId w = some dw ∧
      dw.bundleIndex = -1 ∧ parseIndexedId r = some dr ∧ dr.originalResource = dw.originalResource ∧
      dr.groupId = dw.groupId
  fits : (∀ r i, 0 ≤ amountAt (set.get r) i) → Covers set demands →
    ∀ r a, progress.allocations.get? r = some a →
    ∀ i, amountAt a i ≤ amountAt (set.get r) i

theorem Taken.le {available allocation left : List ℤ} (h : Taken available allocation left demand)
    (hnonneg : ∀ i, 0 ≤ amountAt available i) (i : ℕ) :
    amountAt allocation i ≤ amountAt available i := by
  have hleft := h.left_nonneg hnonneg i
  have hconserved := h.conserved i
  omega

theorem served_of_ordinary (hheld : Held set progress.set progress.allocations)
    (hother : ∀ r, (r ∉ demands.resourceIds ∨ parsePgId r ≠ none) → progress.allocations.get? r = none)
    (hall : ∀ e ∈ demands.entries.entries, parsePgId e.1 = none →
      ∃ a left, Taken (set.get e.1) a left e.2 ∧ progress.allocations.get? e.1 = some a) :
    Served set demands [] progress := by
  have hentry : ∀ r ∈ demands.resourceIds, (r, demands.get r) ∈ demands.entries.entries := by
    intro r hr
    exact DefaultMap.mem_entries_iff.mpr ⟨rfl, DefaultMap.mem_keys_iff.mp hr⟩
  have hkey : ∀ r a, progress.allocations.get? r = some a → r ∈ demands.resourceIds ∧
    parsePgId r = none := by
    intro r a ha
    by_contra hnot
    rw [not_and_or] at hnot
    rw [hother r hnot] at ha
    cases ha
  refine ⟨hheld, ?_, ?_, fun r a ha => .inl (hkey r a ha).1, ?_⟩
  · intro r a ha data hdata
    rw [(hkey r a ha).2] at hdata
    cases hdata
  · intro r hr hserved
    have hnone : parsePgId r = none := by
      cases hparse : parsePgId r with
      | none => rfl
      | some data => exact absurd (hserved data hparse) List.not_mem_nil
    obtain ⟨a, left, htaken, ha⟩ := hall _ (hentry r hr) hnone
    refine ⟨a, ha, ?_⟩
    rw [htaken.sum]
    unfold grantedDemand
    rw [hnone]
  · intro hnonneg _ r a ha i
    obtain ⟨hr, hnone⟩ := hkey r a ha
    obtain ⟨a', left, htaken, ha'⟩ := hall _ (hentry r hr) hnone
    rw [ha, Option.some.injEq] at ha'
    exact ha' ▸ htaken.le (hnonneg r) i

theorem parsePgId_of_indexed (h : parseIndexedId j = some dj) :
    parsePgId j = some dj ∧ dj.bundleIndex ≠ -1 := parsePgFormattedResource_of_indexed h

variable {originals : List ResourceID}

/-- The resources of an original that is not yet served have no allocation. -/
theorem Served.fresh (h : Served set demands originals progress) (hnot : original ∉ originals)
    (r : ResourceID) (data : PgFormattedResourceData) (hparse : parsePgId r = some data)
    (horiginal : ⟨data.originalResource⟩ = original) : progress.allocations.get? r = none := by
  cases ha : progress.allocations.get? r with
  | none => rfl
  | some a => exact absurd (horiginal ▸ h.keys r a ha data hparse) hnot

/-- After the bundle the wildcard resource follows, and the original is served. -/
theorem FromBundle.served (hone : set.OneImplicit)
    {progress₁ : Progress} (hserved : Served set demands originals progress)
    (hnot : original ∉ originals) {w : ResourceID} {a : List ℤ}
    (h : FromBundle demands original progress progress₁ w j a) {set' : NodeResourceInstanceSet}
    (hset' : progress₁.set.allocateWithReference a w = .ok set') :
    Served set demands (original :: originals) ⟨set', progress₁.allocations.set w a⟩ := by
  obtain ⟨dw, hwmem, hw, dj, hdj, hjoriginal, hjgroup⟩ := h.wildcard
  obtain ⟨hwdemanded, hwparse, hworiginal⟩ := mem_pgVector.mp hwmem
  obtain ⟨hjparse, hj⟩ := parsePgId_of_indexed hdj
  obtain ⟨left, htaken⟩ := h.taken
  have hsame : dj.originalResource = dw.originalResource :=
    ResourceID.mk.inj (hjoriginal.trans hworiginal.symm)
  have hwj : w ≠ j := by
    rintro rfl
    rw [hwparse, Option.some.injEq] at hjparse
    exact hj (hjparse ▸ hw)
  have hjfresh := hserved.fresh hnot j dj hjparse hjoriginal
  have hheld₁ : Held set progress₁.set progress₁.allocations := by
    rw [h.allocations]
    exact hserved.held.allocated hjfresh h.allocated
  have hwfresh : progress₁.allocations.get? w = none := by
    rw [h.allocations, Dict.get?_set_ne _ _ hwj]
    exact hserved.fresh hnot w dw hwparse hworiginal
  have hwith : Allocated progress₁.set set' w a :=
    allocated_of_allocateWithReference (hone.of_get hheld₁.length_get) h.allocated.nonneg hset'
  have hget : ∀ r, (progress₁.allocations.set w a).get? r =
      if r = w ∨ r = j then some a else progress.allocations.get? r := by
    intro r
    rw [Dict.get?_set, h.allocations, Dict.get?_set]
    by_cases hrw : r = w
    · simp [hrw]
    · by_cases hrj : r = j
      · simp [hrj]
      · simp [hrw, hrj]
  have hmono : ∀ r, IsServed originals r → IsServed (original :: originals) r :=
    fun r hr data hdata => .tail _ (hr data hdata)
  refine ⟨hheld₁.allocated hwfresh hwith, ?_, ?_, ?_, ?_⟩
  · intro r b hb data hdata
    rw [hget] at hb
    split_ifs at hb with hr
    · rcases hr with rfl | rfl
      · rw [hwparse, Option.some.injEq] at hdata
        rw [← hdata, hworiginal]
        exact .head _
      · rw [hjparse, Option.some.injEq] at hdata
        rw [← hdata, hjoriginal]
        exact .head _
    · exact hmono r (hserved.keys r b hb) data hdata
  · intro r hr hrserved
    by_cases hmem : ∃ data, (r, data) ∈ pgVector demands original
    · obtain ⟨data, hmem⟩ := hmem
      refine ⟨a, ?_, ?_⟩
      · rw [hget, if_pos (h.demanded _ hmem)]
      · rw [htaken.sum]
        exact (h.granted _ hmem).symm
    · have hrserved' : IsServed originals r := by
        intro data hdata
        refine (List.mem_cons.mp (hrserved data hdata)).resolve_left (fun horiginal => hmem ⟨data, ?_⟩)
        exact mem_pgVector.mpr ⟨hr, hdata, horiginal⟩
      obtain ⟨b, hb, hsum⟩ := hserved.granted r hr hrserved'
      refine ⟨b, ?_, hsum⟩
      rw [hget, if_neg]
      · exact hb
      · rintro (rfl | rfl)
        · exact hmem ⟨dw, hwmem⟩
        · rw [hjfresh] at hb
          cases hb
  · intro r b hb
    rw [hget] at hb
    split_ifs at hb with hr
    · cases hb
      rcases hr with rfl | rfl
      · exact .inl hwdemanded
      · refine .inr ⟨w, hwdemanded, ?_, dw, dj, hwparse, hw, hdj, hsame, hjgroup⟩
        rw [hget, if_pos (.inl rfl)]
    · refine (hserved.origin r b hb).imp_right ?_
      rintro ⟨w', hw', hb', h'⟩
      refine ⟨w', hw', ?_, h'⟩
      rw [hget, if_neg]
      · exact hb'
      · rintro (rfl | rfl)
        · rw [hserved.fresh hnot w' dw hwparse hworiginal] at hb'
          cases hb'
        · rw [hjfresh] at hb'
          cases hb'
  · intro hnonneg hcovers r b hb i
    rw [hget] at hb
    split_ifs at hb with hr
    · cases hb
      have hgetj := hserved.held.get_none j hjfresh
      have hle : amountAt a i ≤ amountAt (set.get j) i := by
        rw [← hgetj]
        exact htaken.le (fun i => hgetj ▸ hnonneg j i) i
      rcases hr with rfl | rfl
      · have hpresent : set.get j ≠ [] := hgetj ▸ h.allocated.present
        exact hle.trans ((hcovers r hwdemanded dw hwparse hw j dj hdj hsame hjgroup hpresent).2 i)
      · exact hle
    · exact hserved.fits hnonneg hcovers r b hb i

/-- One of the demanded resources of placement groups can be allocated from none of its bundles. -/
def NoBundle (set : NodeResourceInstanceSet) (demands : ResourceSet) : Prop :=
  ∃ r ∈ demands.resourceIds, ∃ data, parsePgId r = some data ∧
    ∀ id ∈ candidates set r data, tryAllocateInstances (set.get id) (demands.get r) = none

/-- One round of the loop: no bundle has room and all is freed, or the original is served; a check
fails only when a wildcard resource has less than one of its bundles. -/
theorem allocatePg_cases (hone : set.OneImplicit)
    (hdemands : demands.Nonneg) (hrequest : PgRequest (pgVector demands original))
     (hserved : Served set demands originals progress) (hnot : original ∉ originals) :
    (∃ set', allocatePg demands original (pgVector demands original) progress = .ok (.failed set') ∧
      (∀ r, set'.get r = set.get r) ∧ NoBundle set demands) ∨
    (∃ progress', allocatePg demands original (pgVector demands original) progress =
      .ok (.allocated progress') ∧
      Served set demands (original :: originals) progress') ∨
    (∃ e, allocatePg demands original (pgVector demands original) progress = .error e ∧
      ¬ (set.Nonneg ∧ Covers set demands)) := by
  unfold allocatePg
  rcases allocateBundle_cases hone hdemands hrequest hserved.held (hserved.fresh hnot) with
    ⟨set', hbundle, hrestored, r, data, hmem, hnone⟩ | ⟨progress₁, w, j, a, h, hbundle⟩
  · obtain ⟨hr, hparse, _⟩ := mem_pgVector.mp hmem
    refine .inl ⟨set', ?_, hrestored, r, hr, data, hparse, hnone⟩
    rw [hbundle]
    rfl
  · obtain ⟨dw, hwmem, hw, dj, hdj, hjoriginal, hjgroup⟩ := h.wildcard
    obtain ⟨hwdemanded, hwparse, hworiginal⟩ := mem_pgVector.mp hwmem
    obtain ⟨hjparse, hj⟩ := parsePgId_of_indexed hdj
    obtain ⟨left, htaken⟩ := h.taken
    have hgetj := hserved.held.get_none j (hserved.fresh hnot j dj hjparse hjoriginal)
    have hgetw := hserved.held.get_none w (hserved.fresh hnot w dw hwparse hworiginal)
    have hne : a ≠ [] := by
      rw [← List.length_pos_iff, h.allocated.length]
      exact List.length_pos_iff.mpr h.allocated.present
    have hfollow : allocatePg demands original (pgVector demands original) progress =
        (progress₁.set.allocateWithReference a w >>= fun set =>
          .ok (.allocated ⟨set, progress₁.allocations.set w a⟩)) := by
      unfold allocatePg
      rw [hbundle]
      show (rayCheck (decide (a ≠ [])) "!(*wildcard_allocation).empty()" >>= fun _ => _) = _
      rw [decide_eq_true hne]
      rfl
    unfold allocatePg at hfollow
    rw [hfollow]
    cases hwith : progress₁.set.allocateWithReference a w with
    | ok set' => exact .inr (.inl ⟨_, rfl, h.served hone hserved hnot hwith⟩)
    | error e =>
      refine .inr (.inr ⟨e, rfl, ?_⟩)
      rintro ⟨hnonneg, hcovers⟩
      have hwj : w ≠ j := by
        rintro rfl
        rw [hwparse, Option.some.injEq] at hjparse
        exact hj (hjparse ▸ hw)
      have hget : progress₁.set.get w = set.get w := by rw [h.allocated.get w, if_neg hwj, hgetw]
      have hpresent : set.get j ≠ [] := hgetj ▸ h.allocated.present
      obtain ⟨hlength, hle⟩ := hcovers w hwdemanded dw hwparse hw j dj hdj
        (ResourceID.mk.inj (hjoriginal.trans hworiginal.symm)) hjgroup hpresent
      have hlength' : (progress₁.set.get w).length = a.length := by
        rw [hget, ← hlength, h.allocated.length, hgetj]
      obtain ⟨set', hok⟩ : ∃ set', progress₁.set.allocateWithReference a w = .ok set' := by
        apply allocateWithReference_eq_ok
        · rw [← List.length_pos_iff, hlength']
          exact List.length_pos_iff.mpr hne
        · exact hlength'
        · intro i
          rw [hget]
          have hfit := htaken.le (fun i => hgetj ▸ hnonneg j i) i
          rw [hgetj] at hfit
          exact hfit.trans (hle i)
      rw [hok] at hwith
      cases hwith

theorem allocatePgs_cases (hone : set.OneImplicit)
    (hdemands : demands.Nonneg) {l : List (ResourceID × PgVector)}
    (hl : ∀ e ∈ l, e.2 = pgVector demands e.1 ∧ PgRequest e.2)
    (hnodup : (l.map Prod.fst).Nodup) (hnot : ∀ e ∈ l, e.1 ∉ originals)
    (hserved : Served set demands originals progress) :
    (∃ set', allocatePgs demands l progress = .ok (.failed set') ∧ (∀ r, set'.get r = set.get r) ∧
      NoBundle set demands) ∨
    (∃ progress' originals', allocatePgs demands l progress = .ok (.allocated progress') ∧
      Served set demands originals' progress' ∧ ∀ o, (o ∈ l.map Prod.fst ∨ o ∈ originals) →
      o ∈ originals') ∨
    (∃ e, allocatePgs demands l progress = .error e ∧ ¬ (set.Nonneg ∧ Covers set demands)) := by
  induction l generalizing originals progress with
  | nil => exact .inr (.inl
      ⟨progress, originals, rfl, hserved, fun o ho => ho.resolve_left List.not_mem_nil⟩)
  | cons e l ih =>
    obtain ⟨original, vector⟩ := e
    rw [List.map_cons, List.nodup_cons] at hnodup
    obtain ⟨hvector, hrequest⟩ := hl (original, vector) (.head _)
    have hvector : vector = pgVector demands original := hvector
    subst hvector
    rw [allocatePgs]
    rcases allocatePg_cases hone hdemands hrequest hserved (hnot _ (.head _)) with
      ⟨set', hround, hrestored, hnone⟩ | ⟨progress', hround, hserved'⟩ | ⟨e, hround, hcheck⟩
    · exact .inl ⟨set', by rw [hround]; rfl, hrestored, hnone⟩
    · have hnot' : ∀ e ∈ l, e.1 ∉ original :: originals := by
        intro e he hmem
        rcases List.mem_cons.mp hmem with heq | hmem
        · have hin : e.1 ∈ l.map Prod.fst := List.mem_map_of_mem he
          exact hnodup.1 (heq ▸ hin)
        · exact hnot e (.tail _ he) hmem
      rw [hround]
      rcases ih (fun e he => hl e (.tail _ he)) hnodup.2 hnot' hserved' with
        hfailed | ⟨progress'', originals', hloop, hserved'', hall⟩ | herror
      · exact .inl hfailed
      · refine .inr (.inl ⟨progress'', originals', hloop, hserved'', ?_⟩)
        intro o ho
        apply hall
        rw [List.map_cons, List.mem_cons] at ho
        rw [List.mem_cons]
        tauto
      · exact .inr (.inr herror)
    · exact .inr (.inr ⟨e, by rw [hround]; rfl, hcheck⟩)

/-! ### The whole request -/

/-- One of the demanded ordinary resources cannot be allocated. -/
def NoOrdinary (set : NodeResourceInstanceSet) (demands : ResourceSet) : Prop :=
  ∃ r ∈ demands.resourceIds, parsePgId r = none ∧
  tryAllocateInstances (set.get r) (demands.get r) = none

/-- A call gives nothing and leaves the set as it was, or serves all that is demanded; a check fails
only when an availability is negative or a wildcard resource has less than one of its bundles. -/
theorem tryAllocate_cases (hone : set.OneImplicit)
    (hdemands : demands.Nonneg) (hrequests : PgRequests demands) :
    (∃ set', set.tryAllocate demands = .ok (none, set') ∧ (∀ r, set'.get r = set.get r) ∧
      (NoOrdinary set demands ∨ NoBundle set demands)) ∨
    (∃ progress originals, set.tryAllocate demands = .ok (some progress.allocations, progress.set) ∧
      Served set demands originals progress ∧ ∀ r ∈ demands.resourceIds, IsServed originals r) ∨
    (∃ e, set.tryAllocate demands = .error e ∧ ¬ (set.Nonneg ∧ Covers set demands)) := by
  have hentry : ∀ e ∈ demands.entries.entries, e.2 = demands.get e.1 ∧ e.1 ∈ demands.resourceIds := by
    intro e he
    obtain ⟨hget, hne⟩ := DefaultMap.mem_entries_iff.mp he
    exact ⟨hget.symm, List.mem_map_of_mem he⟩
  unfold tryAllocate
  rcases allocateOrdinary_cases hone demands.entries.entries ⟨set, .empty⟩ (held_empty set)
    (fun e he => (hentry e he).1 ▸ hdemands e.1) demands.entries.nodup (fun _ _ => rfl) with
    ⟨progress, hordinary, hheld, hother, hall⟩ | ⟨set', hordinary, hrestored, e, he, hparse, hnone⟩
  · have hserved : Served set demands [] progress := served_of_ordinary hheld hother hall
    have hl : ∀ e ∈ (pgResourceMap demands).entries, e.2 = pgVector demands e.1 ∧ PgRequest e.2 :=
      fun e he => ⟨eq_pgVector_of_mem he, hrequests e he⟩
    rw [hordinary]
    rcases allocatePgs_cases hone hdemands hl (pgResourceMap demands).nodup
      (fun _ _ => List.not_mem_nil) hserved with
      ⟨set', hloop, hrestored, hnone⟩ | ⟨progress', originals, hloop, hserved', hkeys⟩ | ⟨e,
        hloop, hcheck⟩
    · refine .inl ⟨set', ?_, hrestored, .inr hnone⟩
      show (allocatePgs demands (pgResourceMap demands).entries progress >>= _) = _
      rw [hloop]
      rfl
    · refine .inr (.inl ⟨progress', originals, ?_, hserved', ?_⟩)
      · show (allocatePgs demands (pgResourceMap demands).entries progress >>= _) = _
        rw [hloop]
        rfl
      · exact fun r hr data hdata => hkeys _ (.inl (mem_keys_pgResourceMap hr hdata))
    · refine .inr (.inr ⟨e, ?_, hcheck⟩)
      show (allocatePgs demands (pgResourceMap demands).entries progress >>= _) = _
      rw [hloop]
      rfl
  · refine .inl ⟨set', ?_, hrestored, .inl ⟨e.1, (hentry e he).2, hparse, ?_⟩⟩
    · rw [hordinary]
      rfl
    · rw [← (hentry e he).1]
      exact hnone

/-- No choice of instances has room for a demand. -/
def NoChoice (available : List ℤ) (demand : ℤ) : Prop :=
  ¬ HasChoice available demand ∧ ∀ single, available = [single] → single < demand

theorem noChoice_of_eq_none {available : List ℤ} (hdemand : 0 < demand)
    (h : tryAllocateInstances available demand = none) : NoChoice available demand := by
  refine ⟨not_hasChoice_of_eq_none hdemand h, ?_⟩
  rintro single rfl
  rw [tryAllocateInstances_single] at h
  split_ifs at h with hle
  exact not_le.mp hle

theorem pos_of_mem_resourceIds (hdemands : demands.Nonneg)
    (hr : r ∈ demands.resourceIds) : 0 < demands.get r :=
  lt_of_le_of_ne (hdemands r) (Ne.symm (DefaultMap.mem_keys_iff.mp hr))

/-- What a call does with a demand.  It gives nothing, the set is the same, and an ordinary resource
or all bundles of a resource of a placement group have no room.  Or it gives each demanded resource
what it is granted; then no availability is negative, each instance has lost what was given of it,
and freeing what was given makes the set the same again. -/
def AllOrNothing (set : NodeResourceInstanceSet) (demands : ResourceSet) : Prop :=
  (∃ set', set.tryAllocate demands = .ok (none, set') ∧ set'.Same set ∧
    ((∃ r ∈ demands.resourceIds, parsePgId r = none ∧ NoChoice (set.get r) (demands.get r)) ∨
      ∃ r ∈ demands.resourceIds, ∃ data, parsePgId r = some data ∧
        ∀ id ∈ candidates set r data, NoChoice (set.get id) (demands.get r))) ∨
  (∃ allocations set', set.tryAllocate demands = .ok (some allocations, set') ∧
    (∀ r ∈ demands.resourceIds, ∃ a, allocations.get? r = some a ∧ a.sum = grantedDemand demands r) ∧
    set'.Nonneg ∧
    (∀ r, (set'.get r).length = (set.get r).length ∧
      ∀ i, amountAt (set'.get r) i + amountAt ((allocations.get? r).getD []) i = amountAt
        (set.get r) i) ∧
    ∃ set'', set'.freeAll allocations = .ok set'' ∧ set''.Same set)

/-- Allocation is all or nothing and undone by `Free`. -/
theorem tryAllocate_allOrNothing {set : NodeResourceInstanceSet} {demands : ResourceSet}
    (hone : set.OneImplicit)
    (hset : set.Nonneg) (hdemands : demands.Nonneg) (hrequests : PgRequests demands)
    (hcovers : Covers set demands) :
    AllOrNothing set demands := by
  rcases tryAllocate_cases hone hdemands hrequests with
    ⟨set', hcall, hrestored, hreason⟩ | ⟨progress, originals, hcall, hserved, hall⟩ | ⟨e, _, hcheck⟩
  · refine .inl ⟨set', hcall, same_of_get hrestored, hreason.imp ?_ ?_⟩
    · rintro ⟨r, hr, hparse, hnone⟩
      exact ⟨r, hr, hparse, noChoice_of_eq_none (pos_of_mem_resourceIds hdemands hr) hnone⟩
    · rintro ⟨r, hr, data, hparse, hnone⟩
      exact ⟨r, hr, data, hparse,
        fun id hid => noChoice_of_eq_none (pos_of_mem_resourceIds hdemands hr) (hnone id hid)⟩
  · obtain ⟨set'', hfree, hrestored⟩ := hserved.held.freeAll hone
    refine .inr ⟨progress.allocations, progress.set, hcall, fun r hr => hserved.granted r hr
      (hall r hr), ?_,
      fun r => ⟨hserved.held.length_get r, hserved.held.conserved r⟩, set'', hfree,
      same_of_get hrestored⟩
    intro r i
    have hconserved := hserved.held.conserved r i
    cases hr : progress.allocations.get? r with
    | some a =>
      have hfits := hserved.fits hset hcovers r a hr i
      rw [hr, Option.getD_some] at hconserved
      omega
    | none =>
      rw [hserved.held.get_none r hr]
      exact hset r i
  · exact absurd ⟨hset, hcovers⟩ hcheck

/-- A node with one bundle of two CPUs. -/
def bundleOfTwo : NodeResourceInstanceSet :=
  (empty.store ⟨"CPU_group_abc"⟩ [20000] (List.cons_ne_nil _ _)).store ⟨"CPU_group_0_abc"⟩ [20000]
  (List.cons_ne_nil _ _)

/-- One CPU of the bundle, together with two CPUs of the group. -/
def demandOfBundle : ResourceSet :=
  (DefaultMap.empty.set ⟨"CPU_group_abc"⟩ 20000).set ⟨"CPU_group_0_abc"⟩ 10000

theorem amountAt_twoCpus (i : ℕ) : 0 ≤ amountAt [20000] i := by
  cases i with
  | zero => decide
  | succ i => exact le_refl 0

theorem get_bundleOfTwo (r : ResourceID) : bundleOfTwo.get r =
    if r = ⟨"CPU_group_0_abc"⟩ then [20000] else if r = ⟨"CPU_group_abc"⟩ then [20000]
    else empty.get r := by
  unfold bundleOfTwo
  rw [get_of_set (set_eq_ok _) (fun _ => rfl), get_of_set (set_eq_ok _) (fun _ => rfl)]

theorem oneImplicit_bundleOfTwo : bundleOfTwo.OneImplicit :=
  (oneImplicit_empty.store _ (fun _ => rfl)).store _ (fun _ => rfl)

theorem nonneg_bundleOfTwo : bundleOfTwo.Nonneg :=
  (nonneg_empty.store _ (fun _ => rfl) amountAt_twoCpus).store _ (fun _ => rfl) amountAt_twoCpus

theorem nonneg_demandOfBundle : demandOfBundle.Nonneg := by
  intro r
  unfold demandOfBundle
  rw [DefaultMap.get_set, DefaultMap.get_set]
  split_ifs
  · decide
  · decide
  · exact le_refl 0

theorem pgRequests_demandOfBundle : PgRequests demandOfBundle := by
  have hentries : (pgResourceMap demandOfBundle).entries =
      [(⟨"CPU"⟩, [(⟨"CPU_group_abc"⟩, ⟨"CPU", -1, "abc"⟩),
        (⟨"CPU_group_0_abc"⟩, ⟨"CPU", 0, "abc"⟩)])] := by decide
  intro e he
  rw [hentries, List.mem_singleton] at he
  rw [he]
  exact .wildcardFirst rfl (by decide) rfl

theorem covers_bundleOfTwo : Covers bundleOfTwo demandOfBundle := by
  have hids : demandOfBundle.resourceIds = [⟨"CPU_group_abc"⟩, ⟨"CPU_group_0_abc"⟩] := by decide
  intro w hw dw hwparse hwindex j dj hj horiginal _ hpresent
  rw [hids] at hw
  obtain rfl : w = ⟨"CPU_group_abc"⟩ := by
    rcases List.mem_cons.mp hw with rfl | hw
    · rfl
    · obtain rfl := List.mem_singleton.mp hw
      have hindexed : parsePgId ⟨"CPU_group_0_abc"⟩ = some ⟨"CPU", 0, "abc"⟩ := by decide
      rw [hindexed, Option.some.injEq] at hwparse
      rw [← hwparse] at hwindex
      cases hwindex
  have hwild : parsePgId ⟨"CPU_group_abc"⟩ = some ⟨"CPU", -1, "abc"⟩ := by decide
  rw [hwild, Option.some.injEq] at hwparse
  rw [← hwparse] at horiginal
  have hwget : bundleOfTwo.get ⟨"CPU_group_abc"⟩ = [20000] := by decide
  rw [hwget, get_bundleOfTwo j]
  rw [get_bundleOfTwo j] at hpresent
  split_ifs at hpresent ⊢
  · exact ⟨rfl, fun _ => le_refl _⟩
  · exact ⟨rfl, fun _ => le_refl _⟩
  · -- an implicit resource has another original
    exfalso
    apply hpresent
    show (if j.isImplicitResource then [kResourceUnitScaling] else []) = []
    rw [if_neg]
    obtain ⟨original, digits, groupId, hdj, _, _, hname, _⟩ := parseIndexed_eq_some hj
    have hletters : original = "CPU".toList := by
      rw [hdj] at horiginal
      exact String.ofList_injective (horiginal.trans (by decide))
    unfold ResourceID.isImplicitResource
    rw [hname, hletters]
    simp [ResourceID.kImplicitResourcePrefix]

theorem tryAllocate_allOrNothing_bundleOfTwo : AllOrNothing bundleOfTwo demandOfBundle :=
  tryAllocate_allOrNothing oneImplicit_bundleOfTwo nonneg_bundleOfTwo nonneg_demandOfBundle
    pgRequests_demandOfBundle
    covers_bundleOfTwo

/-- A wildcard resource is not given what is demanded of it, when less is demanded of the bundle. -/
theorem tryAllocate_wildcard_short : bundleOfTwo.OneImplicit ∧ bundleOfTwo.Nonneg ∧ demandOfBundle.Nonneg ∧
    PgRequests demandOfBundle ∧ Covers bundleOfTwo demandOfBundle ∧
    ∃ allocations set', bundleOfTwo.tryAllocate demandOfBundle = .ok (some allocations, set') ∧
      ¬ ∀ r ∈ demandOfBundle.resourceIds, ∃ a, allocations.get? r = some a ∧ a.sum = demandOfBundle.get r := by
  refine ⟨oneImplicit_bundleOfTwo, nonneg_bundleOfTwo, nonneg_demandOfBundle, pgRequests_demandOfBundle,
    covers_bundleOfTwo, ?_⟩
  refine ⟨_, _, rfl, ?_⟩
  intro h
  obtain ⟨a, ha, hsum⟩ := h ⟨"CPU_group_abc"⟩ (by decide)
  revert a
  decide

end RayTfm.Raylet
