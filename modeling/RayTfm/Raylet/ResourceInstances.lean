import RayTfm.Raylet.InstanceVectors
import RayTfm.Raylet.PgResources

/-! # The instances of the resources of a node

A `NodeResourceInstanceSet` stores the instances of each resource, except that an implicit resource
whose first instance is whole is not stored: it is there without an entry.  An allocation of one
resource takes from its instances (`tryAllocateOne`), and `free` puts an allocation back. -/

namespace RayTfm.Raylet

/-- The indexed resources of the node's bundles, by original resource and group. -/
abbrev PgIndexedResources := Dict ResourceID (Dict String (List ResourceID))

/-- The indexed resources of a group for one original resource. -/
def indexedIds (pg : PgIndexedResources) (original : ResourceID) (groupId : String) : List ResourceID :=
  ((pg.get? original).bind (fun groups => groups.get? groupId)).getD []

/-- An entry of the set of indexed resources. -/
def insertIndexed (pg : PgIndexedResources) (data : PgFormattedResourceData) (resourceId : ResourceID) :
    PgIndexedResources :=
  let groups := (pg.get? ⟨data.originalResource⟩).getD .empty
  let ids := (groups.get? data.groupId).getD []
  pg.set ⟨data.originalResource⟩
    (groups.set data.groupId (if resourceId ∈ ids then ids else ids ++ [resourceId]))

/-- Taking an entry out; a group without entries goes, and so does an original resource without
groups. -/
def removeIndexed (pg : PgIndexedResources) (data : PgFormattedResourceData) (resourceId : ResourceID) :
    PgIndexedResources :=
  match pg.get? ⟨data.originalResource⟩ with
  | none => pg
  | some groups =>
    match groups.get? data.groupId with
    | none => pg
    | some ids =>
      let ids := ids.filter (fun id => id ≠ resourceId)
      let groups := if ids = [] then groups.erase data.groupId else groups.set data.groupId ids
      if groups.entries = [] then pg.erase ⟨data.originalResource⟩
      else pg.set ⟨data.originalResource⟩ groups

/-- What an indexed name says about its bundle. -/
def parseIndexedId (resourceId : ResourceID) : Option PgFormattedResourceData :=
  parsePgFormattedResource resourceId.binary false true

/-- What a name says about its placement group. -/
def parsePgId (resourceId : ResourceID) : Option PgFormattedResourceData :=
  parsePgFormattedResource resourceId.binary true true

/-- The indexed resources stand under their original resource and group. -/
def IndexedById (pg : PgIndexedResources) : Prop :=
  ∀ original groupId, ∀ id ∈ indexedIds pg original groupId,
    ∃ data, parseIndexedId id = some data ∧ ⟨data.originalResource⟩ = original ∧ data.groupId = groupId

variable {pg : PgIndexedResources} {data : PgFormattedResourceData}
  {resourceId original : ResourceID}

theorem mem_indexedIds_insert {id : ResourceID} {groupId : String} :
    id ∈ indexedIds (insertIndexed pg data resourceId) original groupId ↔
      (id = resourceId ∧ ⟨data.originalResource⟩ = original ∧ data.groupId = groupId) ∨
        id ∈ indexedIds pg original groupId := by
  unfold indexedIds insertIndexed
  rw [Dict.get?_set]
  by_cases horiginal : original = ⟨data.originalResource⟩
  · subst horiginal
    rw [if_pos rfl, Option.bind_some, Dict.get?_set]
    by_cases hgroup : groupId = data.groupId
    · subst hgroup
      rw [if_pos rfl, Option.getD_some]
      cases hgroups : pg.get? ⟨data.originalResource⟩ with
      | none =>
        simp
      | some groups =>
        split_ifs with hmem
        · constructor
          · exact .inr
          · rintro (⟨rfl, -, -⟩ | h)
            · exact hmem
            · exact h
        · rw [List.mem_append, List.mem_singleton]
          tauto
    · rw [if_neg hgroup]
      cases hgroups : pg.get? ⟨data.originalResource⟩ with
      | none => simp [Ne.symm hgroup]
      | some groups => simp [Ne.symm hgroup]
  · rw [if_neg horiginal]
    simp [Ne.symm horiginal]

theorem mem_indexedIds_remove {id : ResourceID}
    {groupId : String} (h : id ∈ indexedIds (removeIndexed pg data resourceId) original groupId) :
    id ∈ indexedIds pg original groupId := by
  unfold removeIndexed at h
  cases hgroups : pg.get? ⟨data.originalResource⟩ with
  | none =>
    rw [hgroups] at h
    exact h
  | some groups =>
    rw [hgroups] at h
    simp only at h
    cases hids : groups.get? data.groupId with
    | none =>
      rw [hids] at h
      exact h
    | some ids =>
      rw [hids] at h
      dsimp only at h
      set kept := ids.filter (fun id => id ≠ resourceId)
      set left := if kept = [] then groups.erase data.groupId
        else groups.set data.groupId kept with hleft
      have hleftmem : ∀ groupId, id ∈ (left.get? groupId).getD [] →
        id ∈ (groups.get? groupId).getD [] := by
        intro groupId hid
        rw [hleft] at hid
        by_cases hgroup : groupId = data.groupId
        · rw [hgroup, hids]
          split_ifs at hid
          · rw [hgroup, Dict.get?_erase, if_pos rfl] at hid
            cases hid
          · rw [hgroup, Dict.get?_set_self] at hid
            exact (List.mem_filter.mp hid).1
        · split_ifs at hid
          · rwa [Dict.get?_erase, if_neg hgroup] at hid
          · rwa [Dict.get?_set_ne _ _ hgroup] at hid
      unfold indexedIds at h ⊢
      by_cases horiginal : original = ⟨data.originalResource⟩
      · rw [horiginal, hgroups, Option.bind_some]
        split_ifs at h
        · rw [horiginal, Dict.get?_erase, if_pos rfl] at h
          cases h
        · rw [horiginal, Dict.get?_set_self, Option.bind_some] at h
          exact hleftmem groupId h
      · split_ifs at h
        · rwa [Dict.get?_erase, if_neg horiginal] at h
        · rwa [Dict.get?_set_ne _ _ horiginal] at h

/-- The instances of a node's resources.  What is stored is not empty, an implicit resource is
stored only when its first instance is not whole, and the indexed resources stand where their names
say. -/
structure NodeResourceInstanceSet where
  resources : Dict ResourceID (List ℤ)
  pgIndexedResources : PgIndexedResources
  nonempty : ∀ r instances, resources.get? r = some instances → instances ≠ []
  implicit : ∀ r instances, resources.get? r = some instances → r.isImplicitResource →
    instances.head? ≠ some kResourceUnitScaling
  indexed : IndexedById pgIndexedResources

namespace NodeResourceInstanceSet

/-- The set without resources. -/
def empty : NodeResourceInstanceSet := ⟨.empty, .empty, nofun, nofun, nofun⟩

/-- `NodeResourceInstanceSet::operator==`: the stored resources are the same. -/
def Same (set other : NodeResourceInstanceSet) : Prop :=
  ∀ r, set.resources.get? r = other.resources.get? r

/-- `NodeResourceInstanceSet::Get`. -/
def get (set : NodeResourceInstanceSet) (resourceId : ResourceID) : List ℤ :=
  match set.resources.get? resourceId with
  | some instances => instances
  | none => if resourceId.isImplicitResource then [kResourceUnitScaling] else []

/-- `NodeResourceInstanceSet::Has`. -/
def has (set : NodeResourceInstanceSet) (resourceId : ResourceID) : Bool := set.get resourceId ≠ []

/-- Whether the instances are what an implicit resource has without an entry. -/
def isDefault (resourceId : ResourceID) (instances : List ℤ) : Bool :=
  resourceId.isImplicitResource ∧ instances.head? = some kResourceUnitScaling

/-- What `Set` leaves of the indexed resources. -/
def indexedAfterSet (pg : PgIndexedResources) (resourceId : ResourceID) : PgIndexedResources :=
  match parseIndexedId resourceId with
  | some data => insertIndexed pg data resourceId
  | none => pg

theorem indexedById_indexedAfterSet {pg : PgIndexedResources} (h : IndexedById pg)
    (resourceId : ResourceID) :
    IndexedById (indexedAfterSet pg resourceId) := by
  unfold indexedAfterSet
  cases hparse : parseIndexedId resourceId with
  | none => exact h
  | some data =>
    intro original groupId id hid
    rcases mem_indexedIds_insert.mp hid with ⟨rfl, horiginal, hgroup⟩ | hid
    · exact ⟨data, hparse, horiginal, hgroup⟩
    · exact h original groupId id hid

/-- `NodeResourceInstanceSet::Set`, of instances that are checked to be there. -/
def store (set : NodeResourceInstanceSet) (resourceId : ResourceID) (instances : List ℤ)
    (hne : instances ≠ []) :
    NodeResourceInstanceSet :=
  if hdefault : isDefault resourceId instances then
    { set with
      resources := set.resources.erase resourceId
      nonempty := by
        intro r v h
        rw [Dict.get?_erase] at h
        split_ifs at h
        exact set.nonempty r v h
      implicit := by
        intro r v h
        rw [Dict.get?_erase] at h
        split_ifs at h
        exact set.implicit r v h }
  else
    { resources := set.resources.set resourceId instances
      pgIndexedResources := indexedAfterSet set.pgIndexedResources resourceId
      nonempty := by
        intro r v h
        rw [Dict.get?_set] at h
        split_ifs at h
        · exact Option.some.inj h ▸ hne
        · exact set.nonempty r v h
      implicit := by
        intro r v h himplicit
        rw [Dict.get?_set] at h
        split_ifs at h with hr
        · obtain rfl := Option.some.inj h
          intro hhead
          exact hdefault (decide_eq_true ⟨hr ▸ himplicit, hhead⟩)
        · exact set.implicit r v h himplicit
      indexed := indexedById_indexedAfterSet set.indexed resourceId }

/-- `NodeResourceInstanceSet::Set`. -/
def set (set : NodeResourceInstanceSet) (resourceId : ResourceID) (instances : List ℤ) :
    Except RayError NodeResourceInstanceSet :=
  if hne : instances ≠ [] then .ok (set.store resourceId instances hne)
  else .error (.checkFailed "!instances.empty()")

/-- The constructor from a node's totals, a turn of its loop; which resources have unit instances is
configured. -/
def setFromTotal (isUnitInstanceResource : ResourceID → Bool) (total : NodeResourceSet)
    (set : NodeResourceInstanceSet)
    (resourceId : ResourceID) : Except RayError NodeResourceInstanceSet :=
  set.set resourceId
    (if isUnitInstanceResource resourceId then
      List.replicate (total.get resourceId / kResourceUnitScaling).toNat kResourceUnitScaling
    else [total.get resourceId])

/-- The constructor from a node's totals: each explicit resource has its total, in unit instances or
in one. -/
def ofTotal (isUnitInstanceResource : ResourceID → Bool) (total : NodeResourceSet) :
    Except RayError NodeResourceInstanceSet :=
  (total.keys.filter (fun r => !r.isImplicitResource)).foldlM
    (setFromTotal isUnitInstanceResource total) empty

/-- `NodeResourceInstanceSet::Remove`. -/
def remove (set : NodeResourceInstanceSet) (resourceId : ResourceID) : NodeResourceInstanceSet where
  resources := set.resources.erase resourceId
  pgIndexedResources :=
    match parseIndexedId resourceId with
    | some data => removeIndexed set.pgIndexedResources data resourceId
    | none => set.pgIndexedResources
  nonempty := by
    intro r v h
    rw [Dict.get?_erase] at h
    split_ifs at h
    exact set.nonempty r v h
  implicit := by
    intro r v h
    rw [Dict.get?_erase] at h
    split_ifs at h
    exact set.implicit r v h
  indexed := by
    cases parseIndexedId resourceId with
    | none => exact set.indexed
    | some data => exact fun original groupId id hid => set.indexed original groupId id (mem_indexedIds_remove hid)

/-- `NodeResourceInstanceSet::TryAllocate` for one resource. -/
def tryAllocateOne (set : NodeResourceInstanceSet) (resourceId : ResourceID) (demand : ℤ) :
    Except RayError (Option (List ℤ) × NodeResourceInstanceSet) :=
  match tryAllocateInstances (set.get resourceId) demand with
  | none => .ok (none, set)
  | some (allocation, left) => do
      let set ← set.set resourceId left
      .ok (some allocation, set)

/-- `NodeResourceInstanceSet::AllocateWithReference`.  Only the CPU may be allocated beyond what is
available. -/
def allocateWithReference (set : NodeResourceInstanceSet) (refAllocation : List ℤ)
    (resourceId : ResourceID) :
    Except RayError NodeResourceInstanceSet := do
  let available := set.get resourceId
  rayCheck (available ≠ []) "!available.empty()"
  rayCheck (available.length = refAllocation.length) "available.size() == ref_allocation.size()"
  rayCheck ((available.zip refAllocation).all (fun e => e.2 ≤ e.1) ∨
    isCPUOrPlacementGroupCPUResource resourceId)
    "Resource has less availability than requested."
  set.set resourceId (subInstances available refAllocation)

/-- `NodeResourceInstanceSet::Free`. -/
def free (set : NodeResourceInstanceSet) (resourceId : ResourceID) (allocation : List ℤ) :
    Except RayError NodeResourceInstanceSet := do
  let available := set.get resourceId
  rayCheck (allocation.length = available.length) "allocation.size() == available.size()"
  set.set resourceId (addInstances available allocation)

/-- The loop of `Add`, after the instances are made as many as are added. -/
def extendInstances : List ℤ → List ℤ → List ℤ
  | instances, [] => instances
  | [], b :: more => b :: extendInstances [] more
  | a :: instances, b :: more => (a + b) :: extendInstances instances more

theorem length_extendInstances (v w : List ℤ) :
    (extendInstances v w).length = max v.length w.length := by
  fun_induction extendInstances v w with
  | case1 v => exact (max_eq_left (Nat.zero_le _)).symm
  | case2 b w ih => rw [List.length_cons, ih, List.length_cons, List.length_nil, Nat.zero_max,
      Nat.zero_max]
  | case3 a v b w ih => rw [List.length_cons, ih, List.length_cons, List.length_cons, Nat.succ_max_succ]

/-- `NodeResourceInstanceSet::Add`. -/
def add (set : NodeResourceInstanceSet) (resourceId : ResourceID) (instances : List ℤ) :
    Except RayError NodeResourceInstanceSet :=
  if himplicit : resourceId.isImplicitResource then .error (.checkFailed
    "!resource_id.IsImplicitResource()")
  else
    match hstored : set.resources.get? resourceId with
    | none => set.set resourceId instances
    | some stored => .ok
        { set with
          resources := set.resources.set resourceId (extendInstances stored instances)
          nonempty := by
            intro r v h
            rw [Dict.get?_set] at h
            split_ifs at h
            · obtain rfl := Option.some.inj h
              have hlength := length_extendInstances stored instances
              have hpos := List.length_pos_iff.mpr (set.nonempty resourceId stored hstored)
              exact List.length_pos_iff.mp (by omega)
            · exact set.nonempty r v h
          implicit := by
            intro r v h hr
            rw [Dict.get?_set] at h
            split_ifs at h with heq
            · exact absurd (heq ▸ hr) himplicit
            · exact set.implicit r v h hr }

/-- Several allocations are freed. -/
def freeAll (set : NodeResourceInstanceSet) (allocations : Dict ResourceID (List ℤ)) :
    Except RayError NodeResourceInstanceSet :=
  allocations.entries.foldlM (fun set entry => set.free entry.1 entry.2) set

/-! ### What the operations leave -/

/-- An implicit resource has one instance. -/
def OneImplicit (set : NodeResourceInstanceSet) : Prop :=
  ∀ r : ResourceID, r.isImplicitResource → (set.get r).length = 1

variable {set : NodeResourceInstanceSet} {r : ResourceID} {v : List ℤ}

theorem get_of_some (h : set.resources.get? r = some v) :
    set.get r = v := by
  unfold get
  rw [h]

theorem get_of_none (h : set.resources.get? r = none) :
    set.get r = if r.isImplicitResource then [kResourceUnitScaling] else [] := by
  unfold get
  rw [h]

theorem same_of_get {other : NodeResourceInstanceSet} (h : ∀ r, set.get r = other.get r) :
    set.Same other := by
  have hdefault : ∀ (set : NodeResourceInstanceSet) (r : ResourceID) (v : List ℤ),
    set.resources.get? r = some v →
      v ≠ if r.isImplicitResource then [kResourceUnitScaling] else [] := by
    intro set r v hv heq
    split_ifs at heq with himplicit
    · exact set.implicit r v hv himplicit (by rw [heq]; rfl)
    · exact set.nonempty r v hv heq
  intro r
  have hr := h r
  cases hset : set.resources.get? r with
  | some v =>
    cases hother : other.resources.get? r with
    | some w =>
      rw [get_of_some hset, get_of_some hother] at hr
      rw [hr]
    | none =>
      rw [get_of_some hset, get_of_none hother] at hr
      exact absurd hr (hdefault set r v hset)
  | none =>
    cases hother : other.resources.get? r with
    | some w =>
      rw [get_of_none hset, get_of_some hother] at hr
      exact absurd hr.symm (hdefault other r w hother)
    | none => rfl

theorem get_store (set : NodeResourceInstanceSet) (r : ResourceID) (v : List ℤ) (hne : v ≠ [])
    (r' : ResourceID) :
    (set.store r v hne).get r' =
      if r' = r then (if isDefault r v then [kResourceUnitScaling] else v) else set.get r' := by
  unfold store
  by_cases hdefault : isDefault r v
  · have himplicit : r.isImplicitResource = true := (of_decide_eq_true hdefault).1
    rw [dif_pos hdefault, if_pos hdefault]
    unfold get
    rw [Dict.get?_erase]
    by_cases hr : r' = r
    · rw [if_pos hr, if_pos hr]
      rw [hr, if_pos himplicit]
    · rw [if_neg hr, if_neg hr]
  · rw [dif_neg hdefault, if_neg hdefault]
    unfold get
    rw [Dict.get?_set]
    by_cases hr : r' = r
    · rw [if_pos hr, if_pos hr]
    · rw [if_neg hr, if_neg hr]

variable {set' : NodeResourceInstanceSet}

/-- What is stored is read back, when an implicit resource is given one instance. -/
theorem get_of_set (h : set.set r v = .ok set')
    (hone : r.isImplicitResource → v.length = 1) (r' : ResourceID) :
    set'.get r' = if r' = r then v else set.get r' := by
  unfold NodeResourceInstanceSet.set at h
  split_ifs at h with hne
  cases h
  rw [get_store]
  by_cases hdefault : isDefault r v
  · obtain ⟨himplicit, hhead⟩ := of_decide_eq_true hdefault
    obtain ⟨a, rfl⟩ := List.length_eq_one_iff.mp (hone himplicit)
    rw [if_pos hdefault, Option.some.inj hhead]
  · rw [if_neg hdefault]

theorem set_eq_ok (hne : v ≠ []) :
    set.set r v = .ok (set.store r v hne) := dif_pos hne

theorem mem_indexedIds_store (hne : v ≠ [])
    {original : ResourceID} {groupId : String} {id : ResourceID}
    (h : id ∈ indexedIds set.pgIndexedResources original groupId) :
    id ∈ indexedIds (set.store r v hne).pgIndexedResources original groupId := by
  unfold store
  split_ifs with hdefault
  · exact h
  · show id ∈ indexedIds (indexedAfterSet set.pgIndexedResources r) original groupId
    unfold indexedAfterSet
    cases parseIndexedId r with
    | none => exact h
    | some data => exact mem_indexedIds_insert.mpr (.inr h)

theorem get_remove (set : NodeResourceInstanceSet) (r r' : ResourceID) :
    (set.remove r).get r' =
      if r' = r then (if r'.isImplicitResource then [kResourceUnitScaling] else []) else set.get r' := by
  unfold get remove
  rw [Dict.get?_erase]
  by_cases hr : r' = r
  · rw [if_pos hr, if_pos hr]
  · rw [if_neg hr, if_neg hr]

theorem extendInstances_nil (v : List ℤ) : extendInstances [] v = v := by
  induction v with
  | nil => rfl
  | cons b v ih => rw [extendInstances, ih]

theorem get_of_add (h : set.add r v = .ok set') :
    ¬ r.isImplicitResource ∧ ∀ r', set'.get r' = if r' = r then extendInstances (set.get r) v
      else set.get r' := by
  unfold add at h
  split_ifs at h with himplicit
  refine ⟨himplicit, ?_⟩
  split at h
  · next hstored =>
      intro r'
      rw [get_of_set h (fun hr => absurd hr himplicit), get_of_none hstored, if_neg himplicit,
        extendInstances_nil]
  · next stored hstored =>
      cases h
      intro r'
      rw [get_of_some hstored]
      unfold get
      rw [Dict.get?_set]
      by_cases hr : r' = r
      · rw [if_pos hr, if_pos hr]
      · rw [if_neg hr, if_neg hr]

theorem OneImplicit.of_get (h : set.OneImplicit)
    (hlength : ∀ r, (set'.get r).length = (set.get r).length) : set'.OneImplicit :=
  fun r hr => (hlength r).trans (h r hr)

theorem oneImplicit_empty : empty.OneImplicit := by
  intro r hr
  show (if r.isImplicitResource then [kResourceUnitScaling] else []).length = 1
  rw [if_pos hr]
  rfl

theorem OneImplicit.store (h : set.OneImplicit)
    (hne : v ≠ []) (hone : r.isImplicitResource → v.length = 1) : (set.store r v hne).OneImplicit := by
  intro r' hr'
  rw [get_of_set (set_eq_ok hne) hone]
  split_ifs with hr
  · exact hone (hr ▸ hr')
  · exact h r' hr'

theorem oneImplicit_of_ofTotal {isUnitInstanceResource : ResourceID → Bool} {total : NodeResourceSet}
    (h : ofTotal isUnitInstanceResource total = .ok set) : set.OneImplicit := by
  have hloop : ∀ (rs : List ResourceID) (set₀ : NodeResourceInstanceSet), set₀.OneImplicit →
      (∀ r ∈ rs, ¬ r.isImplicitResource) →
      rs.foldlM (setFromTotal isUnitInstanceResource total) set₀ = .ok set → set.OneImplicit := by
    intro rs
    induction rs with
    | nil =>
      intro set₀ hone _ hrun
      exact Except.ok.inj hrun ▸ hone
    | cons r rs ih =>
      intro set₀ hone hexplicit hrun
      rw [List.foldlM_cons] at hrun
      obtain ⟨set₁, hset, hrun⟩ := bind_eq_ok.mp hrun
      refine ih set₁ ?_ (fun r' hr' => hexplicit r' (.tail _ hr')) hrun
      have hr := hexplicit r (.head _)
      intro r' hr'
      rw [get_of_set hset (fun himplicit => absurd himplicit hr), if_neg]
      · exact hone r' hr'
      · rintro rfl
        exact hr hr'
  apply hloop _ _ oneImplicit_empty _ h
  intro r hr
  have hfilter := (List.mem_filter.mp hr).2
  simpa using hfilter

/-- The availabilities are not negative. -/
def Nonneg (set : NodeResourceInstanceSet) : Prop := ∀ r i, 0 ≤ amountAt (set.get r) i

theorem nonneg_empty : empty.Nonneg := by
  intro r i
  show 0 ≤ amountAt (if r.isImplicitResource then [kResourceUnitScaling] else []) i
  split_ifs
  · cases i with
    | zero => decide
    | succ i => exact le_refl 0
  · exact le_refl 0

theorem Nonneg.store (h : set.Nonneg) (hne : v ≠ [])
    (hone : r.isImplicitResource → v.length = 1) (hv : ∀ i, 0 ≤ amountAt v i) :
    (set.store r v hne).Nonneg := by
  intro r' i
  rw [get_of_set (set_eq_ok hne) hone]
  split_ifs
  · exact hv i
  · exact h r' i

/-- An allocation of one resource was taken out of a set. -/
structure Allocated (set set' : NodeResourceInstanceSet) (r : ResourceID) (allocation : List ℤ) :
    Prop where
  present : set.get r ≠ []
  length : allocation.length = (set.get r).length
  nonneg : ∀ i, 0 ≤ amountAt allocation i
  get : ∀ r', set'.get r' = if r' = r then subInstances (set.get r) allocation else set.get r'
  indexed : ∀ original groupId, ∀ id ∈ indexedIds set.pgIndexedResources original groupId,
    id ∈ indexedIds set'.pgIndexedResources original groupId

theorem tryAllocateOne_of_none {demand : ℤ}
    (h : tryAllocateInstances (set.get r) demand = none) :
    set.tryAllocateOne r demand = .ok (none, set) := by
  unfold tryAllocateOne
  rw [h]

/-- Allocation from one resource succeeds as a call; it gives nothing and changes nothing, or it
takes the demand. -/
theorem tryAllocateOne_cases (hone : set.OneImplicit) (r : ResourceID) {demand : ℤ}
    (hdemand : 0 ≤ demand) :
    (tryAllocateInstances (set.get r) demand = none ∧ set.tryAllocateOne r demand = .ok (none, set)) ∨
    ∃ allocation left set', Taken (set.get r) allocation left demand ∧
      set.tryAllocateOne r demand = .ok (some allocation, set') ∧ Allocated set set' r allocation := by
  cases h : tryAllocateInstances (set.get r) demand with
  | none => exact .inl ⟨rfl, tryAllocateOne_of_none h⟩
  | some taken =>
    obtain ⟨allocation, left⟩ := taken
    have htaken := taken_of_eq_some hdemand h
    have hpresent : set.get r ≠ [] := by
      intro hnil
      rw [hnil] at h
      cases h
    have hne : left ≠ [] := by
      rw [← List.length_pos_iff, htaken.length_left]
      exact List.length_pos_iff.mpr hpresent
    have hleft : left = subInstances (set.get r) allocation := by
      apply eq_of_amountAt
      · rw [length_subInstances htaken.length.symm, htaken.length_left]
      · intro i
        rw [amountAt_subInstances htaken.length.symm]
        have := htaken.conserved i
        omega
    refine .inr ⟨allocation, left, set.store r left hne, htaken, ?_, hpresent, htaken.length,
      htaken.nonneg, ?_,
      fun _ _ _ => mem_indexedIds_store hne⟩
    · unfold tryAllocateOne
      rw [h]
      simp only [set_eq_ok hne]
      rfl
    · intro r'
      rw [get_of_set (set_eq_ok hne) (fun hr => htaken.length_left.trans (hone r hr)), hleft]

variable {refAllocation : List ℤ}

theorem allocated_of_allocateWithReference (hone : set.OneImplicit)
    (hnonneg : ∀ i, 0 ≤ amountAt refAllocation i)
    (h : set.allocateWithReference refAllocation r = .ok set') :
    Allocated set set' r refAllocation := by
  obtain ⟨_, hpresent, h⟩ := bind_eq_ok.mp h
  obtain ⟨_, hlength, h⟩ := bind_eq_ok.mp h
  obtain ⟨_, _, h⟩ := bind_eq_ok.mp h
  have hlength := of_decide_eq_true (rayCheck_eq_ok.mp hlength)
  refine ⟨of_decide_eq_true (rayCheck_eq_ok.mp hpresent), hlength.symm, hnonneg, ?_, ?_⟩
  · exact get_of_set h (fun hr => (length_subInstances hlength).trans (hone r hr))
  · intro original groupId id hid
    unfold NodeResourceInstanceSet.set at h
    split_ifs at h with hne
    rw [← Except.ok.inj h]
    exact mem_indexedIds_store hne hid

theorem allocateWithReference_eq_ok
    (hpresent : set.get r ≠ []) (hlength : (set.get r).length = refAllocation.length)
    (hle : ∀ i, amountAt refAllocation i ≤ amountAt (set.get r) i) :
    ∃ set', set.allocateWithReference refAllocation r = .ok set' := by
  have hall : ((set.get r).zip refAllocation).all (fun e => e.2 ≤ e.1) = true := by
    rw [List.all_eq_true]
    intro e he
    obtain ⟨i, hi, rfl⟩ := List.mem_iff_getElem.mp he
    rw [List.length_zip, lt_min_iff] at hi
    have hi' := hle i
    rw [amountAt_eq_getElem hi.1, amountAt_eq_getElem hi.2] at hi'
    rw [List.getElem_zip]
    exact decide_eq_true hi'
  have hne : subInstances (set.get r) refAllocation ≠ [] := by
    rw [← List.length_pos_iff, length_subInstances hlength]
    exact List.length_pos_iff.mpr hpresent
  refine ⟨set.store r (subInstances (set.get r) refAllocation) hne, ?_⟩
  unfold allocateWithReference
  simp only [hpresent, hlength, hall, ne_eq, not_false_eq_true, decide_true, true_or, rayCheck_true,
    set_eq_ok hne]
  rfl

theorem free_eq_ok (hone : set.OneImplicit) {allocation : List ℤ}
    (hpresent : set.get r ≠ []) (hlength : allocation.length = (set.get r).length) :
    ∃ set', set.free r allocation = .ok set' ∧
      ∀ r', set'.get r' = if r' = r then addInstances (set.get r) allocation else set.get r' := by
  have hne : addInstances (set.get r) allocation ≠ [] := by
    rw [← List.length_pos_iff, length_addInstances hlength.symm]
    exact List.length_pos_iff.mpr hpresent
  refine ⟨set.store r (addInstances (set.get r) allocation) hne, ?_, ?_⟩
  · unfold free
    simp only [hlength, decide_true, rayCheck_true, set_eq_ok hne]
    rfl
  · exact get_of_set (set_eq_ok hne) (fun hr => (length_addInstances hlength.symm).trans (hone r hr))

theorem sub_add_instances {w : List ℤ} (h : w.length = v.length) :
    addInstances (subInstances v w) w = v := by
  have hlength : (subInstances v w).length = w.length := (length_subInstances h.symm).trans h.symm
  apply eq_of_amountAt
  · rw [length_addInstances hlength, hlength, h]
  · intro i
    rw [amountAt_addInstances hlength, amountAt_subInstances h.symm]
    omega

/-! ### Several allocations -/

/-- What is left of a set when some allocations are taken out of it. -/
structure Held (set set' : NodeResourceInstanceSet) (allocations : Dict ResourceID (List ℤ)) :
    Prop where
  present : ∀ r a, allocations.get? r = some a → set.get r ≠ []
  length : ∀ r a, allocations.get? r = some a → a.length = (set.get r).length
  nonneg : ∀ r a, allocations.get? r = some a → ∀ i, 0 ≤ amountAt a i
  get_some : ∀ r a, allocations.get? r = some a → set'.get r = subInstances (set.get r) a
  get_none : ∀ r, allocations.get? r = none → set'.get r = set.get r
  indexed : ∀ original groupId, ∀ id ∈ indexedIds set.pgIndexedResources original groupId,
    id ∈ indexedIds set'.pgIndexedResources original groupId

theorem held_empty (set : NodeResourceInstanceSet) : Held set set .empty :=
  ⟨nofun, nofun, nofun, nofun, fun _ _ => rfl, fun _ _ _ => id⟩

variable {allocations : Dict ResourceID (List ℤ)}

theorem Held.length_get
    (h : Held set set' allocations) (r : ResourceID) : (set'.get r).length = (set.get r).length := by
  cases hr : allocations.get? r with
  | some a => rw [h.get_some r a hr, length_subInstances (h.length r a hr).symm]
  | none => rw [h.get_none r hr]

theorem Held.allocated {set'' : NodeResourceInstanceSet}
    (h : Held set set' allocations) (hr : allocations.get? r = none) {a : List ℤ}
    (ha : Allocated set' set'' r a) : Held set set'' (allocations.set r a) := by
  have hget := h.get_none r hr
  constructor
  · intro r' a' ha'
    rw [Dict.get?_set] at ha'
    split_ifs at ha' with heq
    · rw [heq, ← hget]
      exact ha.present
    · exact h.present r' a' ha'
  · intro r' a' ha'
    rw [Dict.get?_set] at ha'
    split_ifs at ha' with heq
    · rw [heq, ← hget, ← Option.some.inj ha']
      exact ha.length
    · exact h.length r' a' ha'
  · intro r' a' ha'
    rw [Dict.get?_set] at ha'
    split_ifs at ha' with heq
    · rw [← Option.some.inj ha']
      exact ha.nonneg
    · exact h.nonneg r' a' ha'
  · intro r' a' ha'
    rw [Dict.get?_set] at ha'
    rw [ha.get r']
    split_ifs at ha' ⊢ with heq
    · rw [heq, hget, Option.some.inj ha']
    · exact h.get_some r' a' ha'
  · intro r' ha'
    rw [Dict.get?_set] at ha'
    rw [ha.get r']
    split_ifs at ha' ⊢ with heq
    exact h.get_none r' ha'
  · intro original groupId id hid
    exact ha.indexed original groupId id (h.indexed original groupId id hid)

theorem Held.conserved (h : Held set set' allocations) (r : ResourceID) (i : ℕ) :
    amountAt (set'.get r) i + amountAt ((allocations.get? r).getD []) i = amountAt (set.get r) i := by
  cases hr : allocations.get? r with
  | some a =>
    rw [h.get_some r a hr, amountAt_subInstances (h.length r a hr).symm, Option.getD_some]
    omega
  | none => rw [h.get_none r hr, Option.getD_none, amountAt_nil, add_zero]

theorem Held.freeAll (hone : set.OneImplicit) (h : Held set set' allocations) :
    ∃ set'', set'.freeAll allocations = .ok set'' ∧ ∀ r, set''.get r = set.get r := by
  have hloop : ∀ (l : List (ResourceID × List ℤ)) (set' : NodeResourceInstanceSet),
    (l.map Prod.fst).Nodup →
      (∀ e ∈ l, set.get e.1 ≠ [] ∧ e.2.length = (set.get e.1).length ∧ set'.get e.1 = subInstances
        (set.get e.1) e.2) →
      (∀ r, r ∉ l.map Prod.fst → set'.get r = set.get r) →
      ∃ set'', l.foldlM (fun set e => set.free e.1 e.2) set' = .ok set'' ∧
      ∀ r, set''.get r = set.get r := by
    intro l
    induction l with
    | nil => exact fun set' _ _ hnot => ⟨set', rfl, fun r => hnot r List.not_mem_nil⟩
    | cons e l ih =>
      obtain ⟨r, a⟩ := e
      intro set' hnodup hin hnot
      rw [List.map_cons, List.nodup_cons] at hnodup
      obtain ⟨hpresent, hlength, hget⟩ := hin (r, a) (.head _)
      have hlengths : ∀ r', (set'.get r').length = (set.get r').length := by
        intro r'
        by_cases hr' : r' ∈ ((r, a) :: l).map Prod.fst
        · obtain ⟨e, he, rfl⟩ := List.mem_map.mp hr'
          rw [(hin e he).2.2, length_subInstances (hin e he).2.1.symm]
        · rw [hnot r' hr']
      have hpresent' : set'.get r ≠ [] := by
        rw [← List.length_pos_iff, hlengths r]
        exact List.length_pos_iff.mpr hpresent
      obtain ⟨set₁, hfree, hget₁⟩ :=
        free_eq_ok (hone.of_get hlengths) hpresent' (hlength.trans (hlengths r).symm)
      rw [List.foldlM_cons]
      rw [hfree]
      apply ih set₁ hnodup.2
      · intro e he
        have hmem : e.1 ∈ l.map Prod.fst := List.mem_map_of_mem he
        have hne : e.1 ≠ r := fun heq => hnodup.1 (heq ▸ hmem)
        rw [hget₁ e.1, if_neg hne]
        exact hin e (.tail _ he)
      · intro r' hr'
        rw [hget₁ r']
        split_ifs with heq
        · have hrestored : addInstances (set'.get r) a = set.get r := by
            rw [hget]
            exact sub_add_instances hlength
          rw [hrestored, heq]
        · apply hnot r'
          rw [List.map_cons, List.mem_cons, not_or]
          exact ⟨heq, hr'⟩
  apply hloop allocations.entries set' allocations.nodup
  · intro e he
    have hr := Dict.get?_eq_some_iff.mpr he
    exact ⟨h.present e.1 e.2 hr, h.length e.1 e.2 hr, h.get_some e.1 e.2 hr⟩
  · intro r hr
    exact h.get_none r (Dict.get?_eq_none_iff.mpr hr)

end NodeResourceInstanceSet

end RayTfm.Raylet
