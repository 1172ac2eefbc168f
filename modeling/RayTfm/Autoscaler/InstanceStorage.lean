import RayTfm.Autoscaler.Instances

/-! # The instance store

The instances are kept in one table of a versioned in-memory storage: every successful batch raises
the version of the storage by one and gives it to the entries it writes.  A batch names the version
that its writer has read, and is refused if another one came in between. -/

namespace RayTfm.Autoscaler

/-- `VersionedValue`. -/
structure VersionedValue where
  value : Instance
  version : ℕ
deriving DecidableEq, Repr

/-- `InMemoryStorage`, with the instance table. -/
structure InMemoryStorage where
  version : ℕ
  table : Dict String VersionedValue
deriving DecidableEq

/-- `StoreStatus`. -/
structure StoreStatus where
  success : Bool
  version : ℕ
deriving DecidableEq, Repr

namespace InMemoryStorage

/-- A new storage. -/
def empty : InMemoryStorage := ⟨0, Dict.empty⟩

/-- `InMemoryStorage.batch_update`. -/
def batchUpdate (storage : InMemoryStorage) (mutation : Dict String Instance) (deletion : List String)
    (expectedVersion : Option ℕ) : StoreStatus × InMemoryStorage :=
  if expectedVersion ≠ none ∧
    expectedVersion ≠ some storage.version then (⟨false, storage.version⟩, storage)
  else
    let version := storage.version + 1
    let keyValuePairsWithVersion := mutation.entries.map (fun e => (e.1, VersionedValue.mk e.2 version))
    let table := (storage.table.setAll keyValuePairsWithVersion).eraseAll deletion
    (⟨true, version⟩, ⟨version, table⟩)

/-- `InMemoryStorage.get`: the entries of the keys, or all of them if there is no key. -/
def get (storage : InMemoryStorage) (keys : List String) : Dict String VersionedValue × ℕ :=
  if keys = [] then (storage.table, storage.version)
  else
    (Dict.ofList (keys.filterMap (fun key => (storage.table.get? key).map (fun v => (key, v)))),
      storage.version)

end InMemoryStorage

/-- An instance as it is read: it carries the version of its entry. -/
def VersionedValue.read (entry : VersionedValue) : Instance :=
  { entry.value with version := entry.version }

/-- An instance as it is written: without a version. -/
def Instance.unversioned (inst : Instance) : Instance := { inst with version := 0 }

/-- `InstanceStorage.get_instances`. -/
def getInstances (storage : InMemoryStorage) (instanceIds : List String)
    (statusFilter : List InstanceStatus) :
    Dict String Instance × ℕ :=
  let pairs := storage.get instanceIds
  (Dict.ofList ((pairs.1.entries.map (fun e => (e.1, e.2.read))).filter
    (fun e => statusFilter = [] ∨ e.2.status ∈ statusFilter)), pairs.2)

/-- The version check that `InstanceStorage.batch_upsert_instances` makes first; a version of zero
is not checked. -/
def checkVersion (storage : InMemoryStorage) (expectedStorageVersion : ℕ) : Option StoreStatus :=
  if expectedStorageVersion ≠ 0 ∧
    expectedStorageVersion ≠ storage.version then some ⟨false, storage.version⟩ else none

/-- The mutations of `InstanceStorage.batch_upsert_instances`. -/
def upsertMutations (updates : List Instance) : Dict String Instance :=
  Dict.ofList (updates.map (fun inst => (inst.instanceId, inst.unversioned)))

/-- The batch of `InstanceStorage.batch_upsert_instances`. -/
def upsertBatch (storage : InMemoryStorage) (updates : List Instance) (expectedStorageVersion : ℕ) :
    StoreStatus × InMemoryStorage :=
  storage.batchUpdate (upsertMutations updates) [] (some expectedStorageVersion)

/-! ### What is read and what is written -/

variable {storage : InMemoryStorage}

theorem InMemoryStorage.get?_get {keys : List String} {key : String} (h : key ∈ keys) :
    (storage.get keys).1.get? key = storage.table.get? key := by
  unfold InMemoryStorage.get
  rw [if_neg (List.ne_nil_of_mem h)]
  rw [Dict.get?_ofList_filterMap, if_pos h]

theorem get?_getInstances {instanceIds : List String} {key : String} (h : key ∈ instanceIds) :
    (getInstances storage instanceIds []).1.get? key = (storage.table.get? key).map
      VersionedValue.read := by
  have hnodup : (((storage.get instanceIds).1.entries.map (fun e => (e.1, e.2.read))).map
    Prod.fst).Nodup := by
    rw [List.map_map]
    exact (storage.get instanceIds).1.nodup
  have hfilter : ((storage.get instanceIds).1.entries.map (fun e => (e.1, e.2.read))).filter
      (fun e => decide (([] : List InstanceStatus) = [] ∨ e.2.status ∈ ([] : List InstanceStatus))) =
      (storage.get instanceIds).1.entries.map (fun e => (e.1, e.2.read)) :=
    List.filter_eq_self.mpr (fun _ _ => decide_eq_true (.inl rfl))
  show (Dict.ofList (List.filter _ _)).get? key = _
  rw [hfilter, Dict.get?_ofList_of_nodup hnodup, Dict.lookup_map_snd]
  congr 1
  exact InMemoryStorage.get?_get h

theorem getInstances_version (storage : InMemoryStorage) (instanceIds : List String)
    (statusFilter : List InstanceStatus) : (getInstances storage instanceIds statusFilter).2 =
      storage.version := by
  show (storage.get instanceIds).2 = storage.version
  unfold InMemoryStorage.get
  split_ifs <;> rfl

/-- A batch is refused, or it raises the version and writes its instances and nothing else. -/
theorem upsertBatch_cases (storage : InMemoryStorage) {updates : List Instance}
    (hnodup : (updates.map (·.instanceId)).Nodup) (expected : ℕ) :
    (expected ≠ storage.version ∧ upsertBatch storage updates expected =
      (⟨false, storage.version⟩, storage)) ∨
      (expected = storage.version ∧ ∃ table, upsertBatch storage updates expected =
          (⟨true, storage.version + 1⟩, ⟨storage.version + 1, table⟩) ∧
        (∀ inst ∈ updates, table.get? inst.instanceId = some ⟨inst.unversioned, storage.version + 1⟩) ∧
        ∀ key, key ∉ updates.map (·.instanceId) → table.get? key = storage.table.get? key) := by
  unfold upsertBatch InMemoryStorage.batchUpdate
  by_cases hversion : expected = storage.version
  · right
    rw [if_neg (by simp [hversion])]
    refine ⟨hversion, _, rfl, ?_⟩
    have hkeys : ((updates.map (fun inst => (inst.instanceId, inst.unversioned))).map
      Prod.fst).Nodup := by
      rw [List.map_map]
      exact hnodup
    have hentries : (upsertMutations updates).entries.map
      (fun e => (e.1, VersionedValue.mk e.2 (storage.version + 1))) =
        updates.map (fun inst => (inst.instanceId, ⟨inst.unversioned, storage.version + 1⟩)) := by
      rw [upsertMutations, Dict.entries_ofList hkeys, List.map_map]
      rfl
    have hkeys' : ((updates.map (fun inst => (inst.instanceId,
        VersionedValue.mk inst.unversioned (storage.version + 1)))).map Prod.fst).Nodup := by
      rw [List.map_map]
      exact hnodup
    rw [hentries]
    constructor
    · intro inst hinst
      rw [Dict.get?_eraseAll, if_neg List.not_mem_nil]
      exact Dict.get?_setAll_of_mem _ hkeys' (List.mem_map_of_mem hinst)
    · intro key hkey
      rw [Dict.get?_eraseAll, if_neg List.not_mem_nil, Dict.get?_setAll,
        List.lookup_eq_none_iff.mpr, Option.none_or]
      intro e he
      obtain ⟨inst, hinst, rfl⟩ := List.mem_map.mp (List.mem_reverse.mp he)
      have hne : key ≠ inst.instanceId := fun heq => hkey (heq ▸ List.mem_map_of_mem hinst)
      simpa [bne_iff_ne] using hne
  · left
    rw [if_pos ⟨nofun, fun heq => hversion (Option.some.inj heq)⟩]
    exact ⟨hversion, rfl⟩

end RayTfm.Autoscaler
