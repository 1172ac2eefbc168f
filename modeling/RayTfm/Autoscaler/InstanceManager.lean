import RayTfm.Autoscaler.InstanceStorage
import RayTfm.Lib.Reach

/-! # Concurrent updates of the instance store

A request to update the instances reads the storage, computes the new instances, checks the version,
writes its batch and notifies the subscribers; any number of requests do so at once, one such step
at a time and in any order (`ServiceState.step`).  A request writes only what it has read, because
the version of the storage determines its contents among the requests that still hold a snapshot
(`SnapshotOf`).

The updates of a request are stored by instance id, the last one for each, but the subscribers get
the list of the request as it is.  So a request is all or nothing when it names each instance once
(`allOrNothing_of_reach`). -/

namespace RayTfm.Autoscaler

/-- `StatusCode`. -/
inductive StatusCode where
  | unspecified
  | ok
  | versionMismatch
  | unknownErrors
  | unavailable
deriving DecidableEq, Repr

/-- `UpdateInstanceManagerStateRequest`. -/
structure UpdateInstanceManagerStateRequest where
  expectedVersion : ℤ
  updates : List InstanceUpdateEvent
deriving DecidableEq, Repr

/-- `UpdateInstanceManagerStateReply`. -/
structure UpdateInstanceManagerStateReply where
  code : StatusCode
  message : String
  version : ℕ
deriving DecidableEq, Repr

/-! ### One request -/

/-- The updates of a request by instance id. -/
def idsToUpdates (updates : List InstanceUpdateEvent) : Dict String InstanceUpdateEvent :=
  Dict.ofList (updates.map (fun update => (update.instanceId, update)))

/-- `Version mismatch`. -/
def versionMismatchText (expected actual : String) : String :=
  "Version mismatch: expected: " ++ expected ++ ", actual: " ++ actual

/-- What a request computes from the storage it reads: a refusal, or the instances to write. -/
inductive Prepared where
  | refused (reply : UpdateInstanceManagerStateReply)
  | computed (toUpsertInstances : List Instance) (version : ℕ)
deriving DecidableEq

/-- `InstanceManager.update_instance_manager_state`, as far as the batch. -/
def prepareUpdate (storage : InMemoryStorage) (request : UpdateInstanceManagerStateRequest) :
    Except AutoscalerError Prepared := do
  let toUpdateInstances := (getInstances storage (idsToUpdates request.updates).keys []).1
  let version := (getInstances storage (idsToUpdates request.updates).keys []).2
  if 0 ≤ request.expectedVersion ∧ request.expectedVersion ≠ version then
    return .refused ⟨.versionMismatch, versionMismatchText (toString request.expectedVersion)
      (toString version), version⟩
  let toUpsertInstances ← (idsToUpdates request.updates).entries.mapM (fun e =>
    upsertInstance (toUpdateInstances.get? e.1) e.2)
  return .computed toUpsertInstances version

/-- The reply to a request whose batch was refused. -/
def failureReply (version : ℕ) (result : StoreStatus) : UpdateInstanceManagerStateReply :=
  if result.version ≠ version then
    ⟨.versionMismatch, versionMismatchText (toString version) (toString result.version), result.version⟩
  else ⟨.unknownErrors, "Failed to update instance storage.", result.version⟩

/-- How far a request has come; until it is written it keeps the storage that it has read. -/
inductive Progress (S : Type) where
  | received
  | computed (toUpsertInstances : List Instance) (version : ℕ) (read : InMemoryStorage)
  | checked (toUpsertInstances : List Instance) (version : ℕ) (read : InMemoryStorage)
  | notifying (left : List S) (version : ℕ)
  | replied (reply : UpdateInstanceManagerStateReply)
  | raised (error : AutoscalerError)

/-- A request under way. -/
structure Writer (S : Type) where
  request : UpdateInstanceManagerStateRequest
  progress : Progress S

/-- A batch that was written: who wrote it, the storage that was read, and the storage before and
after. -/
structure Commit where
  writer : ℕ
  read : InMemoryStorage
  before : InMemoryStorage
  after : InMemoryStorage

/-! ### Any number of requests -/

/-- The storage, the requests, and what was written and announced so far. -/
structure ServiceState (S : Type) where
  storage : InMemoryStorage
  writers : List (Writer S)
  commits : List Commit
  notifications : List (ℕ × S × List InstanceUpdateEvent)

/-- A new request comes in, or a request takes its next step; a subscriber may raise when it is
notified. -/
inductive ServiceOp where
  | receive (request : UpdateInstanceManagerStateRequest)
  | advance (writer : ℕ) (subscriberError : Option String)

namespace ServiceState

variable {S : Type}

/-- A new storage. -/
def init : ServiceState S := ⟨.empty, [], [], []⟩

/-- A request has come further. -/
def setProgress (w : ServiceState S) (i : ℕ) (writer : Writer S) (progress : Progress S) :
    ServiceState S :=
  { w with writers := w.writers.set i { writer with progress := progress } }

/-- The next step of a request. -/
def advance (subscribers : List S) (w : ServiceState S) (i : ℕ) (writer : Writer S)
    (subscriberError : Option String) :
    ServiceState S :=
  match writer.progress with
  | .received =>
    match prepareUpdate w.storage writer.request with
    | .error error => w.setProgress i writer (.raised error)
    | .ok (.refused reply) => w.setProgress i writer (.replied reply)
    | .ok (.computed toUpsertInstances version) =>
      w.setProgress i writer (.computed toUpsertInstances version w.storage)
  | .computed toUpsertInstances version read =>
    match checkVersion w.storage version with
    | some result => w.setProgress i writer (.replied (failureReply version result))
    | none => w.setProgress i writer (.checked toUpsertInstances version read)
  | .checked toUpsertInstances version read =>
    let result := (upsertBatch w.storage toUpsertInstances version).1
    let storage := (upsertBatch w.storage toUpsertInstances version).2
    if result.success then
      { w.setProgress i writer (.notifying subscribers result.version) with
        storage := storage
        commits := w.commits ++ [⟨i, read, w.storage, storage⟩] }
    else w.setProgress i writer (.replied (failureReply version result))
  | .notifying [] version => w.setProgress i writer (.replied ⟨.ok, "", version⟩)
  | .notifying (subscriber :: left) version =>
    match subscriberError with
    | some msg => w.setProgress i writer (.raised (.subscriberError msg))
    | none =>
      { w.setProgress i writer (.notifying left version) with
        notifications := w.notifications ++ [(i, subscriber, writer.request.updates)] }
  | .replied _ => w
  | .raised _ => w

/-- One step of the service. -/
def step (subscribers : List S) (w : ServiceState S) :
    ServiceOp → Except AutoscalerError (ServiceState S)
  | .receive request => .ok { w with writers := w.writers ++ [⟨request, .received⟩] }
  | .advance i subscriberError =>
    match w.writers[i]? with
    | none => .ok w
    | some writer => .ok (w.advance subscribers i writer subscriberError)

/-- What a request wrote. -/
def commitsOf (w : ServiceState S) (i : ℕ) : List Commit := w.commits.filter (fun c => c.writer = i)

/-- What a request announced. -/
def notificationsOf (w : ServiceState S) (i : ℕ) : List (S × List InstanceUpdateEvent) :=
  (w.notifications.filter (fun n => n.1 = i)).map Prod.snd

end ServiceState

/-! ### All or nothing -/

/-- The statuses that a stored instance went through. -/
def InMemoryStorage.statusesOf (storage : InMemoryStorage) (key : String) : List InstanceStatus :=
  (storage.table.get? key).elim [] (fun entry => entry.value.statuses)

/-- The storage after is the storage before with each of the updates applied, and one version later;
the transitions that are stored are those of the updates. -/
structure Applied (updates : List InstanceUpdateEvent) (before after : InMemoryStorage) : Prop where
  version : after.version = before.version + 1
  update : ∀ update ∈ updates, ∃ inst,
    upsertInstance ((before.table.get? update.instanceId).map VersionedValue.read) update = .ok inst ∧
      after.table.get? update.instanceId = some ⟨inst.unversioned, after.version⟩
  recorded : ∀ key, after.statusesOf key =
    before.statusesOf key ++ (updates.filter (fun update => update.instanceId = key)).map
      (·.newInstanceStatus)
  other : ∀ key, key ∉ updates.map (·.instanceId) → after.table.get? key = before.table.get? key

/-- The storage goes through the commits one after another. -/
inductive Chained (first : InMemoryStorage) : List Commit → InMemoryStorage → Prop where
  | nil : Chained first [] first
  | snoc {commits : List Commit} {c : Commit} : Chained first commits c.before →
      Chained first (commits ++ [c]) c.after

section service
variable {S : Type} (subscribers : List S)

namespace ServiceState

/-- A request has written its updates, all of them and once. -/
def Stored (w : ServiceState S) (i : ℕ) (updates : List InstanceUpdateEvent) (version : ℕ) : Prop :=
  ∃ c, w.commitsOf i = [c] ∧ Applied updates c.before c.after ∧ c.after.version = version

/-- A request has changed nothing and notified nobody. -/
def Untouched (w : ServiceState S) (i : ℕ) : Prop := w.commitsOf i = [] ∧ w.notificationsOf i = []

/-- The versioned, all-or-nothing log: what came of each request, how the storage changed, that
nothing is overwritten that was not read, and what the stored instances look like. -/
structure AllOrNothing (w : ServiceState S) : Prop where
  replied : ∀ (i : ℕ) (writer : Writer S) (reply : UpdateInstanceManagerStateReply),
    w.writers[i]? = some writer →
    writer.progress = .replied reply →
      (reply.code = .ok ∧ w.Stored i writer.request.updates reply.version ∧
        w.notificationsOf i = subscribers.map (fun s => (s, writer.request.updates))) ∨
      (reply.code = .versionMismatch ∧ w.Untouched i)
  raised : ∀ (i : ℕ) (writer : Writer S) (error : AutoscalerError), w.writers[i]? = some writer →
    writer.progress = .raised error → w.Untouched i
  chained : Chained .empty w.commits w.storage
  committed : ∀ c ∈ w.commits, c.before = c.read ∧ ∃ writer, w.writers[c.writer]? = some writer
  wellFormed : ∀ key entry, w.storage.table.get? key = some entry → entry.value.WellFormed

end ServiceState

/-- A request that names each instance once, and a subscriber that does not raise. -/
def ServiceOp.Regular : ServiceOp → Prop
  | .receive request => (request.updates.map (·.instanceId)).Nodup
  | .advance _ subscriberError => subscriberError = none

end service

/-! ### What a request computes -/

/-- The instances of a storage are stored under their ids and are well-formed. -/
def InMemoryStorage.Sound (storage : InMemoryStorage) : Prop :=
  ∀ key entry, storage.table.get? key = some entry → entry.value.WellFormed ∧
  entry.value.instanceId = key

/-- The instances that a request computes from a storage. -/
def Computes (storage : InMemoryStorage) (updates : List InstanceUpdateEvent)
    (insts : List Instance) : Prop :=
  List.Forall₂ (fun update inst =>
    upsertInstance ((storage.table.get? update.instanceId).map VersionedValue.read) update =
      .ok inst) updates insts

variable {updates : List InstanceUpdateEvent}

theorem idsToUpdates_entries (h : (updates.map (·.instanceId)).Nodup) :
    (idsToUpdates updates).entries = updates.map (fun update => (update.instanceId, update)) := by
  apply Dict.entries_ofList
  rw [List.map_map]
  exact h

variable {storage : InMemoryStorage} {insts : List Instance}
variable {request : UpdateInstanceManagerStateRequest}

theorem prepareUpdate_computed {version : ℕ} (hnodup : (request.updates.map (·.instanceId)).Nodup)
    (h : prepareUpdate storage request = .ok (.computed insts version)) :
    version = storage.version ∧ Computes storage request.updates insts := by
  unfold prepareUpdate at h
  simp only [getInstances_version] at h
  split at h
  · cases h
  · obtain ⟨insts', hinsts, h⟩ := bind_eq_ok.mp h
    cases h
    refine ⟨rfl, ?_⟩
    have hread : ∀ e ∈ (idsToUpdates request.updates).entries,
        upsertInstance ((getInstances storage (idsToUpdates request.updates).keys []).1.get? e.1) e.2 =
          upsertInstance ((storage.table.get? e.1).map VersionedValue.read) e.2 := by
      intro e he
      have hkey : e.1 ∈ (idsToUpdates request.updates).keys := List.mem_map_of_mem he
      rw [get?_getInstances hkey]
    rw [mapM_congr hread, idsToUpdates_entries hnodup, mapM_eq_ok_iff,
      List.forall₂_map_left_iff] at hinsts
    exact hinsts

theorem prepareUpdate_refused
    {reply : UpdateInstanceManagerStateReply}
    (h : prepareUpdate storage request = .ok (.refused reply)) :
    reply.code = .versionMismatch := by
  unfold prepareUpdate at h
  simp only at h
  split at h
  · cases h
    rfl
  · obtain ⟨insts, _, h⟩ := bind_eq_ok.mp h
    cases h

variable {update : InstanceUpdateEvent}

theorem Computes.exists (h : Computes storage updates insts) (hupdate : update ∈ updates) :
    ∃ inst ∈ insts,
      upsertInstance ((storage.table.get? update.instanceId).map VersionedValue.read) update =
        .ok inst := by
  induction h with
  | nil => exact (List.not_mem_nil hupdate).elim
  | cons hinst _ ih =>
    obtain rfl | hupdate := List.mem_cons.mp hupdate
    · exact ⟨_, .head _, hinst⟩
    · obtain ⟨inst, hmem, hinst⟩ := ih hupdate
      exact ⟨inst, .tail _ hmem, hinst⟩

/-- What is computed from a sound storage. -/
theorem InMemoryStorage.Sound.upsert (hsound : storage.Sound) {inst : Instance}
    (h : upsertInstance ((storage.table.get? update.instanceId).map VersionedValue.read)
      update = .ok inst) :
    inst.WellFormed ∧ inst.instanceId = update.instanceId ∧
      inst.statuses = storage.statusesOf update.instanceId ++ [update.newInstanceStatus] := by
  have hstored : ∀ old, (storage.table.get? update.instanceId).map VersionedValue.read = some old →
      old.WellFormed ∧ old.instanceId = update.instanceId := by
    intro old hold
    obtain ⟨entry, hentry, rfl⟩ := Option.map_eq_some_iff.mp hold
    obtain ⟨hwf, hid⟩ := hsound _ entry hentry
    exact ⟨hwf.congr rfl rfl, hid⟩
  obtain ⟨hwf, hid, hstatuses⟩ := upsertInstance_ok hstored h
  refine ⟨hwf, hid, ?_⟩
  rw [hstatuses, InMemoryStorage.statusesOf]
  cases storage.table.get? update.instanceId <;> rfl

theorem Computes.instanceIds (hsound : storage.Sound) (h : Computes storage updates insts) :
    insts.map (·.instanceId) = updates.map (·.instanceId) := by
  induction h with
  | nil => rfl
  | cons hinst _ ih => rw [List.map_cons, List.map_cons, ih, (hsound.upsert hinst).2.1]

theorem filter_instanceId (hnodup : (updates.map (·.instanceId)).Nodup)
    (hupdate : update ∈ updates) :
    updates.filter (fun other => other.instanceId = update.instanceId) = [update] := by
  induction updates with
  | nil => exact (List.not_mem_nil hupdate).elim
  | cons first updates ih =>
    rw [List.map_cons, List.nodup_cons] at hnodup
    obtain rfl | hupdate := List.mem_cons.mp hupdate
    · rw [List.filter_cons_of_pos (by simp), List.filter_eq_nil_iff.mpr]
      intro other hother
      rw [decide_eq_true_eq]
      exact fun heq => hnodup.1 (heq ▸ List.mem_map_of_mem hother)
    · rw [List.filter_cons_of_neg, ih hnodup.2 hupdate]
      rw [decide_eq_true_eq]
      exact fun heq => hnodup.1 (heq ▸ List.mem_map_of_mem hupdate)

theorem Computes.applied {storage' : InMemoryStorage} (hsound : storage.Sound)
    (hnodup : (updates.map (·.instanceId)).Nodup)
    (h : Computes storage updates insts) {result : StoreStatus}
    (hbatch : upsertBatch storage insts storage.version = (result, storage')) :
    result = ⟨true, storage'.version⟩ ∧ Applied updates storage storage' := by
  have hids := h.instanceIds hsound
  rcases upsertBatch_cases storage (hids ▸ hnodup) storage.version with ⟨hne, _⟩ | ⟨_, table,
    hwritten, hget, hother⟩
  · exact (hne rfl).elim
  · rw [hbatch] at hwritten
    cases hwritten
    have hupdated : ∀ update ∈ updates, ∃ inst,
        upsertInstance ((storage.table.get? update.instanceId).map VersionedValue.read)
          update = .ok inst ∧
          table.get? update.instanceId = some ⟨inst.unversioned, storage.version + 1⟩ := by
      intro update hupdate
      obtain ⟨inst, hmem, hinst⟩ := h.exists hupdate
      refine ⟨inst, hinst, ?_⟩
      rw [← (hsound.upsert hinst).2.1]
      exact hget inst hmem
    refine ⟨rfl, rfl, hupdated, fun key => ?_, fun key hkey => hother key (hids ▸ hkey)⟩
    by_cases hkey : key ∈ updates.map (·.instanceId)
    · obtain ⟨update, hupdate, rfl⟩ := List.mem_map.mp hkey
      obtain ⟨inst, hinst, hentry⟩ := hupdated update hupdate
      rw [filter_instanceId hnodup hupdate, List.map_singleton, ← (hsound.upsert hinst).2.2]
      unfold InMemoryStorage.statusesOf
      rw [hentry]
      rfl
    · have hnone : updates.filter (fun update => update.instanceId = key) = [] := by
        rw [List.filter_eq_nil_iff]
        intro update hupdate
        rw [decide_eq_true_eq]
        exact fun heq => hkey (heq ▸ List.mem_map_of_mem hupdate)
      rw [hnone, List.map_nil, List.append_nil]
      unfold InMemoryStorage.statusesOf
      rw [hother key (hids ▸ hkey)]

variable {before after : InMemoryStorage}

theorem Applied.sound (hsound : before.Sound) (h : Applied updates before after) : after.Sound := by
  intro key entry hentry
  by_cases hkey : key ∈ updates.map (·.instanceId)
  · obtain ⟨update, hupdate, rfl⟩ := List.mem_map.mp hkey
    obtain ⟨inst, hinst, hget⟩ := h.update update hupdate
    rw [hentry] at hget
    cases hget
    obtain ⟨hwf, hid, _⟩ := hsound.upsert hinst
    exact ⟨hwf.congr rfl rfl, hid⟩
  · rw [h.other key hkey] at hentry
    exact hsound key entry hentry

/-! ### The requests under way -/

/-- A storage that was read earlier: if the version is still the same, so is the storage. -/
def SnapshotOf (read storage : InMemoryStorage) : Prop :=
  read.version ≤ storage.version ∧ (read.version = storage.version → read = storage)

theorem SnapshotOf.applied {read : InMemoryStorage}
    (h : SnapshotOf read before) (happlied : Applied updates before after) : SnapshotOf read after := by
  have hle := h.1
  have hversion := happlied.version
  exact ⟨by omega, fun heq => by omega⟩

namespace ServiceState

variable {S : Type} {subscribers : List S} {w w' : ServiceState S}

/-- What holds of a request at each of its steps. -/
def WriterInv (subscribers : List S) (w : ServiceState S) (i : ℕ) (writer : Writer S) : Prop :=
  match writer.progress with
  | .received => w.Untouched i
  | .computed insts version read =>
    w.Untouched i ∧ version = read.version ∧ Computes read writer.request.updates insts ∧
      SnapshotOf read w.storage
  | .checked insts version read =>
    w.Untouched i ∧ version = read.version ∧ Computes read writer.request.updates insts ∧
      SnapshotOf read w.storage
  | .notifying left version =>
    w.Stored i writer.request.updates version ∧
      w.notificationsOf i ++ left.map (fun s => (s, writer.request.updates)) =
        subscribers.map (fun s => (s, writer.request.updates))
  | .replied reply =>
    (reply.code = .ok ∧ w.Stored i writer.request.updates reply.version ∧
      w.notificationsOf i = subscribers.map (fun s => (s, writer.request.updates))) ∨
    (reply.code = .versionMismatch ∧ w.Untouched i)
  | .raised _ => w.Untouched i

/-- What every step keeps. -/
structure Inv (subscribers : List S) (w : ServiceState S) : Prop where
  sound : w.storage.Sound
  chained : Chained .empty w.commits w.storage
  committed : ∀ c ∈ w.commits, c.before = c.read ∧ c.writer < w.writers.length
  notified : ∀ n ∈ w.notifications, n.1 < w.writers.length
  distinct : ∀ (i : ℕ) (writer : Writer S), w.writers[i]? = some writer →
    (writer.request.updates.map (·.instanceId)).Nodup
  writers : ∀ (i : ℕ) (writer : Writer S), w.writers[i]? = some writer →
    WriterInv subscribers w i writer

variable {i : ℕ} {writer : Writer S}

/-- What another request does changes neither what a request wrote and announced nor the use of its
snapshot. -/
theorem WriterInv.frame (h : WriterInv subscribers w i writer)
    (hcommits : w'.commitsOf i = w.commitsOf i)
    (hnotifications : w'.notificationsOf i = w.notificationsOf i)
    (hsnapshot : ∀ read, SnapshotOf read w.storage → SnapshotOf read w'.storage) :
    WriterInv subscribers w' i writer := by
  have huntouched : w.Untouched i → w'.Untouched i :=
    fun h => ⟨hcommits.trans h.1, hnotifications.trans h.2⟩
  have hstored : ∀ updates version, w.Stored i updates version → w'.Stored i updates version :=
    fun updates version ⟨c, hc, happlied⟩ => ⟨c, hcommits.trans hc, happlied⟩
  unfold WriterInv at h ⊢
  split at h
  · exact huntouched h
  · exact ⟨huntouched h.1, h.2.1, h.2.2.1, hsnapshot _ h.2.2.2⟩
  · exact ⟨huntouched h.1, h.2.1, h.2.2.1, hsnapshot _ h.2.2.2⟩
  · exact ⟨hstored _ _ h.1, by rw [hnotifications]; exact h.2⟩
  · rcases h with ⟨hcode, hs, hn⟩ | ⟨hcode, hu⟩
    · exact .inl ⟨hcode, hstored _ _ hs, hnotifications.trans hn⟩
    · exact .inr ⟨hcode, huntouched hu⟩
  · exact huntouched h

theorem inv_init : (init : ServiceState S).Inv subscribers :=
  ⟨nofun, .nil, nofun, nofun, nofun, nofun⟩

theorem getElem?_writers_set {j : ℕ} {writer' : Writer S} {writers : List (Writer S)}
    (hi : writers[i]? = some writer) {found : Writer S}
    (hj : (writers.set i writer')[j]? = some found) :
    (j = i ∧ found = writer') ∨ (j ≠ i ∧ writers[j]? = some found) := by
  by_cases hji : j = i
  · subst hji
    have hlt : j < writers.length := (List.getElem?_eq_some_iff.mp hi).1
    rw [List.getElem?_set_self hlt] at hj
    exact .inl ⟨rfl, (Option.some.inj hj).symm⟩
  · rw [List.getElem?_set_ne (Ne.symm hji)] at hj
    exact .inr ⟨hji, hj⟩

theorem Inv.setProgress (h : w.Inv subscribers) (hi : w.writers[i]? = some writer)
    {progress : Progress S} (hself : WriterInv subscribers w i { writer with progress := progress }) :
    (w.setProgress i writer progress).Inv subscribers := by
  have hlength : (w.setProgress i writer progress).writers.length = w.writers.length := List.length_set
  refine ⟨h.sound, h.chained, fun c hc => ?_, fun n hn => ?_, fun j found hj => ?_,
    fun j found hj => ?_⟩
  · rw [hlength]; exact h.committed c hc
  · rw [hlength]; exact h.notified n hn
  · rcases getElem?_writers_set hi hj with ⟨rfl, rfl⟩ | ⟨_, hj⟩
    · exact h.distinct _ writer hi
    · exact h.distinct j found hj
  · rcases getElem?_writers_set hi hj with ⟨rfl, rfl⟩ | ⟨_, hj⟩
    · exact WriterInv.frame hself rfl rfl (fun _ hread => hread)
    · exact WriterInv.frame (h.writers j found hj) rfl rfl (fun _ hread => hread)

theorem commitsOf_append (c : Commit) (j : ℕ) (hw : w'.commits = w.commits ++ [c]) :
    w'.commitsOf j = w.commitsOf j ++ if c.writer = j then [c] else [] := by
  rw [commitsOf, hw, List.filter_append, commitsOf]
  by_cases hcj : c.writer = j <;> simp [hcj]

theorem notificationsOf_append (n : ℕ × S × List InstanceUpdateEvent) (j : ℕ)
    (hw : w'.notifications = w.notifications ++ [n]) :
    w'.notificationsOf j = w.notificationsOf j ++ if n.1 = j then [n.2] else [] := by
  rw [notificationsOf, hw, List.filter_append, List.map_append, notificationsOf]
  by_cases hnj : n.1 = j <;> simp [hnj]

variable {version : ℕ}
variable {result : StoreStatus}

theorem Inv.commit (h : w.Inv subscribers) (hi : w.writers[i]? = some writer)
    {insts : List Instance} {read storage : InMemoryStorage}
    (hprogress : writer.progress = .checked insts version read)
    (hbatch : upsertBatch w.storage insts version = (result, storage))
    (hsuccess : result.success = true) :
    ({ w.setProgress i writer (.notifying subscribers result.version) with
        storage := storage
        commits := w.commits ++ [⟨i, read, w.storage, storage⟩] } : ServiceState S).Inv
          subscribers := by
  have hlt : i < w.writers.length := (List.getElem?_eq_some_iff.mp hi).1
  have hself := h.writers i writer hi
  rw [WriterInv, hprogress] at hself
  obtain ⟨⟨hcommits, hnotifications⟩, rfl, hcomputes, hsnapshot⟩ := hself
  have hnodup := h.distinct i writer hi
  have hversion : read.version = w.storage.version := by
    by_contra hne
    have hfail : upsertBatch w.storage insts read.version = (⟨false, w.storage.version⟩, w.storage) :=
      if_pos ⟨nofun, fun heq => hne (Option.some.inj heq)⟩
    rw [hbatch] at hfail
    cases hfail
    cases hsuccess
  have hread := hsnapshot.2 hversion
  subst hread
  obtain ⟨rfl, happlied⟩ := hcomputes.applied h.sound hnodup hbatch
  generalize hw' : ({ w.setProgress i writer (.notifying subscribers storage.version) with
      storage := storage
      commits := w.commits ++ [⟨i, w.storage, w.storage, storage⟩] } : ServiceState S) = w'
  have hwriters : w'.writers = w.writers.set i
    ⟨writer.request, .notifying subscribers storage.version⟩ := by
    rw [← hw']; rfl
  have hlength : w'.writers.length = w.writers.length := by rw [hwriters, List.length_set]
  have hcommits' : w'.commits = w.commits ++ [⟨i, w.storage, w.storage, storage⟩] := by rw [← hw']
  have hcommitsOf := fun j => commitsOf_append _ j hcommits'
  have hnotificationsOf : ∀ j, w'.notificationsOf j = w.notificationsOf j := fun j => by rw [← hw']; rfl
  have hstorage : w'.storage = storage := by rw [← hw']
  refine ⟨?_, ?_, fun c hc => ?_, fun n hn => ?_, fun j found hj => ?_, fun j found hj => ?_⟩
  · rw [hstorage]; exact happlied.sound h.sound
  · rw [← hw']; exact .snoc (c := ⟨i, w.storage, w.storage, storage⟩) h.chained
  · rw [hlength]
    rw [← hw'] at hc
    rcases List.mem_append.mp hc with hc | hc
    · exact h.committed c hc
    · rw [List.mem_singleton.mp hc]
      exact ⟨rfl, hlt⟩
  · rw [hlength]
    rw [← hw'] at hn
    exact h.notified n hn
  · rw [hwriters] at hj
    rcases getElem?_writers_set hi hj with ⟨rfl, rfl⟩ | ⟨_, hj⟩
    · exact hnodup
    · exact h.distinct j found hj
  · rw [hwriters] at hj
    rcases getElem?_writers_set hi hj with ⟨rfl, rfl⟩ | ⟨hne, hj⟩
    · refine ⟨⟨⟨j, w.storage, w.storage, storage⟩, ?_, happlied, rfl⟩, ?_⟩
      · rw [hcommitsOf, hcommits, if_pos rfl, List.nil_append]
      · rw [hnotificationsOf, hnotifications, List.nil_append]
    · refine (h.writers j found hj).frame ?_ (hnotificationsOf j) (fun read hread => ?_)
      · rw [hcommitsOf, if_neg (Ne.symm hne), List.append_nil]
      · rw [hstorage]
        exact hread.applied happlied

theorem Inv.notify (h : w.Inv subscribers) (hi : w.writers[i]? = some writer)
    {subscriber : S} {left : List S}
    (hprogress : writer.progress = .notifying (subscriber :: left) version) :
    ({ w.setProgress i writer (.notifying left version) with
        notifications := w.notifications ++ [(i, subscriber, writer.request.updates)]
          } : ServiceState S).Inv
      subscribers := by
  have hlt : i < w.writers.length := (List.getElem?_eq_some_iff.mp hi).1
  have hself := h.writers i writer hi
  rw [WriterInv, hprogress] at hself
  obtain ⟨hstored, hall⟩ := hself
  generalize hw' : ({ w.setProgress i writer (.notifying left version) with
      notifications := w.notifications ++ [(i, subscriber, writer.request.updates)]
        } : ServiceState S) = w'
  have hwriters : w'.writers = w.writers.set i ⟨writer.request, .notifying left version⟩ :=
    by rw [← hw']; rfl
  have hlength : w'.writers.length = w.writers.length := by rw [hwriters, List.length_set]
  have hnotifications : w'.notifications = w.notifications ++
    [(i, subscriber, writer.request.updates)] := by rw [← hw']
  have hnotificationsOf := fun j => notificationsOf_append _ j hnotifications
  have hcommitsOf : ∀ j, w'.commitsOf j = w.commitsOf j := fun j => by rw [← hw']; rfl
  refine ⟨?_, ?_, fun c hc => ?_, fun n hn => ?_, fun j found hj => ?_, fun j found hj => ?_⟩
  · rw [← hw']; exact h.sound
  · rw [← hw']; exact h.chained
  · rw [hlength]
    rw [← hw'] at hc
    exact h.committed c hc
  · rw [hlength]
    rw [← hw'] at hn
    rcases List.mem_append.mp hn with hn | hn
    · exact h.notified n hn
    · rw [List.mem_singleton.mp hn]
      exact hlt
  · rw [hwriters] at hj
    rcases getElem?_writers_set hi hj with ⟨rfl, rfl⟩ | ⟨_, hj⟩
    · exact h.distinct j writer hi
    · exact h.distinct j found hj
  · rw [hwriters] at hj
    rcases getElem?_writers_set hi hj with ⟨rfl, rfl⟩ | ⟨hne, hj⟩
    · obtain ⟨c, hc, happlied⟩ := hstored
      refine ⟨⟨c, (hcommitsOf j).trans hc, happlied⟩, ?_⟩
      rw [hnotificationsOf, if_pos rfl, List.append_assoc]
      exact hall
    · refine (h.writers j found hj).frame (hcommitsOf j) ?_
        (fun read hread => by rw [← hw']; exact hread)
      rw [hnotificationsOf, if_neg (Ne.symm hne), List.append_nil]

theorem Inv.receive (h : w.Inv subscribers) {request : UpdateInstanceManagerStateRequest}
    (hnodup : (request.updates.map (·.instanceId)).Nodup) :
    ({ w with writers := w.writers ++ [⟨request, .received⟩] } : ServiceState S).Inv subscribers := by
  have hlength : (w.writers ++ [(⟨request, .received⟩ : Writer S)]).length = w.writers.length +
    1 := by simp
  have hfound : ∀ (j : ℕ) (found : Writer S), (w.writers ++ [⟨request, .received⟩])[j]? = some found →
      w.writers[j]? = some found ∨ (j = w.writers.length ∧ found = ⟨request, .received⟩) := by
    intro j found hj
    rcases Nat.lt_or_ge j w.writers.length with hlt | hge
    · rw [List.getElem?_append_left hlt] at hj
      exact .inl hj
    · rw [List.getElem?_append_right hge] at hj
      obtain ⟨hlt, hj⟩ := List.getElem?_eq_some_iff.mp hj
      simp only [List.length_singleton, Nat.lt_one_iff] at hlt
      refine .inr ⟨by omega, ?_⟩
      rw [← hj]
      simp [hlt]
  refine ⟨h.sound, h.chained, fun c hc => ?_, fun n hn => ?_, fun j found hj => ?_,
    fun j found hj => ?_⟩
  · obtain ⟨hread, hlt⟩ := h.committed c hc
    exact ⟨hread, by rw [hlength]; omega⟩
  · have hlt := h.notified n hn
    show n.1 < (w.writers ++ [(⟨request, .received⟩ : Writer S)]).length
    omega
  · rcases hfound j found hj with hj | ⟨_, rfl⟩
    · exact h.distinct j found hj
    · exact hnodup
  · rcases hfound j found hj with hj | ⟨rfl, rfl⟩
    · exact (h.writers j found hj).frame rfl rfl (fun _ hread => hread)
    · refine ⟨List.filter_eq_nil_iff.mpr fun c hc => ?_, List.map_eq_nil_iff.mpr
        (List.filter_eq_nil_iff.mpr fun n hn => ?_)⟩
      · have hlt := (h.committed c hc).2
        rw [decide_eq_true_eq]
        omega
      · have hlt := h.notified n hn
        rw [decide_eq_true_eq]
        omega

theorem failureReply_versionMismatch (h : result.version ≠ version) :
    (failureReply version result).code = .versionMismatch := by
  unfold failureReply
  rw [if_pos h]

theorem Inv.advance (h : w.Inv subscribers) (hi : w.writers[i]? = some writer) :
    (w.advance subscribers i writer none).Inv subscribers := by
  have hself := h.writers i writer hi
  unfold ServiceState.advance
  cases hprogress : writer.progress with
  | received =>
    rw [WriterInv, hprogress] at hself
    cases hprepare : prepareUpdate w.storage writer.request with
    | error error => exact h.setProgress hi hself
    | ok prepared =>
      cases prepared with
      | refused reply => exact h.setProgress hi (.inr ⟨prepareUpdate_refused hprepare, hself⟩)
      | computed insts version =>
        obtain ⟨hversion, hcomputes⟩ := prepareUpdate_computed (h.distinct i writer hi) hprepare
        exact h.setProgress hi ⟨hself, hversion, hcomputes, le_refl _, fun _ => rfl⟩
  | computed insts version read =>
    rw [WriterInv, hprogress] at hself
    simp only
    cases hcheck : checkVersion w.storage version with
    | none => exact h.setProgress hi hself
    | some result =>
      refine h.setProgress hi (.inr ⟨failureReply_versionMismatch ?_, hself.1⟩)
      unfold checkVersion at hcheck
      split at hcheck
      · next hne =>
          cases hcheck
          exact Ne.symm hne.2
      · cases hcheck
  | checked insts version read =>
    simp only
    cases hbatch : upsertBatch w.storage insts version with
    | mk result storage =>
      simp only
      split
      · next hsuccess => exact h.commit hi hprogress hbatch hsuccess
      · next hfailure =>
          rw [WriterInv, hprogress] at hself
          refine h.setProgress hi (.inr ⟨failureReply_versionMismatch ?_, hself.1⟩)
          unfold upsertBatch InMemoryStorage.batchUpdate at hbatch
          split at hbatch
          · next hne =>
              cases hbatch
              exact fun heq => hne.2 (congrArg some heq.symm)
          · cases hbatch
            exact (hfailure rfl).elim
  | notifying left version =>
    cases left with
    | nil =>
      rw [WriterInv, hprogress] at hself
      refine h.setProgress hi (.inl ⟨rfl, hself.1, ?_⟩)
      have hall := hself.2
      rwa [List.map_nil, List.append_nil] at hall
    | cons subscriber left => exact h.notify hi hprogress
  | replied reply => exact h
  | raised error => exact h

theorem inv_step {op : ServiceOp} (h : w.Inv subscribers) (hop : op.Regular)
    (hstep : w.step subscribers op = .ok w') : w'.Inv subscribers := by
  cases op with
  | receive request =>
    cases hstep
    exact h.receive hop
  | advance i subscriberError =>
    cases hop
    unfold ServiceState.step at hstep
    cases hi : w.writers[i]? with
    | none =>
      simp only [hi] at hstep
      cases hstep
      exact h
    | some writer =>
      simp only [hi] at hstep
      cases hstep
      exact h.advance hi

end ServiceState

/-- Requests that name each instance once are all or nothing, in every interleaving. -/
theorem allOrNothing_of_reach {S : Type} {subscribers : List S} {w : ServiceState S}
    (h : Reach (ServiceState.step subscribers) (fun _ op => op.Regular) .init w) :
    w.AllOrNothing subscribers := by
  have hinv : w.Inv subscribers := h.inv ServiceState.inv_init fun _ _ _ h hop hstep =>
    ServiceState.inv_step h hop hstep
  refine ⟨fun i writer reply hi hprogress => ?_, fun i writer error hi hprogress => ?_, hinv.chained,
    fun c hc => ?_, fun key entry hentry => (hinv.sound key entry hentry).1⟩
  · have hself := hinv.writers i writer hi
    rw [ServiceState.WriterInv, hprogress] at hself
    exact hself
  · have hself := hinv.writers i writer hi
    rw [ServiceState.WriterInv, hprogress] at hself
    exact hself
  · obtain ⟨hread, hlt⟩ := hinv.committed c hc
    exact ⟨hread, _, List.getElem?_eq_getElem hlt⟩

/-- An update that only names an instance and its new status. -/
def bareUpdate (instanceId : String) (status : InstanceStatus) : InstanceUpdateEvent :=
  ⟨instanceId, status, "", true, "type", "cloud", .worker, "", ""⟩

/-- A request is received, computed, checked, written and announced to the one subscriber. -/
def serveOne (updates : List InstanceUpdateEvent) : List ServiceOp :=
  [.receive ⟨0, updates⟩, .advance 0 none, .advance 0 none, .advance 0 none, .advance 0 none,
    .advance 0 none]

theorem allOrNothing_of_reach_queued : ∃ w : ServiceState ℕ,
    (serveOne [bareUpdate "a" .queued]).foldlM (ServiceState.step [0]) .init = .ok w ∧
    w.AllOrNothing [0] :=
  ⟨_, rfl, allOrNothing_of_reach (.of_foldlM .refl (l := serveOne [bareUpdate "a" .queued])
    (fun _ op hop => by fin_cases hop <;> simp [ServiceOp.Regular]) rfl)⟩

/-- A request with two updates of one instance stores the last one and announces both. -/
theorem not_allOrNothing_repeated :
    ¬ ∀ (subscribers : List ℕ) (w : ServiceState ℕ),
      Reach (ServiceState.step subscribers) (fun _ _ => True) .init w → w.AllOrNothing subscribers := by
  intro hall
  obtain ⟨w, hrun⟩ : ∃ w : ServiceState ℕ,
      (serveOne [bareUpdate "a" .queued, bareUpdate "a" .terminating]).foldlM
        (ServiceState.step [0]) .init = .ok w :=
    ⟨_, rfl⟩
  have h := hall [0] w (.of_foldlM .refl (fun _ _ _ => trivial) hrun)
  cases hrun
  rcases h.replied 0 _ _ rfl rfl with ⟨_, ⟨c, hc, happlied, _⟩, _⟩ | ⟨hcode, _⟩
  · cases hc
    have hrecorded := happlied.recorded "a"
    exact absurd hrecorded (by decide)
  · cases hcode

end RayTfm.Autoscaler
