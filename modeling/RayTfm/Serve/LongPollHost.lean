import RayTfm.Serve.LongPoll

/-! # The host of the long poll

The events of the host: a registered event is not set, and the pending counts are the numbers of
registered events (`EventsOk`).  The objects of the host: a key that is held has an object and a
time (`ObjectsOk`).  Each operation has a lemma that says which events are registered after it. -/

namespace RayTfm.Serve.LongPoll.Host

variable {K V τ : Type} [DecidableEq K] {tag : K → String} {h : Host K V τ} {key k : K} {event e : ℕ}
  {ns : String} {n : ℤ} {task : WaitTask K}

/-- An event that waits for a key. -/
def Registered (h : Host K V τ) (key : K) (event : ℕ) : Prop :=
  event ∈ (h.notifierEvents.get? key).getD []

/-- The number of registered events of a namespace. -/
def numRegistered (tag : K → String) (h : Host K V τ) (ns : String) : ℕ :=
  h.notifierEvents.total (fun key events => if tag key = ns then events.length else 0)

/-- The registered events are not set, and counted. -/
structure EventsOk (tag : K → String) (h : Host K V τ) : Prop where
  pending : ∀ ns, h.pendingClientsByNamespace ns = numRegistered tag h ns
  nodup : ∀ key, ((h.notifierEvents.get? key).getD []).Nodup
  fresh : ∀ {key event}, h.Registered key event → event < h.numEvents ∧ h.isSet event = false
  unset : ∀ event, h.numEvents ≤ event → h.isSet event = false

theorem eventsOk_init : EventsOk tag (init : Host K V τ) where
  pending _ := rfl
  nodup _ := List.nodup_nil
  fresh hr := absurd hr List.not_mem_nil
  unset _ _ := rfl

omit [DecidableEq K] in
@[simp] theorem pending_addPending : (h.addPending tag key n).pendingClientsByNamespace ns =
    h.pendingClientsByNamespace ns + if tag key = ns then n else 0 := by
  rw [addPending]
  simp only [Function.update_apply]
  split_ifs with h₁ h₂ h₂
  · rw [h₁]
  · exact absurd h₁.symm h₂
  · exact absurd h₂.symm h₁
  · rw [add_zero]

/-! ### Registering -/

theorem registered_register :
    (h.register tag key).Registered k e ↔ h.Registered k e ∨ (k = key ∧ e = h.numEvents) := by
  unfold Registered register addPending
  simp only [Dict.get?_set]
  split_ifs with hk
  · rw [hk, Option.getD_some, List.mem_append, List.mem_singleton, and_iff_right rfl]
  · simp [hk]

theorem EventsOk.register (hok : EventsOk tag h) : EventsOk tag (h.register tag key) := by
  refine ⟨?_, ?_, ?_, ?_⟩
  · intro ns
    rw [Host.register, pending_addPending]
    simp only [hok.pending, numRegistered]
    cases hget : h.notifierEvents.get? key with
    | none =>
      have htotal := Dict.total_set_of_get?_eq_none hget [h.numEvents]
        (fun key events => if tag key = ns then events.length else 0)
      simp only [addPending, Option.getD_none, List.nil_append, htotal]
      split_ifs <;> simp
    | some events =>
      have htotal := Dict.total_set_of_get?_eq_some hget (events ++ [h.numEvents])
        (fun key events => if tag key = ns then events.length else 0)
      simp only [addPending, Option.getD_some]
      split_ifs at htotal ⊢
      · rw [List.length_append, List.length_singleton] at htotal
        omega
      · omega
  · intro k
    unfold Host.register addPending
    simp only [Dict.get?_set]
    split_ifs with hk
    · rw [Option.getD_some, List.nodup_append]
      refine ⟨hok.nodup key, List.nodup_singleton _, ?_⟩
      intro e he e' he' heq
      rw [List.mem_singleton.mp he'] at heq
      exact Nat.lt_irrefl _ (heq ▸ (hok.fresh (show h.Registered key e from he)).1)
    · exact hok.nodup k
  · intro k e hr
    obtain hr | ⟨_, rfl⟩ := registered_register.mp hr
    · exact ⟨Nat.lt_succ_of_lt (hok.fresh hr).1, (hok.fresh hr).2⟩
    · exact ⟨Nat.lt_succ_self _, hok.unset _ le_rfl⟩
  · exact fun e he => hok.unset e (Nat.le_of_succ_le he)

theorem registerAll_keeps (tag : K → String) (h : Host K V τ) (keys : List K) :
    (h.registerAll tag keys).1.snapshotIds = h.snapshotIds ∧
    (h.registerAll tag keys).1.objectSnapshots = h.objectSnapshots ∧
    (h.registerAll tag keys).1.notifyTimestamps = h.notifyTimestamps ∧
    (h.registerAll tag keys).1.isSet = h.isSet ∧
    h.numEvents ≤ (h.registerAll tag keys).1.numEvents := by
  induction keys generalizing h with
  | nil => exact ⟨rfl, rfl, rfl, rfl, le_rfl⟩
  | cons key keys ih =>
    rw [registerAll]
    obtain ⟨h₁, h₂, h₃, h₄, h₅⟩ := ih (h.register tag key)
    exact ⟨h₁, h₂, h₃, h₄, (Nat.le_succ _).trans h₅⟩

theorem EventsOk.registerAll (hok : EventsOk tag h) (keys : List K) :
    EventsOk tag (h.registerAll tag keys).1 := by
  induction keys generalizing h with
  | nil => exact hok
  | cons key keys ih => exact ih hok.register

theorem registerAll_tasks (tag : K → String) (h : Host K V τ) (keys : List K) :
    (h.registerAll tag keys).2.map WaitTask.key = keys ∧
    ((h.registerAll tag keys).2.map WaitTask.event).Nodup ∧
    ∀ task ∈ (h.registerAll tag keys).2, h.numEvents ≤ task.event ∧
      task.event < (h.registerAll tag keys).1.numEvents ∧ task.done = false := by
  induction keys generalizing h with
  | nil => exact ⟨rfl, List.nodup_nil, fun _ ht => absurd ht List.not_mem_nil⟩
  | cons key keys ih =>
    rw [registerAll]
    obtain ⟨hkeys, hnodup, htasks⟩ := ih (h.register tag key)
    have hle := (registerAll_keeps tag (h.register tag key) keys).2.2.2.2
    refine ⟨by rw [List.map_cons, hkeys], ?_, ?_⟩
    · rw [List.map_cons, List.nodup_cons]
      refine ⟨fun hmem => ?_, hnodup⟩
      obtain ⟨task, htask, hevent⟩ := List.mem_map.mp hmem
      have hlt : h.numEvents + 1 ≤ task.event := (htasks task htask).1
      rw [hevent] at hlt
      exact Nat.lt_irrefl _ hlt
    · intro task htask
      obtain rfl | htask := List.mem_cons.mp htask
      · exact ⟨le_rfl, hle, rfl⟩
      · obtain ⟨h₁, h₂, h₃⟩ := htasks task htask
        exact ⟨(Nat.le_succ _).trans h₁, h₂, h₃⟩

theorem registered_registerAll (keys : List K) : (h.registerAll tag keys).1.Registered k e ↔
    h.Registered k e ∨ ∃ task ∈ (h.registerAll tag keys).2, task.key = k ∧ task.event = e := by
  induction keys generalizing h with
  | nil => simp [registerAll]
  | cons key keys ih =>
    rw [registerAll]
    simp only [ih, registered_register, List.exists_mem_cons_iff, or_assoc]
    refine or_congr Iff.rfl (or_congr ?_ Iff.rfl)
    exact ⟨fun hand => ⟨hand.1.symm, hand.2.symm⟩, fun hand => ⟨hand.1.symm, hand.2.symm⟩⟩

/-! ### Unregistering -/

theorem unregister_keeps (tag : K → String) (h : Host K V τ) (task : WaitTask K) :
    (h.unregister tag task).snapshotIds = h.snapshotIds ∧
    (h.unregister tag task).objectSnapshots = h.objectSnapshots ∧
    (h.unregister tag task).notifyTimestamps = h.notifyTimestamps ∧
    (h.unregister tag task).isSet = h.isSet ∧
    (h.unregister tag task).numEvents = h.numEvents := by
  unfold unregister
  split
  · exact ⟨rfl, rfl, rfl, rfl, rfl⟩
  · split_ifs <;> exact ⟨rfl, rfl, rfl, rfl, rfl⟩

theorem events_unregister (tag : K → String) (h : Host K V τ) (task : WaitTask K) (k : K) :
    ((h.unregister tag task).notifierEvents.get? k).getD [] =
      if k = task.key then ((h.notifierEvents.get? k).getD []).erase task.event
      else (h.notifierEvents.get? k).getD [] := by
  unfold unregister
  split
  next hnone =>
      split_ifs with hk
      · rw [hk, hnone]
        rfl
      · rfl
  next events hsome =>
      by_cases hmem : task.event ∈ events
      · rw [if_neg (not_not.mpr hmem)]
        simp only [addPending]
        by_cases hnil : events.erase task.event = []
        · rw [if_pos hnil, Dict.get?_erase]
          split_ifs with hk
          · rw [hk, hsome, Option.getD_some, hnil]
            rfl
          · rfl
        · rw [if_neg hnil, Dict.get?_set]
          split_ifs with hk
          · rw [hk, hsome]
            rfl
          · rfl
      · rw [if_pos hmem]
        split_ifs with hk
        · rw [hk, hsome, Option.getD_some, List.erase_of_not_mem hmem]
        · rfl

theorem EventsOk.registered_unregister (hok : EventsOk tag h) :
    (h.unregister tag task).Registered k e ↔
      h.Registered k e ∧ ¬ (k = task.key ∧ e = task.event) := by
  unfold Registered
  rw [events_unregister]
  split_ifs with hk
  · rw [(hok.nodup k).mem_erase_iff, and_comm]
    simp [hk]
  · simp [hk]

theorem EventsOk.unregister (hok : EventsOk tag h) (task : WaitTask K) :
    EventsOk tag (h.unregister tag task) := by
  obtain ⟨_, _, _, hset, hnum⟩ := unregister_keeps tag h task
  refine ⟨?_, ?_, ?_, ?_⟩
  · intro ns
    have hpending := hok.pending ns
    unfold Host.unregister
    split
    · exact hpending
    next events hsome =>
      by_cases hmem : task.event ∈ events
      · rw [if_neg (not_not.mpr hmem), pending_addPending]
        simp only [hpending, numRegistered, addPending]
        have hlen := List.length_erase_of_mem hmem
        have hpos := List.length_pos_of_mem hmem
        by_cases hnil : events.erase task.event = []
        · have htotal := Dict.total_erase hsome
            (fun key events => if tag key = ns then events.length else 0)
          rw [hnil, List.length_nil] at hlen
          rw [if_pos hnil, ← htotal]
          split_ifs
          · omega
          · omega
        · have htotal := Dict.total_set_of_get?_eq_some hsome (events.erase task.event)
            (fun key events => if tag key = ns then events.length else 0)
          rw [if_neg hnil]
          split_ifs at htotal ⊢
          · omega
          · omega
      · rw [if_pos hmem]
        exact hpending
  · intro k
    rw [events_unregister]
    split_ifs
    · exact (hok.nodup k).erase _
    · exact hok.nodup k
  · intro k e hr
    rw [hnum, hset]
    exact hok.fresh (hok.registered_unregister.mp hr).1
  · intro e he
    rw [hnum] at he
    rw [hset]
    exact hok.unset e he

theorem EventsOk.foldl_unregister (hok : EventsOk tag h) (tasks : List (WaitTask K)) :
    EventsOk tag (tasks.foldl (fun h task => h.unregister tag task) h) ∧
    (tasks.foldl (fun h task => h.unregister tag task) h).snapshotIds = h.snapshotIds ∧
    (tasks.foldl (fun h task => h.unregister tag task) h).objectSnapshots = h.objectSnapshots ∧
    (tasks.foldl (fun h task => h.unregister tag task) h).notifyTimestamps = h.notifyTimestamps ∧
    (tasks.foldl (fun h task => h.unregister tag task) h).isSet = h.isSet ∧
    (tasks.foldl (fun h task => h.unregister tag task) h).numEvents = h.numEvents ∧
    ∀ {k e}, (tasks.foldl (fun h task => h.unregister tag task) h).Registered k e ↔
      h.Registered k e ∧ ∀ task ∈ tasks, ¬ (k = task.key ∧ e = task.event) := by
  induction tasks generalizing h with
  | nil => simp [hok]
  | cons task tasks ih =>
    obtain ⟨hids, hobjects, htimes, hset, hnum⟩ := unregister_keeps tag h task
    obtain ⟨hok', hids', hobjects', htimes', hset', hnum', hreg⟩ := ih (hok.unregister task)
    refine ⟨hok', hids'.trans hids, hobjects'.trans hobjects, htimes'.trans htimes,
      hset'.trans hset, hnum'.trans hnum, ?_⟩
    intro k e
    rw [List.foldl_cons, hreg, hok.registered_unregister, List.forall_mem_cons, and_assoc]

/-! ### Setting the events of a key -/

theorem popEvents_keeps (tag : K → String) (h : Host K V τ) (key : K) :
    (h.popEvents tag key).snapshotIds = h.snapshotIds ∧
    (h.popEvents tag key).objectSnapshots = h.objectSnapshots ∧
    (h.popEvents tag key).notifyTimestamps = h.notifyTimestamps ∧
    (h.popEvents tag key).numEvents = h.numEvents := by
  unfold popEvents
  split
  · exact ⟨rfl, rfl, rfl, rfl⟩
  · simp only
    split_ifs <;> exact ⟨rfl, rfl, rfl, rfl⟩

theorem events_popEvents (tag : K → String) (h : Host K V τ) (key k : K) :
    ((h.popEvents tag key).notifierEvents.get? k).getD [] =
      if k = key then [] else (h.notifierEvents.get? k).getD [] := by
  unfold popEvents
  split
  next hnone =>
      split_ifs with hk
      · rw [hk, hnone]
        rfl
      · rfl
  next events hsome =>
      have herase : ((h.notifierEvents.erase key).get? k).getD [] =
          if k = key then [] else (h.notifierEvents.get? k).getD [] := by
        rw [Dict.get?_erase]
        split_ifs <;> rfl
      split_ifs at herase ⊢ <;> exact herase

theorem registered_popEvents :
    (h.popEvents tag key).Registered k e ↔ k ≠ key ∧ h.Registered k e := by
  unfold Registered
  rw [events_popEvents]
  split_ifs with hk
  · simp [hk]
  · simp [hk]

theorem isSet_popEvents :
    (h.popEvents tag key).isSet e = true ↔ h.Registered key e ∨ h.isSet e = true := by
  unfold popEvents Registered
  split
  next hnone => simp [hnone]
  next events hsome =>
      rw [hsome, Option.getD_some]
      split_ifs
      · simp [addPending]
      · simp

theorem EventsOk.popEvents (hok : EventsOk tag h)
    (hunique : ∀ {k e}, h.Registered k e → h.Registered key e → k = key) :
    EventsOk tag (h.popEvents tag key) := by
  obtain ⟨_, _, _, hnum⟩ := popEvents_keeps tag h key
  refine ⟨?_, ?_, ?_, ?_⟩
  · intro ns
    have hpending := hok.pending ns
    unfold Host.popEvents
    split
    · exact hpending
    next events hsome =>
      have htotal := Dict.total_erase hsome
        (fun key events => if tag key = ns then events.length else 0)
      by_cases hnil : events = []
      · rw [if_neg (not_not.mpr hnil)]
        simp only [hpending, numRegistered]
        rw [hnil, List.length_nil, ite_self, add_zero] at htotal
        rw [htotal]
      · rw [if_pos hnil, pending_addPending]
        simp only [hpending, numRegistered, addPending]
        rw [← htotal]
        split_ifs <;> omega
  · intro k
    rw [events_popEvents]
    split_ifs
    · exact List.nodup_nil
    · exact hok.nodup k
  · intro k e hr
    obtain ⟨hk, hr⟩ := registered_popEvents.mp hr
    rw [hnum]
    refine ⟨(hok.fresh hr).1, Bool.eq_false_iff.mpr (fun hset => ?_)⟩
    obtain hkey | hset := isSet_popEvents.mp hset
    · exact hk (hunique hr hkey)
    · rw [(hok.fresh hr).2] at hset
      cases hset
  · intro e he
    rw [hnum] at he
    refine Bool.eq_false_iff.mpr (fun hset => ?_)
    obtain hkey | hset := isSet_popEvents.mp hset
    · exact absurd (hok.fresh hkey).1 (by omega)
    · rw [hok.unset e he] at hset
      cases hset

/-! ### The objects -/

/-- A key that is held has an object and a time, and its snapshot id is not negative. -/
structure ObjectsOk (h : Host K V τ) : Prop where
  objects : ∀ {key id}, h.snapshotIds.get? key = some id →
    key ∈ h.objectSnapshots.keys ∧ key ∈ h.notifyTimestamps.keys
  nonneg : ∀ {key id}, h.snapshotIds.get? key = some id → 0 ≤ id

theorem objectsOk_init : ObjectsOk (init : Host K V τ) :=
  ⟨fun hid => absurd hid (by simp [init]), fun hid => absurd hid (by simp [init])⟩

theorem ObjectsOk.congr {h' : Host K V τ} (hok : ObjectsOk h)
    (hids : h'.snapshotIds = h.snapshotIds) (hobjects : h'.objectSnapshots = h.objectSnapshots)
    (htimes : h'.notifyTimestamps = h.notifyTimestamps) : ObjectsOk h' := by
  constructor
  · rw [hids, hobjects, htimes]
    exact hok.objects
  · rw [hids]
    exact hok.nonneg

/-- The update is what the host holds for the key. -/
def Current (h : Host K V τ) (key : K) (update : UpdatedObject V τ) : Prop :=
  h.snapshotIds.get? key = some update.snapshotId ∧
    h.objectSnapshots.get? key = some update.objectSnapshot

theorem ObjectsOk.updatedObject? (hok : ObjectsOk h) {id : ℤ}
    (hid : h.snapshotIds.get? key = some id) :
    ∃ update, h.updatedObject? key id = some update ∧ update.snapshotId = id ∧
      h.Current key update := by
  obtain ⟨hobject, htime⟩ := hok.objects hid
  obtain ⟨object, hobject⟩ := Option.isSome_iff_exists.mp (Dict.get?_isSome_iff.mpr hobject)
  obtain ⟨time, htime⟩ := Option.isSome_iff_exists.mp (Dict.get?_isSome_iff.mpr htime)
  refine ⟨⟨object, id, time⟩, ?_, rfl, hid, hobject⟩
  rw [Host.updatedObject?, hobject, htime]
  rfl

theorem ObjectsOk.foldlM_checkKey (hok : ObjectsOk h) (l : List (K × ℤ))
    (found : Dict K (UpdatedObject V τ)) :
    ∃ d, l.foldlM (fun d e => h.checkKey d e.1 e.2) found = some d ∧
      (∀ key ∈ found.keys, key ∈ d.keys) ∧
      (∀ {key update}, d.get? key = some update → found.get? key = some update ∨
        ∃ id, (key, id) ∈ l ∧ h.Current key update ∧ update.snapshotId ≠ id) ∧
      ∀ {key id id'}, (key, id) ∈ l → h.snapshotIds.get? key = some id' → id' ≠ id →
        key ∈ d.keys := by
  induction l generalizing found with
  | nil => exact ⟨found, rfl, fun _ => id, .inl, fun hmem => absurd hmem List.not_mem_nil⟩
  | cons e l ih =>
    obtain ⟨k, cid⟩ := e
    rw [List.foldlM_cons]
    cases hid : h.snapshotIds.get? k with
    | none =>
      obtain ⟨d, hd, hkeep, hsound, hall⟩ := ih found
      refine ⟨d, ?_, hkeep, fun hget => ?_, fun hmem hid' hne => ?_⟩
      · rw [checkKey, hid]
        exact hd
      · refine (hsound hget).imp_right ?_
        rintro ⟨id, hmem, hrest⟩
        exact ⟨id, .tail _ hmem, hrest⟩
      · obtain heq | hmem := List.mem_cons.mp hmem
        · rw [Prod.mk.injEq] at heq
          rw [heq.1, hid] at hid'
          cases hid'
        · exact hall hmem hid' hne
    | some i =>
      by_cases hne : i = cid
      · obtain ⟨d, hd, hkeep, hsound, hall⟩ := ih found
        refine ⟨d, ?_, hkeep, fun hget => ?_, fun hmem hid' hne' => ?_⟩
        · rw [checkKey, hid]
          simp only
          rw [if_neg (not_not.mpr hne)]
          exact hd
        · refine (hsound hget).imp_right ?_
          rintro ⟨id, hmem, hrest⟩
          exact ⟨id, .tail _ hmem, hrest⟩
        · obtain heq | hmem := List.mem_cons.mp hmem
          · rw [Prod.mk.injEq] at heq
            rw [heq.1, hid, Option.some.injEq] at hid'
            exact absurd (hid'.symm.trans (hne.trans heq.2.symm)) hne'
          · exact hall hmem hid' hne'
      · obtain ⟨update, hupdate, hupdateId, hcurrent⟩ := hok.updatedObject? hid
        obtain ⟨d, hd, hkeep, hsound, hall⟩ := ih (found.set k update)
        refine ⟨d, ?_, fun key hkey => hkeep key (Dict.mem_keys_set.mpr (.inr hkey)),
          fun hget => ?_, fun hmem hid' hne' => ?_⟩
        · rw [checkKey, hid]
          simp only
          rw [if_pos hne, hupdate]
          exact hd
        · obtain hold | ⟨id, hmem, hrest⟩ := hsound hget
          · rw [Dict.get?_set] at hold
            split_ifs at hold with hk
            · rw [Option.some.injEq] at hold
              subst hold
              subst hk
              exact .inr ⟨cid, .head _, hcurrent, fun heq => hne (hupdateId ▸ heq)⟩
            · exact .inl hold
          · exact .inr ⟨id, .tail _ hmem, hrest⟩
        · obtain heq | hmem := List.mem_cons.mp hmem
          · rw [Prod.mk.injEq] at heq
            exact hkeep _ (Dict.mem_keys_set.mpr (.inl heq.1))
          · exact hall hmem hid' hne'

theorem ObjectsOk.outdated (hok : ObjectsOk h) (ids : Dict K ℤ) :
    ∃ d, h.outdated ids = some d ∧
      (∀ {key update}, d.get? key = some update →
        ∃ id, ids.get? key = some id ∧ h.Current key update ∧ update.snapshotId ≠ id) ∧
      (d.entries = [] → ∀ {key id id'}, ids.get? key = some id →
        h.snapshotIds.get? key = some id' → id' = id) := by
  obtain ⟨d, hd, _, hsound, hall⟩ := hok.foldlM_checkKey ids.entries Dict.empty
  refine ⟨d, hd, fun hget => ?_, fun hnil key id id' hid hid' => ?_⟩
  · obtain hnone | ⟨id, hmem, hrest⟩ := hsound hget
    · cases hnone
    · exact ⟨id, Dict.get?_eq_some_iff.mpr hmem, hrest⟩
  · by_contra hne
    have hmem := hall (Dict.get?_eq_some_iff.mp hid) hid' hne
    rw [Dict.keys, hnil] at hmem
    cases hmem

theorem ObjectsOk.foldlM_collectTask (hok : ObjectsOk h) (l : List (WaitTask K))
    (found : Dict K (UpdatedObject V τ)) :
    ∃ d, l.foldlM h.collectTask found = some d ∧
      ∀ {key update}, d.get? key = some update → found.get? key = some update ∨
        ∃ task ∈ l, task.key = key ∧ h.Current key update := by
  induction l generalizing found with
  | nil => exact ⟨found, rfl, .inl⟩
  | cons task l ih =>
    rw [List.foldlM_cons]
    cases hid : h.snapshotIds.get? task.key with
    | none =>
      obtain ⟨d, hd, hsound⟩ := ih found
      refine ⟨d, ?_, fun hget => (hsound hget).imp_right ?_⟩
      · rw [collectTask, hid]
        exact hd
      · rintro ⟨task', hmem, hrest⟩
        exact ⟨task', .tail _ hmem, hrest⟩
    | some id =>
      obtain ⟨update, hupdate, _, hcurrent⟩ := hok.updatedObject? hid
      obtain ⟨d, hd, hsound⟩ := ih (found.set task.key update)
      refine ⟨d, ?_, fun hget => ?_⟩
      · rw [collectTask, hid]
        simp only
        rw [hupdate]
        exact hd
      · obtain hold | ⟨task', hmem, hrest⟩ := hsound hget
        · rw [Dict.get?_set] at hold
          split_ifs at hold with hk
          · rw [Option.some.injEq] at hold
            subst hold
            exact .inr ⟨task, .head _, hk.symm, hk ▸ hcurrent⟩
          · exact .inl hold
        · exact .inr ⟨task', .tail _ hmem, hrest⟩

theorem ObjectsOk.collect (hok : ObjectsOk h) (done : List (WaitTask K)) :
    ∃ d, h.collect done = some d ∧ ∀ {key update}, d.get? key = some update →
      ∃ task ∈ done, task.key = key ∧ h.Current key update := by
  obtain ⟨d, hd, hsound⟩ := hok.foldlM_collectTask done Dict.empty
  refine ⟨d, hd, fun hget => (hsound hget).resolve_left (by simp)⟩

end RayTfm.Serve.LongPoll.Host
