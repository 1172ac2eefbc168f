import RayTfm.Serve.LongPollInvariant

/-! # Runs of the long poll

`World.Inv` holds after every run in which a removed key is not notified again and the added
listeners are for new keys.  A parked request whose events are not set is then up to date. -/

namespace RayTfm.Serve.LongPoll

variable {K V τ F C : Type} [DecidableEq K] {tag : K → String}
  {removed removed' : K → Prop} {h h' : Host K V τ} {c : Client K V τ F} {key k : K} {e : ℕ}

/-! ### A key of the host changes -/

namespace Host

/-- The tables and the events after one key of `notify_changed`. -/
theorem notifyKey_spec (tag : K → String) (h : Host K V τ) (time : τ) (n : ℕ) (key : K)
    (object : V) :
    (h.notifyKey tag time n key object).snapshotIds = h.snapshotIds.set key
      (match h.snapshotIds.get? key with | some id => id + 1 | none => n) ∧
    (h.notifyKey tag time n key object).objectSnapshots = h.objectSnapshots.set key object ∧
    (h.notifyKey tag time n key object).notifyTimestamps = h.notifyTimestamps.set key time ∧
    (h.notifyKey tag time n key object).numEvents = h.numEvents :=
  popEvents_keeps tag _ key

/-- The tables and the events after one key of `remove_keys`. -/
theorem removeKey_spec (tag : K → String) (h : Host K V τ) (key : K) :
    (h.removeKey tag key).snapshotIds = h.snapshotIds.erase key ∧
    (h.removeKey tag key).objectSnapshots = h.objectSnapshots.erase key ∧
    (h.removeKey tag key).notifyTimestamps = h.notifyTimestamps.erase key ∧
    (h.removeKey tag key).numEvents = h.numEvents :=
  popEvents_keeps tag _ key

theorem ObjectsOk.next_nonneg (hok : ObjectsOk h) (n : ℕ) :
    0 ≤ (match h.snapshotIds.get? key with | some id => id + 1 | none => (n : ℤ)) := by
  cases hid : h.snapshotIds.get? key with
  | none => exact Int.natCast_nonneg n
  | some id => exact Int.le_add_one (hok.nonneg hid)

theorem ObjectsOk.notifyKey (hok : ObjectsOk h) (tag : K → String) (key : K) (time : τ) (n : ℕ)
    (object : V) :
    ObjectsOk (h.notifyKey tag time n key object) := by
  obtain ⟨hids, hobjects, htimes, _⟩ := notifyKey_spec tag h time n key object
  constructor
  · intro k id hid
    rw [hids, Dict.get?_set] at hid
    rw [hobjects, htimes, Dict.mem_keys_set, Dict.mem_keys_set]
    split_ifs at hid with hk
    · exact ⟨.inl hk, .inl hk⟩
    · exact ⟨.inr (hok.objects hid).1, .inr (hok.objects hid).2⟩
  · intro k id hid
    rw [hids, Dict.get?_set] at hid
    split_ifs at hid with hk
    · rw [Option.some.injEq] at hid
      rw [← hid]
      exact hok.next_nonneg n
    · exact hok.nonneg hid

theorem ObjectsOk.removeKey (hok : ObjectsOk h) : ObjectsOk (h.removeKey tag key) := by
  obtain ⟨hids, hobjects, htimes, _⟩ := removeKey_spec tag h key
  constructor
  · intro k id hid
    rw [hids, Dict.get?_erase] at hid
    rw [hobjects, htimes, ← Dict.get?_isSome_iff, ← Dict.get?_isSome_iff, Dict.get?_erase,
      Dict.get?_erase]
    split_ifs at hid ⊢
    rw [Dict.get?_isSome_iff, Dict.get?_isSome_iff]
    exact hok.objects hid
  · intro k id hid
    rw [hids, Dict.get?_erase] at hid
    split_ifs at hid
    exact hok.nonneg hid

/-- The answer after `asyncio.wait`; `h'` is the host after the clean-up. -/
theorem ObjectsOk.resume {tasks : List (WaitTask K)} (hok : ObjectsOk h')
    (hclean : (tasks.filter (fun task => !task.done)).foldl
      (fun h task => h.unregister tag task) h = h') :
    ∃ (r : Reply K V τ) (d : Dict K (UpdatedObject V τ)),
      h.resume tag tasks = (h', .returned r) ∧
      Request.coming (.returned r) = d.entries ∧
      ∀ {key update}, d.get? key = some update →
        ∃ task ∈ tasks.filter (fun task => task.done), task.key = key ∧ h'.Current key update := by
  unfold Host.resume
  simp only [hclean]
  split_ifs with hnil
  · exact ⟨.timeOut, Dict.empty, rfl, rfl, fun hu => absurd hu (by simp)⟩
  · obtain ⟨d, hd, hsound⟩ := hok.collect (tasks.filter (fun task => task.done))
    rw [hd]
    exact ⟨.updates d, d, rfl, rfl, hsound⟩

end Host

/-- A client when a key of the host has changed and the events of the key are set. -/
theorem Client.Ok.changeKey (hc : c.Ok h removed)
    (hunique : ∀ {k e}, h.Registered k e → h.Registered key e → k = key)
    (hreg : ∀ {k e}, h'.Registered k e ↔ k ≠ key ∧ h.Registered k e)
    (hset : ∀ {e}, h'.isSet e = true ↔ h.Registered key e ∨ h.isSet e = true)
    (hnum : h'.numEvents = h.numEvents)
    (hids : ∀ {k}, k ≠ key → h'.snapshotIds.get? k = h.snapshotIds.get? k)
    (hobjects : ∀ {k}, k ≠ key → h'.objectSnapshots.get? k = h.objectSnapshots.get? k)
    (hremoved : ∀ k, removed k → removed' k)
    (hknown : ∀ {u}, (key, u) ∈ c.history → removed' key ∨ h'.Knows key u)
    (hnewer : ∀ {id i}, c.snapshotIds.get? key = some id → h'.snapshotIds.get? key = some i →
      id < i) : c.Ok h' removed' := by
  refine ⟨hc.control, hc.listeners, hc.calls, hc.scheduled, hc.last, hc.ordered, ?_, hc.coming,
    hc.request, hc.keys, ?_⟩
  · intro k u hu
    refine ⟨(hc.known hu).1, ?_⟩
    by_cases hk : k = key
    · subst hk
      exact hknown hu
    · refine (hc.known hu).2.imp (hremoved k) (fun hknows => ?_)
      unfold Host.Knows
      rw [hids hk, hobjects hk]
      exact hknows
  · intro ids tasks hreq task htask
    obtain ⟨hlt, hdone, hregistered, hsame, htaskNewer⟩ := hc.tasks hreq task htask
    have hclear : h'.isSet task.event = false →
        h.isSet task.event = false ∧ task.key ≠ key := by
      intro hs
      rw [Bool.eq_false_iff, ne_eq, hset, not_or, ← ne_eq, ← Bool.eq_false_iff] at hs
      exact ⟨hs.2, fun hk => hs.1 (hk ▸ hregistered hs.2)⟩
    refine ⟨hnum ▸ hlt, fun hd => hset.mpr (.inr (hdone hd)), fun hs => ?_, fun hs => ?_,
      fun hs => ?_⟩
    · exact hreg.mpr ⟨(hclear hs).2, hregistered (hclear hs).1⟩
    · rw [hids (hclear hs).2]
      exact hsame (hclear hs).1
    · intro id i hid hi
      by_cases hk : task.key = key
      · rw [hk] at hid hi
        exact hnewer (hc.request (by rw [hreq]; rfl) hid) hi
      · -- an event of another key was set before
        have hset' : h.isSet task.event = true := by
          by_contra hs'
          have hr := hregistered (Bool.eq_false_iff.mpr hs')
          obtain hkey | hs := hset.mp hs
          · exact hk (hunique hr hkey)
          · exact hs' hs
        rw [hids hk] at hi
        exact htaskNewer hset' hid hi

/-! ### The invariant of the system -/

namespace Event

/-- The keys that are removed. -/
def removedKeys : Event K V τ F C → List K
  | .removeKeys keys => keys
  | _ => []

/-- The keys that are notified. -/
def notifiedKeys : Event K V τ F C → List K
  | .notifyChanged updates _ _ => updates.keys
  | _ => []

/-- The keys a client begins to listen to. -/
def addedKeys [DecidableEq C] (c : C) : Event K V τ F C → List K
  | .addKeyListeners c' keyListeners => if c' = c then keyListeners.keys else []
  | _ => []

end Event

namespace World

variable {w w' : World K V τ F C}

/-- What holds of the host and its clients. -/
structure Inv (tag : K → String) (removed : K → Prop) (w : World K V τ F C) : Prop where
  objects : w.host.ObjectsOk
  events : Host.EventsOk tag w.host
  gone : ∀ {k}, removed k → w.host.snapshotIds.get? k = none
  client : ∀ c, (w.clients c).Ok w.host removed
  owner : ∀ {k e}, w.host.Registered k e →
    ∃ c, ∃ task ∈ (w.clients c).request.tasks, task.key = k ∧ task.event = e
  distinct : ∀ {c c' task task'}, task ∈ (w.clients c).request.tasks →
    task' ∈ (w.clients c').request.tasks → task.event = task'.event →
    c = c' ∧ task.key = task'.key

theorem Inv.init (keyListeners : C → Dict K F) :
    Inv tag (fun _ => False) (init keyListeners : World K V τ F C) where
  objects := Host.objectsOk_init
  events := Host.eventsOk_init
  gone hgone := hgone.elim
  client c := .init (keyListeners c)
  owner hr := absurd hr List.not_mem_nil
  distinct htask := absurd htask List.not_mem_nil

theorem Inv.unique (hw : Inv tag removed w) (hk : w.host.Registered k e)
    (hkey : w.host.Registered key e) : k = key := by
  obtain ⟨c, task, htask, rfl, rfl⟩ := hw.owner hk
  obtain ⟨c', task', htask', rfl, hevent⟩ := hw.owner hkey
  exact (hw.distinct htask htask' hevent.symm).2

theorem Inv.notifyKey (hw : Inv tag removed w) (hkey : ¬ removed key) (time : τ) (n : ℕ)
    (object : V) :
    Inv tag removed { w with host := w.host.notifyKey tag time n key object } := by
  obtain ⟨hids, hobjects, _, hnum⟩ := Host.notifyKey_spec tag w.host time n key object
  have hreg : ∀ {k e}, (w.host.notifyKey tag time n key object).Registered k e ↔
      k ≠ key ∧ w.host.Registered k e := Host.registered_popEvents
  have hset : ∀ {e}, (w.host.notifyKey tag time n key object).isSet e = true ↔
      w.host.Registered key e ∨ w.host.isSet e = true := Host.isSet_popEvents
  have hobjectsOk := hw.objects.notifyKey tag key time n object
  refine ⟨hobjectsOk, ?_, ?_, ?_, ?_, hw.distinct⟩
  · refine Host.EventsOk.popEvents ⟨hw.events.pending, hw.events.nodup, hw.events.fresh,
      hw.events.unset⟩ hw.unique
  · intro k hk
    rw [hids, Dict.get?_set_ne _ _ (fun heq : k = key => hkey (heq ▸ hk))]
    exact hw.gone hk
  · intro c
    have hget : (w.host.notifyKey tag time n key object).snapshotIds.get? key = some
        (match w.host.snapshotIds.get? key with | some id => id + 1 | none => n) := by
      rw [hids, Dict.get?_set_self]
    refine (hw.client c).changeKey hw.unique hreg hset hnum ?_ ?_ (fun _ => id) ?_ ?_
    · intro k hk
      rw [hids, Dict.get?_set_ne _ _ hk]
    · intro k hk
      rw [hobjects, Dict.get?_set_ne _ _ hk]
    · intro u hu
      obtain hgone | ⟨i, hi, hle, _⟩ := ((hw.client c).known hu).2
      · exact absurd hgone hkey
      · rw [hi] at hget
        exact .inr ⟨i + 1, hget, by omega, fun heq => absurd heq (by omega)⟩
    · intro id i hid hi
      obtain rfl | ⟨i', hi', hle⟩ := (hw.client c).id_le hkey hid
      · exact lt_of_lt_of_le (by decide) (hobjectsOk.nonneg hi)
      · rw [hget, hi', Option.some.injEq] at hi
        simp only at hi
        omega
  · intro k e hr
    exact hw.owner (hreg.mp hr).2

theorem Inv.notifyChanged (hw : Inv tag removed w) (updates : Dict K V)
    (hkeys : ∀ key ∈ updates.keys, ¬ removed key) (time : τ) (initialId : K → ℕ) :
    Inv tag removed { w with host := w.host.notifyChanged tag updates time initialId } := by
  unfold Host.notifyChanged
  unfold Dict.keys at hkeys
  generalize updates.entries = l at hkeys ⊢
  induction l generalizing w with
  | nil => exact hw
  | cons e l ih =>
    rw [List.map_cons, List.forall_mem_cons] at hkeys
    exact ih (hw.notifyKey hkeys.1 time (initialId e.1) e.2) hkeys.2

theorem Inv.removeKey (hw : Inv tag removed w) (key : K) :
    Inv tag (fun k => removed k ∨ k = key) { w with host := w.host.removeKey tag key } := by
  obtain ⟨hids, hobjects, _, hnum⟩ := Host.removeKey_spec tag w.host key
  have hreg : ∀ {k e}, (w.host.removeKey tag key).Registered k e ↔
      k ≠ key ∧ w.host.Registered k e := Host.registered_popEvents
  have hset : ∀ {e}, (w.host.removeKey tag key).isSet e = true ↔
      w.host.Registered key e ∨ w.host.isSet e = true := Host.isSet_popEvents
  have hget : (w.host.removeKey tag key).snapshotIds.get? key = none := by
    rw [hids, Dict.get?_erase, if_pos rfl]
  refine ⟨hw.objects.removeKey, ?_, ?_, ?_, ?_, hw.distinct⟩
  · refine Host.EventsOk.popEvents ⟨hw.events.pending, hw.events.nodup, hw.events.fresh,
      hw.events.unset⟩ hw.unique
  · rintro k (hk | rfl)
    · show Dict.get? _ k = none
      rw [hids, Dict.get?_erase, hw.gone hk, ite_self]
    · exact hget
  · intro c
    refine (hw.client c).changeKey hw.unique hreg hset hnum ?_ ?_ (fun _ => .inl)
      (fun _ => .inl (.inr rfl)) (fun _ hi => ?_)
    · intro k hk
      rw [hids, Dict.get?_erase, if_neg hk]
    · intro k hk
      rw [hobjects, Dict.get?_erase, if_neg hk]
    · rw [hget] at hi
      cases hi
  · intro k e hr
    exact hw.owner (hreg.mp hr).2

theorem Inv.removeKeys (hw : Inv tag removed w) (keys : List K) :
    Inv tag (fun k => removed k ∨ k ∈ keys) { w with host := w.host.removeKeys tag keys } := by
  unfold Host.removeKeys
  induction keys generalizing w removed with
  | nil => simpa using hw
  | cons key keys ih =>
    have htail := ih (hw.removeKey key)
    simp only [or_assoc, ← List.mem_cons] at htail
    exact htail

/-! ### A client moves on -/

section
variable [DecidableEq C] {c : C} {client : Client K V τ F}

theorem Inv.setClient (hw : Inv tag removed w) (h' : Host K V τ) (hobjects : h'.ObjectsOk)
    (hevents : Host.EventsOk tag h') (hids : h'.snapshotIds = w.host.snapshotIds)
    (hclient : client.Ok h' removed) (hothers : ∀ c' ≠ c, (w.clients c').Ok h' removed)
    (howner : ∀ {k e}, h'.Registered k e →
      (∃ task ∈ client.request.tasks, task.key = k ∧ task.event = e) ∨
        ∃ c' ≠ c, ∃ task ∈ (w.clients c').request.tasks, task.key = k ∧ task.event = e)
    (hown : ∀ task ∈ client.request.tasks, ∀ task' ∈ client.request.tasks,
      task.event = task'.event → task.key = task'.key)
    (hfar : ∀ task ∈ client.request.tasks, ∀ c' ≠ c, ∀ task' ∈ (w.clients c').request.tasks,
      task.event ≠ task'.event) :
    Inv tag removed ({ w with host := h' }.setClient c client) := by
  have hself : Function.update w.clients c client c = client := Function.update_self ..
  have hne : ∀ {c'}, c' ≠ c → Function.update w.clients c client c' = w.clients c' :=
    fun hc' => Function.update_of_ne hc' _ _
  refine ⟨hobjects, hevents, fun hk => ?_, fun c' => ?_, fun hr => ?_, ?_⟩
  · show h'.snapshotIds.get? _ = none
    rw [hids]
    exact hw.gone hk
  · show (Function.update w.clients c client c').Ok h' removed
    by_cases hc' : c' = c
    · rw [hc', hself]
      exact hclient
    · rw [hne hc']
      exact hothers c' hc'
  · obtain ⟨task, htask, hrest⟩ | ⟨c', hc', task, htask, hrest⟩ := howner hr
    · refine ⟨c, task, ?_, hrest⟩
      show task ∈ (Function.update w.clients c client c).request.tasks
      rw [hself]
      exact htask
    · refine ⟨c', task, ?_, hrest⟩
      show task ∈ (Function.update w.clients c client c').request.tasks
      rw [hne hc']
      exact htask
  · intro c₁ c₂ task task' htask htask' hevent
    change task ∈ (Function.update w.clients c client c₁).request.tasks at htask
    change task' ∈ (Function.update w.clients c client c₂).request.tasks at htask'
    by_cases h₁ : c₁ = c
    · rw [h₁, hself] at htask
      by_cases h₂ : c₂ = c
      · rw [h₂, hself] at htask'
        exact ⟨h₁.trans h₂.symm, hown task htask task' htask' hevent⟩
      · rw [hne h₂] at htask'
        exact absurd hevent (hfar task htask c₂ h₂ task' htask')
    · rw [hne h₁] at htask
      by_cases h₂ : c₂ = c
      · rw [h₂, hself] at htask'
        exact absurd hevent.symm (hfar task' htask' c₁ h₁ task htask)
      · rw [hne h₂] at htask'
        exact hw.distinct htask htask' hevent

theorem Inv.setClient_same (hw : Inv tag removed w) (hclient : client.Ok w.host removed)
    (htasks : ∀ k e, (∃ task ∈ client.request.tasks, task.key = k ∧ task.event = e) ↔
      ∃ task ∈ (w.clients c).request.tasks, task.key = k ∧ task.event = e) :
    Inv tag removed (w.setClient c client) := by
  refine hw.setClient w.host hw.objects hw.events rfl hclient (fun c' _ => hw.client c')
    ?_ ?_ ?_
  · intro k e hr
    obtain ⟨c', task, htask, hrest⟩ := hw.owner hr
    by_cases hc' : c' = c
    · rw [hc'] at htask
      exact .inl ((htasks k e).mpr ⟨task, htask, hrest⟩)
    · exact .inr ⟨c', hc', task, htask, hrest⟩
  · intro task htask task' htask' hevent
    obtain ⟨old, hold, hkey, holdEvent⟩ := (htasks _ _).mp ⟨task, htask, rfl, rfl⟩
    obtain ⟨old', hold', hkey', holdEvent'⟩ := (htasks _ _).mp ⟨task', htask', rfl, rfl⟩
    rw [← hkey, ← hkey']
    exact (hw.distinct hold hold' (holdEvent.trans (hevent.trans holdEvent'.symm))).2
  · intro task htask c' hc' task' htask' hevent
    obtain ⟨old, hold, _, holdEvent⟩ := (htasks _ _).mp ⟨task, htask, rfl, rfl⟩
    exact hc' (hw.distinct hold htask' (holdEvent.trans hevent)).1.symm

omit [DecidableEq K] [DecidableEq C] in
theorem exists_parked {r : Request K V τ} {task : WaitTask K} (htask : task ∈ r.tasks) :
    ∃ ids tasks, r = .parked ids tasks ∧ task ∈ tasks := by
  cases r with
  | parked ids tasks => exact ⟨ids, tasks, rfl, htask⟩
  | _ => cases htask

theorem Inv.setRequest (hw : Inv tag removed w) (hreq : (w.clients c).request ≠ .none)
    (hold : (w.clients c).request.tasks = []) {r : Request K V τ} (hr : r ≠ .none)
    (htasks : r.tasks = []) (hids : r.ids? = none) (updates : Dict K (UpdatedObject V τ))
    (hcoming : r.coming = updates.entries)
    (hupdates : ∀ {k u}, updates.get? k = some u → w.host.Current k u ∧
      (w.clients c).lastId k < u.snapshotId ∧ k ∈ (w.clients c).keyListeners.keys) :
    Inv tag removed (w.setRequest c r) := by
  refine hw.setClient_same
    ((hw.client c).setRequest hw.objects hreq hr updates hcoming hupdates ?_ ?_ ?_) ?_
  · intro ids' hids'
    rw [hids] at hids'
    cases hids'
  · rintro ids' tasks rfl
    exact absurd hids (by simp [Request.ids?])
  · rintro ids' tasks rfl
    exact absurd hids (by simp [Request.ids?])
  · intro k e
    simp only [htasks, hold]

variable {ids : Dict K ℤ}

theorem Inv.park (hw : Inv tag removed w) (hreq : (w.clients c).request = .sent ids)
    (hsame : ∀ {key id id'}, ids.get? key = some id → w.host.snapshotIds.get? key = some id' →
      id' = id) :
    Inv tag removed ({ w with host := (w.host.registerAll tag ids.keys).1 }.setRequest c
      (.parked ids (w.host.registerAll tag ids.keys).2)) := by
  obtain ⟨hids, hobjects, htimes, hset, hnum⟩ := Host.registerAll_keeps tag w.host ids.keys
  obtain ⟨hkeys, hevents, hfresh⟩ := Host.registerAll_tasks tag w.host ids.keys
  have hreg : ∀ {k e}, (w.host.registerAll tag ids.keys).1.Registered k e ↔
      w.host.Registered k e ∨ ∃ task ∈ (w.host.registerAll tag ids.keys).2,
        task.key = k ∧ task.event = e := Host.registered_registerAll ids.keys
  have hok : (w.host.registerAll tag ids.keys).1.ObjectsOk :=
    hw.objects.congr hids hobjects htimes
  have hframe : ∀ c', (w.clients c').Ok (w.host.registerAll tag ids.keys).1 removed :=
    fun c' => (hw.client c').frame hids hobjects hset hnum (fun task _ hr => hreg.mpr (.inl hr))
  refine hw.setClient _ hok (hw.events.registerAll ids.keys) hids ?_ (fun c' _ => hframe c') ?_ ?_ ?_
  · refine (hframe c).setRequest hok (by rw [hreq]; simp) (by simp) Dict.empty rfl
      (fun hu => absurd hu (by simp)) ?_ ?_ ?_
    · intro ids' hids'
      rw [← hids', hreq]
      rfl
    · intro ids' tasks heq
      rw [Request.parked.injEq] at heq
      rw [← heq.1, ← heq.2]
      exact hkeys
    · intro ids' tasks heq task htask
      rw [Request.parked.injEq] at heq
      rw [← heq.2] at htask
      obtain ⟨hge, hlt, hdone⟩ := hfresh task htask
      have hunset : w.host.isSet task.event = false := hw.events.unset _ hge
      refine ⟨hlt, fun hd => ?_, fun _ => hreg.mpr (.inr ⟨task, htask, rfl, rfl⟩), ?_, ?_⟩
      · rw [hdone] at hd
        cases hd
      · intro _ id i hid hi
        rw [hids] at hi
        rw [← heq.1] at hid
        exact (hsame hid hi).symm
      · intro hs
        rw [hset, hunset] at hs
        cases hs
  · intro k e hr
    obtain hr | hnew := hreg.mp hr
    · obtain ⟨c', task, htask, hrest⟩ := hw.owner hr
      refine .inr ⟨c', ?_, task, htask, hrest⟩
      rintro rfl
      rw [hreq] at htask
      cases htask
    · exact .inl hnew
  · intro task htask task' htask' hevent
    rw [List.inj_on_of_nodup_map hevents htask htask' hevent]
  · -- the events of the other clients are older
    intro task htask c' _ task' htask' hevent
    have hge := (hfresh task htask).1
    obtain ⟨ids', tasks, hparked, htask'⟩ := exists_parked htask'
    have hlt := ((hw.client c').tasks hparked task' htask').lt
    omega

theorem Inv.listenForChange (hw : Inv tag removed w) (hreq : (w.clients c).request = .sent ids) :
    Inv tag removed ({ w with host := (w.host.listenForChange tag ids).1 }.setRequest c
      (w.host.listenForChange tag ids).2) := by
  have hc := hw.client c
  have hsent : (w.clients c).request ≠ .none := by
    rw [hreq]
    simp
  have hnoTasks : (w.clients c).request.tasks = [] := by
    rw [hreq]
    rfl
  unfold Host.listenForChange
  split_ifs with hnil
  · exact hw.setRequest hsent hnoTasks (by simp) rfl rfl Dict.empty rfl
      (fun hu => absurd hu (by simp))
  · obtain ⟨updates, hupdates, hsound, hall⟩ := hw.objects.outdated ids
    rw [hupdates]
    simp only
    split_ifs with hfound
    · refine hw.setRequest hsent hnoTasks (by simp) rfl rfl updates rfl (fun hu => ?_)
      obtain ⟨id, hid, hcurrent, hne⟩ := hsound hu
      have hid' := hc.request (by rw [hreq]; rfl) hid
      refine ⟨hcurrent, ?_, ?_⟩
      · rw [← hc.last hid']
        have hheld : ¬ removed _ := fun hk => by
          rw [Host.Current, hw.gone hk] at hcurrent
          exact absurd hcurrent.1 (by simp)
        obtain rfl | ⟨i, hi, hle⟩ := hc.id_le hheld hid'
        · exact lt_of_lt_of_le (by decide) (hw.objects.nonneg hcurrent.1)
        · rw [hcurrent.1, Option.some.injEq] at hi
          exact lt_of_le_of_ne (hi ▸ hle) (Ne.symm hne)
      · rw [← hc.listeners, ← Dict.get?_isSome_iff, hid']
        rfl
    · exact hw.park hreq (hall (not_not.mp hfound))

theorem Inv.wakeUp (hw : Inv tag removed w) (hreq : (w.clients c).request = .sleeping) :
    Inv tag removed (w.setRequest c (.returned (.updates Dict.empty))) :=
  hw.setRequest (by rw [hreq]; simp) (by rw [hreq]; rfl) (by simp) rfl rfl
    Dict.empty rfl (fun hu => absurd hu (by simp))

variable {tasks : List (WaitTask K)}

theorem Inv.finishTask (hw : Inv tag removed w)
    (hreq : (w.clients c).request = .parked ids tasks) (hset : w.host.isSet e = true) :
    Inv tag removed (w.setRequest c (.parked ids (tasks.map (finish e)))) := by
  have hfinish : ∀ task : WaitTask K,
      (finish e task).key = task.key ∧ (finish e task).event = task.event := by
    intro task
    unfold finish
    split_ifs <;> exact ⟨rfl, rfl⟩
  refine hw.setClient_same ((hw.client c).setRequest hw.objects (by rw [hreq]; simp) (by simp)
    Dict.empty rfl (fun hu => absurd hu (by simp)) ?_ ?_ ?_) ?_
  · intro ids' hids'
    rw [← hids', hreq]
    rfl
  · intro ids' tasks' heq
    rw [Request.parked.injEq] at heq
    rw [← heq.1, ← heq.2, List.map_map, ← (hw.client c).keys hreq]
    exact List.map_congr_left (fun task _ => (hfinish task).1)
  · intro ids' tasks' heq task' htask'
    rw [Request.parked.injEq] at heq
    rw [← heq.2] at htask'
    obtain ⟨task, htask, rfl⟩ := List.mem_map.mp htask'
    obtain ⟨hlt, hdone, hregistered, hsame, hnewer⟩ := (hw.client c).tasks hreq task htask
    obtain ⟨hkey, hevent⟩ := hfinish task
    rw [← heq.1]
    refine ⟨hevent ▸ hlt, ?_, ?_, ?_, ?_⟩
    · rw [hevent]
      unfold finish
      split_ifs with he
      · exact fun _ => he ▸ hset
      · exact hdone
    · rw [hevent, hkey]
      exact hregistered
    · rw [hevent, hkey]
      exact hsame
    · rw [hevent, hkey]
      exact hnewer
  · intro k e'
    rw [hreq]
    simp [Request.tasks, hfinish]

omit [DecidableEq C] in
theorem Inv.collect_newer (hw : Inv tag removed w) {done : List (WaitTask K)}
    (hreq : (w.clients c).request = .parked ids tasks)
    (hdone : ∀ task ∈ done, task ∈ tasks ∧ task.done = true) {u : UpdatedObject V τ}
    (hu : ∃ task ∈ done, task.key = k ∧ w.host.Current k u) :
    w.host.Current k u ∧ (w.clients c).lastId k < u.snapshotId ∧
      k ∈ (w.clients c).keyListeners.keys := by
  obtain ⟨task, htask, rfl, hcurrent⟩ := hu
  have hc := hw.client c
  obtain ⟨htask, hd⟩ := hdone task htask
  have hkey : task.key ∈ ids.keys := by
    rw [← hc.keys hreq]
    exact List.mem_map_of_mem htask
  obtain ⟨id, hid⟩ := Option.isSome_iff_exists.mp (Dict.get?_isSome_iff.mpr hkey)
  have hid' := hc.request (by rw [hreq]; rfl) hid
  have htaskOk := hc.tasks hreq task htask
  refine ⟨hcurrent, ?_, ?_⟩
  · rw [← hc.last hid']
    exact htaskOk.newer (htaskOk.done hd) hid hcurrent.1
  · rw [← hc.listeners, ← Dict.get?_isSome_iff, hid']
    rfl

theorem Inv.resume (hw : Inv tag removed w) {order : List (WaitTask K)}
    (hreq : (w.clients c).request = .parked ids tasks) (hperm : order.Perm tasks) :
    Inv tag removed ({ w with host := (w.host.resume tag order).1 }.setRequest c
      (w.host.resume tag order).2) := by
  obtain ⟨hevents, hids, hobjects, htimes, hset, hnum, hreg⟩ :=
    hw.events.foldl_unregister (order.filter (fun task => !task.done))
  generalize hh : (order.filter (fun task => !task.done)).foldl
    (fun h task => h.unregister tag task) w.host = h' at *
  have hok : h'.ObjectsOk := hw.objects.congr hids hobjects htimes
  obtain ⟨r, updates, heq, hcoming, hupdates⟩ := hok.resume hh
  rw [heq]
  have hcurrent : ∀ {k u}, h'.Current k u → w.host.Current k u := by
    intro k u hu
    unfold Host.Current at hu ⊢
    rw [← hids, ← hobjects]
    exact hu
  have hmine : (w.clients c).request.tasks = tasks := by
    rw [hreq]
    rfl
  -- the tasks of the request that are not done are unregistered
  have hclear : ∀ {k e}, h'.Registered k e → ∃ c' ≠ c,
      ∃ task ∈ (w.clients c').request.tasks, task.key = k ∧ task.event = e := by
    intro k e hr
    obtain ⟨hold, hnot⟩ := hreg.mp hr
    obtain ⟨c', task, htask, hk, he⟩ := hw.owner hold
    refine ⟨c', ?_, task, htask, hk, he⟩
    rintro rfl
    rw [hmine] at htask
    have hdone : task.done = false := by
      rw [Bool.eq_false_iff]
      intro hd
      have hs := ((hw.client c').tasks hreq task htask).done hd
      rw [he, (hw.events.fresh hold).2] at hs
      cases hs
    exact hnot task (List.mem_filter.mpr ⟨hperm.mem_iff.mpr htask, by rw [hdone]; rfl⟩)
      ⟨hk.symm, he.symm⟩
  refine hw.setClient _ hok hevents hids ?_ ?_ (fun hr => .inr (hclear hr))
    (fun task htask => absurd htask List.not_mem_nil)
    (fun task htask => absurd htask List.not_mem_nil)
  · refine Client.Ok.frame (h := w.host) ?_ hids hobjects hset hnum.ge
      (fun task htask => absurd htask List.not_mem_nil)
    refine (hw.client c).setRequest hw.objects (by rw [hreq]; simp) (by simp) updates hcoming
      (fun hu => ?_) (fun hids' => absurd hids' (by simp [Request.ids?]))
      (fun heq' => absurd heq' (by simp)) (fun heq' => absurd heq' (by simp))
    obtain ⟨task, htask, hk, hu⟩ := hupdates hu
    refine hw.collect_newer hreq (fun task htask => ?_) ⟨task, htask, hk, hcurrent hu⟩
    obtain ⟨htask, hd⟩ := List.mem_filter.mp htask
    exact ⟨hperm.mem_iff.mp htask, hd⟩
  · intro c' hc'
    refine (hw.client c').frame hids hobjects hset hnum.ge (fun task htask hr => ?_)
    refine hreg.mpr ⟨hr, fun own hown hsame => hc' ?_⟩
    have hmem : own ∈ (w.clients c).request.tasks := by
      rw [hmine]
      exact hperm.mem_iff.mp (List.mem_filter.mp hown).1
    exact (hw.distinct htask hmem hsame.2).1

theorem Inv.setClient_idle (hw : Inv tag removed w) (hclient : client.Ok w.host removed)
    (htasks : client.request.tasks = (w.clients c).request.tasks) :
    Inv tag removed (w.setClient c client) :=
  hw.setClient_same hclient (fun k e => by rw [htasks])

/-! ### Runs -/

variable {event : Event K V τ F C}

theorem Inv.step (hw : Inv tag removed w)
    (hstep : step tag w event = some w') (hnotified : ∀ k ∈ event.notifiedKeys, ¬ removed k)
    (hadded : ∀ c, ∀ k ∈ event.addedKeys c, k ∉ (w.clients c).keyListeners.keys) :
    Inv tag (fun k => removed k ∨ k ∈ event.removedKeys) w' := by
  have hkeep : Inv tag removed w' → event.removedKeys = [] →
      Inv tag (fun k => removed k ∨ k ∈ event.removedKeys) w' := by
    intro hw' hnil
    rw [hnil]
    simpa using hw'
  cases event with
  | notifyChanged updates time initialId =>
    rw [World.step, Option.some.injEq] at hstep
    exact hkeep (hstep ▸ hw.notifyChanged updates hnotified time initialId) rfl
  | removeKeys keys =>
    rw [World.step, Option.some.injEq] at hstep
    exact hstep ▸ hw.removeKeys keys
  | addKeyListeners c keyListeners =>
    rw [World.step, Option.some.injEq] at hstep
    refine hkeep (hstep ▸ hw.setClient_idle ((hw.client c).addKeyListeners (fun k hk => ?_)) rfl) rfl
    refine hadded c k ?_
    rw [Event.addedKeys, if_pos rfl]
    exact hk
  | runCallable c =>
    rw [World.step] at hstep
    cases hloop : (w.clients c).eventLoop with
    | nil => simp [hloop] at hstep
    | cons callable rest =>
      simp only [hloop, Option.some.injEq] at hstep
      refine hkeep (hstep ▸ hw.setClient_idle ((hw.client c).runCallable hloop) ?_) rfl
      obtain ⟨_, _, _, _, _, hreq | hreq⟩ := Client.runCallable_cases (w.clients c) callable rest
      · rw [hreq]
      · rw [hreq, (hw.client c).control.request_of_loop hloop]
        rfl
  | listenForChange c =>
    rw [World.step] at hstep
    cases hreq : (w.clients c).request with
    | sent ids =>
      simp only [hreq, Option.some.injEq] at hstep
      exact hkeep (hstep ▸ hw.listenForChange hreq) rfl
    | _ => simp [hreq] at hstep
  | wakeUp c =>
    rw [World.step] at hstep
    cases hreq : (w.clients c).request with
    | sleeping =>
      simp only [hreq, Option.some.injEq] at hstep
      exact hkeep (hstep ▸ hw.wakeUp hreq) rfl
    | _ => simp [hreq] at hstep
  | finishTask c e =>
    rw [World.step] at hstep
    cases hreq : (w.clients c).request with
    | parked ids tasks =>
      simp only [hreq] at hstep
      split_ifs at hstep with hset
      rw [Option.some.injEq] at hstep
      exact hkeep (hstep ▸ hw.finishTask hreq hset) rfl
    | _ => simp [hreq] at hstep
  | resume c order =>
    rw [World.step] at hstep
    cases hreq : (w.clients c).request with
    | parked ids tasks =>
      simp only [hreq] at hstep
      split_ifs at hstep with hperm
      rw [Option.some.injEq] at hstep
      exact hkeep (hstep ▸ hw.resume hreq (List.isPerm_iff.mp hperm)) rfl
    | _ => simp [hreq] at hstep
  | deliver c =>
    rw [World.step] at hstep
    cases hreq : (w.clients c).request with
    | returned reply =>
      simp only [hreq, Option.some.injEq] at hstep
      refine hkeep (hstep ▸ hw.setClient_idle ((hw.client c).processUpdate hreq) ?_) rfl
      rw [(Client.processUpdate_keeps (w.clients c) reply).2.2.2.1, hreq]
      rfl
    | _ => simp [hreq] at hstep
  | processOne c =>
    rw [World.step] at hstep
    cases hprocessing : (w.clients c).processing with
    | nil => simp [hprocessing] at hstep
    | cons entry rest =>
      obtain ⟨key, update⟩ := entry
      simp only [hprocessing, Option.some.injEq] at hstep
      refine hkeep (hstep ▸ hw.setClient_idle ((hw.client c).processOne hprocessing) ?_) rfl
      rw [Client.processOne]
      split
      · rfl
      · rfl

omit [DecidableEq K] in
theorem listeners_setClient (w : World K V τ F C) (c' : C) (client : Client K V τ F)
    (hsame : client.keyListeners = (w.clients c').keyListeners) (c : C) :
    ((w.setClient c' client).clients c).keyListeners = (w.clients c).keyListeners := by
  show (Function.update w.clients c' client c).keyListeners = _
  rw [Function.update_apply]
  split_ifs with hc
  · rw [hsame, hc]
  · rfl

omit [DecidableEq K] in
theorem listeners_setRequest (w : World K V τ F C) (h' : Host K V τ) (c' : C) (r : Request K V τ)
    (c : C) : (({ w with host := h' }.setRequest c' r).clients c).keyListeners =
      (w.clients c).keyListeners :=
  listeners_setClient { w with host := h' } c' { w.clients c' with request := r } rfl c

theorem mem_listeners_step (hstep : step tag w event = some w') (c : C)
    (k : K) : k ∈ (w'.clients c).keyListeners.keys ↔
      k ∈ (w.clients c).keyListeners.keys ∨ k ∈ event.addedKeys c := by
  have hkeep : (w'.clients c).keyListeners = (w.clients c).keyListeners →
      event.addedKeys c = [] → (k ∈ (w'.clients c).keyListeners.keys ↔
        k ∈ (w.clients c).keyListeners.keys ∨ k ∈ event.addedKeys c) := by
    intro hsame hnil
    rw [hsame, hnil]
    simp
  cases event with
  | notifyChanged updates time initialId =>
    rw [World.step, Option.some.injEq] at hstep
    exact hkeep (by rw [← hstep]) rfl
  | removeKeys keys =>
    rw [World.step, Option.some.injEq] at hstep
    exact hkeep (by rw [← hstep]) rfl
  | addKeyListeners c' keyListeners =>
    rw [World.step, Option.some.injEq] at hstep
    rw [← hstep, Event.addedKeys]
    show k ∈ (Function.update w.clients c' _ c).keyListeners.keys ↔ _
    rw [Function.update_apply]
    by_cases hc : c = c'
    · rw [if_pos hc, if_pos hc.symm, hc, Client.addKeyListeners, Dict.mem_keys_setAll, or_comm]
      exact Iff.rfl
    · rw [if_neg hc, if_neg (Ne.symm hc)]
      simp
  | runCallable c' =>
    rw [World.step] at hstep
    split at hstep
    · cases hstep
    next callable rest _ =>
        rw [Option.some.injEq] at hstep
        exact hkeep (hstep ▸ listeners_setClient w c' _
          (Client.runCallable_cases (w.clients c') callable rest).1 c) rfl
  | listenForChange c' =>
    rw [World.step] at hstep
    split at hstep
    · rw [Option.some.injEq] at hstep
      exact hkeep (hstep ▸ listeners_setRequest w _ c' _ c) rfl
    · cases hstep
  | wakeUp c' =>
    rw [World.step] at hstep
    split at hstep
    · rw [Option.some.injEq] at hstep
      exact hkeep (hstep ▸ listeners_setRequest w w.host c' _ c) rfl
    · cases hstep
  | finishTask c' e =>
    rw [World.step] at hstep
    split at hstep
    · split_ifs at hstep
      rw [Option.some.injEq] at hstep
      exact hkeep (hstep ▸ listeners_setRequest w w.host c' _ c) rfl
    · cases hstep
  | resume c' order =>
    rw [World.step] at hstep
    split at hstep
    · split_ifs at hstep
      rw [Option.some.injEq] at hstep
      exact hkeep (hstep ▸ listeners_setRequest w _ c' _ c) rfl
    · cases hstep
  | deliver c' =>
    rw [World.step] at hstep
    split at hstep
    next reply _ =>
      rw [Option.some.injEq] at hstep
      exact hkeep (hstep ▸ listeners_setClient w c' _
        (Client.processUpdate_keeps (w.clients c') reply).1 c) rfl
    · cases hstep
  | processOne c' =>
    rw [World.step] at hstep
    split at hstep
    · cases hstep
    next key update rest _ =>
        rw [Option.some.injEq] at hstep
        refine hkeep (hstep ▸ listeners_setClient w c' _ ?_ c) rfl
        rw [Client.processOne]
        split <;> rfl

theorem Inv.run {events : List (Event K V τ F C)} (hw : Inv tag removed w)
    (hrun : run tag w events = some w')
    (hremoved : events.Pairwise (fun a b => ∀ k ∈ a.removedKeys, k ∉ b.notifiedKeys))
    (hnotified : ∀ event ∈ events, ∀ k ∈ event.notifiedKeys, ¬ removed k)
    (hadded : ∀ c, (events.flatMap (Event.addedKeys c)).Nodup ∧
      ∀ k ∈ events.flatMap (Event.addedKeys c), k ∉ (w.clients c).keyListeners.keys) :
    ∃ removed, Inv tag removed w' := by
  induction events generalizing w removed with
  | nil =>
    rw [World.run, List.foldlM_nil, Option.pure_def, Option.some.injEq] at hrun
    exact ⟨removed, hrun ▸ hw⟩
  | cons event events ih =>
    rw [World.run, List.foldlM_cons, Option.bind_eq_bind, Option.bind_eq_some_iff] at hrun
    obtain ⟨w₁, hstep, hrun⟩ := hrun
    rw [List.pairwise_cons] at hremoved
    rw [List.forall_mem_cons] at hnotified
    simp only [List.flatMap_cons, List.nodup_append, List.mem_append] at hadded
    refine ih (hw.step hstep hnotified.1 (fun c k hk => (hadded c).2 k (.inl hk))) hrun
      hremoved.2 ?_ (fun c => ⟨(hadded c).1.2.1, ?_⟩)
    · rintro later hlater k hk (hold | hnow)
      · exact hnotified.2 later hlater k hk hold
      · exact hremoved.1 later hlater k hnow hk
    · intro k hk
      rw [mem_listeners_step hstep, not_or]
      exact ⟨(hadded c).2 k (.inr hk), fun hnow => (hadded c).1.2.2 k hnow k hk rfl⟩

omit [DecidableEq C] in
/-- A client whose request waits, and whose events are not set, is up to date. -/
theorem Inv.upToDate (hw : Inv tag removed w) (hreq : (w.clients c).request = .parked ids tasks)
    (hunset : ∀ task ∈ tasks, w.host.isSet task.event = false) (hk : k ∈ ids.keys) {i : ℤ}
    (hi : w.host.snapshotIds.get? k = some i) :
    (w.clients c).snapshotIds.get? k = some i ∧
    ∃ call, ((w.clients c).calls.filter (fun call => call.key = k)).getLast? = some call ∧
      (w.clients c).keyListeners.get? k = some call.callback ∧
      w.host.objectSnapshots.get? k = some call.update.objectSnapshot := by
  have hc := hw.client c
  obtain ⟨id, hid⟩ := Option.isSome_iff_exists.mp (Dict.get?_isSome_iff.mpr hk)
  obtain ⟨task, htask, rfl⟩ := List.mem_map.mp ((hc.keys hreq).symm ▸ hk)
  obtain rfl : id = i := (hc.tasks hreq task htask).same (hunset task htask) hid hi
  have hid' := hc.request (by rw [hreq]; rfl) hid
  refine ⟨hid', ?_⟩
  have hlast := hc.last hid'
  have hnonneg := hw.objects.nonneg hi
  -- the loop of a waiting client is empty, so the last update it has seen was called
  obtain ⟨hloop, _⟩ := hc.control.of_request (by rw [hreq]; simp)
  have hseen : (w.clients c).seen =
      (w.clients c).calls.map (fun call => (call.key, call.update)) := by
    unfold Client.seen
    rw [hloop]
    exact List.append_nil _
  obtain ⟨hnone, _⟩ | ⟨u, hu, heq, hget, _⟩ := hc.lastId_cases task.key
  · omega
  · rw [hseen, List.filter_map, List.getLast?_map, Option.map_eq_some_iff] at hget
    obtain ⟨call, hcall, hcallEq⟩ := hget
    rw [Prod.mk.injEq] at hcallEq
    refine ⟨call, hcall, ?_, ?_⟩
    · rw [← hcallEq.1]
      exact hc.calls call (List.mem_filter.mp (List.mem_of_getLast? hcall)).1
    · obtain hgone | ⟨i', hi', _, hobject⟩ := (hc.known (List.mem_append_left _ hu)).2
      · rw [hw.gone hgone] at hi
        cases hi
      · rw [hi, Option.some.injEq] at hi'
        rw [hcallEq.2]
        exact hobject (by omega)

/-- No update is lost: a waiting client has seen what the host holds, its callbacks see newer and
newer objects, and the pending counts are those of the registered events, which all belong to
waiting requests. -/
theorem run_losesNoUpdate {keyListeners : C → Dict K F} {events : List (Event K V τ F C)}
    (hrun : run tag (init keyListeners) events = some w)
    (hremoved : events.Pairwise (fun a b => ∀ k ∈ a.removedKeys, k ∉ b.notifiedKeys))
    (hadded : ∀ c, ((keyListeners c).keys ++ events.flatMap (Event.addedKeys c)).Nodup) :
    (∀ {c ids tasks}, (w.clients c).request = .parked ids tasks →
      (∀ task ∈ tasks, w.host.isSet task.event = false) →
      ∀ k ∈ ids.keys, ∀ i, w.host.snapshotIds.get? k = some i →
        (w.clients c).snapshotIds.get? k = some i ∧
        ∃ call, ((w.clients c).calls.filter (fun call => call.key = k)).getLast? = some call ∧
          (w.clients c).keyListeners.get? k = some call.callback ∧
          w.host.objectSnapshots.get? k = some call.update.objectSnapshot) ∧
    (∀ c, (w.clients c).calls.Pairwise
      (fun a b => a.key = b.key → a.update.snapshotId < b.update.snapshotId)) ∧
    (∀ ns, w.host.pendingClientsByNamespace ns = Host.numRegistered tag w.host ns) ∧
    ∀ {k e}, w.host.Registered k e → ∃ c ids tasks,
      (w.clients c).request = .parked ids tasks ∧ ∃ task ∈ tasks, task.key = k ∧ task.event = e := by
  obtain ⟨removed, hw⟩ := (Inv.init keyListeners).run hrun hremoved (fun _ _ _ _ => id) (fun c => by
    have hc := List.nodup_append.mp (hadded c)
    exact ⟨hc.2.1, fun k hk hold => hc.2.2 k hold k hk rfl⟩)
  refine ⟨fun hreq hunset k hk i hi => hw.upToDate hreq hunset hk hi, fun c => ?_,
    hw.events.pending, fun hr => ?_⟩
  · have hordered := (List.pairwise_append.mp (hw.client c).ordered).1
    exact List.pairwise_map.mp (List.pairwise_append.mp hordered).1
  · obtain ⟨c, task, htask, hrest⟩ := hw.owner hr
    obtain ⟨ids, tasks, hparked, hmem⟩ := exists_parked htask
    exact ⟨c, ids, tasks, hparked, task, hmem, hrest⟩

theorem run_losesNoUpdate_example : ∃ w : World ℕ String ℕ String Bool,
    run (fun _ => "app") (init (fun _ => Dict.ofList [(0, "routes"), (1, "replicas")]))
      [.runCallable true, .listenForChange true,
        .notifyChanged (Dict.ofList [(0, "r"), (1, "s")]) 7 (fun _ => 5), .finishTask true 0,
        .resume true [⟨1, 1, false⟩, ⟨0, 0, true⟩], .deliver true, .processOne true,
        .runCallable true, .listenForChange true, .deliver true, .processOne true,
        .runCallable true, .listenForChange true] = some w ∧
    (w.clients true).snapshotIds.get? 1 = some 5 ∧
    w.host.pendingClientsByNamespace "app" = Host.numRegistered (fun _ => "app") w.host "app" := by
  refine Exists.imp (fun w hrun => ⟨hrun, ?_⟩) ⟨_, rfl⟩
  have h := run_losesNoUpdate hrun (by decide) (by decide)
  obtain rfl : _ = w := Option.some.inj hrun
  exact ⟨(h.1 (c := true) rfl (by decide) 1 (by decide) 5 rfl).1, h.2.2.1 "app"⟩

end

end World
end RayTfm.Serve.LongPoll
