import RayTfm.Serve.LongPollClient

/-! # How a client stands to the host

`Client.Ok` is kept by everything the client does by itself, and by changes of the host that keep
the objects and the events of the client's tasks (`Client.Ok.frame`). -/

namespace RayTfm.Serve.LongPoll

variable {K V τ F : Type} [DecidableEq K] {h h' : Host K V τ} {removed : K → Prop}
  {c : Client K V τ F} {k : K} {u : UpdatedObject V τ}

/-- The host holds the key, and nothing older than the update. -/
def Host.Knows (h : Host K V τ) (k : K) (u : UpdatedObject V τ) : Prop :=
  ∃ i, h.snapshotIds.get? k = some i ∧ u.snapshotId ≤ i ∧
    (u.snapshotId = i → h.objectSnapshots.get? k = some u.objectSnapshot)

theorem Host.Current.knows (hu : h.Current k u) : h.Knows k u :=
  ⟨u.snapshotId, hu.1, le_rfl, fun _ => hu.2⟩

/-- How a task of a parked request stands to the host. -/
structure TaskOk (h : Host K V τ) (ids : Dict K ℤ) (task : WaitTask K) : Prop where
  lt : task.event < h.numEvents
  done : task.done = true → h.isSet task.event = true
  registered : h.isSet task.event = false → h.Registered task.key task.event
  same : h.isSet task.event = false → ∀ {id i}, ids.get? task.key = some id →
    h.snapshotIds.get? task.key = some i → id = i
  newer : h.isSet task.event = true → ∀ {id i}, ids.get? task.key = some id →
    h.snapshotIds.get? task.key = some i → id < i

/-- How a client stands to the host. -/
structure Client.Ok (h : Host K V τ) (removed : K → Prop) (c : Client K V τ F) : Prop where
  control : c.Control
  listeners : ∀ k, k ∈ c.snapshotIds.keys ↔ k ∈ c.keyListeners.keys
  calls : ∀ call ∈ c.calls, c.keyListeners.get? call.key = some call.callback
  scheduled : ∀ {callback k u n}, .chained callback k u n ∈ c.eventLoop →
    c.keyListeners.get? k = some callback
  last : ∀ {k id}, c.snapshotIds.get? k = some id → id = c.lastId k
  ordered : c.history.Pairwise (fun a b => a.1 = b.1 → a.2.snapshotId < b.2.snapshotId)
  known : ∀ {k u}, (k, u) ∈ c.history → 0 ≤ u.snapshotId ∧ (removed k ∨ h.Knows k u)
  coming : ∀ {k u}, (k, u) ∈ c.coming → k ∈ c.keyListeners.keys
  request : ∀ {ids}, c.request.ids? = some ids → ∀ {k id}, ids.get? k = some id →
    c.snapshotIds.get? k = some id
  keys : ∀ {ids tasks}, c.request = .parked ids tasks → tasks.map WaitTask.key = ids.keys
  tasks : ∀ {ids tasks}, c.request = .parked ids tasks → ∀ task ∈ tasks, TaskOk h ids task

namespace Client

theorem Ok.seen_listener (hc : c.Ok h removed) (hu : (k, u) ∈ c.seen) : k ∈ c.keyListeners.keys := by
  rw [← Dict.get?_isSome_iff]
  obtain hu | hu := List.mem_append.mp hu
  · obtain ⟨call, hcall, heq⟩ := List.mem_map.mp hu
    rw [Prod.mk.injEq] at heq
    rw [← heq.1, hc.calls call hcall]
    rfl
  · obtain ⟨callable, hmem, heq⟩ := List.mem_filterMap.mp hu
    cases callable with
    | pollNext => exact absurd heq (by simp [Callable.update?])
    | chained callback key update n =>
      rw [Callable.update?, Option.some.injEq, Prod.mk.injEq] at heq
      rw [← heq.1, hc.scheduled hmem]
      rfl

/-- The last id of a key is that of an update the client has seen, and no update is newer. -/
theorem Ok.lastId_cases (hc : c.Ok h removed) (k : K) :
    (c.lastId k = -1 ∧ ∀ u, (k, u) ∉ c.seen) ∨
      ∃ u, (k, u) ∈ c.seen ∧ c.lastId k = u.snapshotId ∧
        (c.seen.filter (fun e => e.1 = k)).getLast? = some (k, u) ∧
        ∀ u', (k, u') ∈ c.seen → u'.snapshotId ≤ u.snapshotId := by
  unfold lastId
  obtain hnil | ⟨l, e, hl⟩ := List.eq_nil_or_concat' (c.seen.filter (fun e => e.1 = k))
  · rw [hnil]
    refine .inl ⟨rfl, fun u hu => ?_⟩
    have hmem : (k, u) ∈ c.seen.filter (fun e => e.1 = k) :=
      List.mem_filter.mpr ⟨hu, decide_eq_true rfl⟩
    rw [hnil] at hmem
    cases hmem
  · have he : e ∈ c.seen.filter (fun e => e.1 = k) := by
      rw [hl]
      simp
    obtain ⟨hmem, hkey⟩ := List.mem_filter.mp he
    have hk : e.1 = k := of_decide_eq_true hkey
    rw [hl, List.getLast?_concat]
    refine .inr ⟨e.2, hk ▸ hmem, rfl, by rw [← hk], fun u' hu' => ?_⟩
    have hordered := (List.pairwise_append.mp hc.ordered).1.filter (fun e => e.1 = k)
    rw [hl, List.pairwise_append] at hordered
    have hmem' : (k, u') ∈ l ++ [e] := by
      rw [← hl]
      exact List.mem_filter.mpr ⟨hu', decide_eq_true rfl⟩
    obtain hmem' | hmem' := List.mem_append.mp hmem'
    · exact (hordered.2.2 _ hmem' e (.head _) hk.symm).le
    · rw [← List.mem_singleton.mp hmem']

/-- An answer with current objects that are newer than the request extends the history. -/
theorem Ok.ordered_append (hc : c.Ok h removed) {updates : Dict K (UpdatedObject V τ)}
    (hupdates : ∀ {k u}, updates.get? k = some u → h.Current k u ∧ c.lastId k < u.snapshotId) :
    (c.seen ++ updates.entries).Pairwise
      (fun a b => a.1 = b.1 → a.2.snapshotId < b.2.snapshotId) := by
  rw [List.pairwise_append]
  refine ⟨(List.pairwise_append.mp hc.ordered).1, ?_, ?_⟩
  · have hnodup := updates.nodup
    rw [List.Nodup, List.pairwise_map] at hnodup
    exact hnodup.imp (fun hne heq => absurd heq hne)
  · rintro ⟨k, u'⟩ hu' ⟨k', u⟩ hu heq
    obtain rfl : k = k' := heq
    obtain ⟨_, hlt⟩ := hupdates (Dict.get?_eq_some_iff.mpr hu)
    obtain ⟨_, hnone⟩ | ⟨ul, _, hlast, _, hle⟩ := hc.lastId_cases k
    · exact absurd hu' (hnone u')
    · rw [hlast] at hlt
      exact (hle u' hu').trans_lt hlt

/-- A change of the host that keeps the objects and the events of the client's tasks. -/
theorem Ok.frame (hc : c.Ok h removed) (hids : h'.snapshotIds = h.snapshotIds)
    (hobjects : h'.objectSnapshots = h.objectSnapshots) (hset : h'.isSet = h.isSet)
    (hnum : h.numEvents ≤ h'.numEvents)
    (hreg : ∀ task ∈ c.request.tasks, h.Registered task.key task.event →
      h'.Registered task.key task.event) : c.Ok h' removed := by
  refine ⟨hc.control, hc.listeners, hc.calls, hc.scheduled, hc.last, hc.ordered, ?_, hc.coming,
    hc.request, hc.keys, ?_⟩
  · intro k u hu
    unfold Host.Knows
    rw [hids, hobjects]
    exact hc.known hu
  · intro ids tasks hreq task htask
    obtain ⟨hlt, hdone, hregistered, hsame, hnewer⟩ := hc.tasks hreq task htask
    have hmem : task ∈ c.request.tasks := by
      rw [hreq]
      exact htask
    refine ⟨hlt.trans_le hnum, ?_, ?_, ?_, ?_⟩
    · rw [hset]
      exact hdone
    · rw [hset]
      exact fun hs => hreg task hmem (hregistered hs)
    · rw [hset, hids]
      exact hsame
    · rw [hset, hids]
      exact hnewer

theorem Ok.id_le (hc : c.Ok h removed) (hk : ¬ removed k) {id : ℤ}
    (hid : c.snapshotIds.get? k = some id) :
    id = -1 ∨ ∃ i, h.snapshotIds.get? k = some i ∧ id ≤ i := by
  rw [hc.last hid]
  obtain ⟨hlast, _⟩ | ⟨u, hu, hlast, _⟩ := hc.lastId_cases k
  · exact .inl hlast
  · obtain hgone | ⟨i, hi, hle, _⟩ := (hc.known (List.mem_append_left _ hu)).2
    · exact absurd hgone hk
    · rw [hlast]
      exact .inr ⟨i, hi, hle⟩

theorem Ok.setRequest (hc : c.Ok h removed) (hok : h.ObjectsOk) (hreq : c.request ≠ .none)
    {r : Request K V τ} (hr : r ≠ .none) (updates : Dict K (UpdatedObject V τ))
    (hcoming : r.coming = updates.entries)
    (hupdates : ∀ {k u}, updates.get? k = some u →
      h.Current k u ∧ c.lastId k < u.snapshotId ∧ k ∈ c.keyListeners.keys)
    (hids : ∀ {ids}, r.ids? = some ids → c.request.ids? = some ids)
    (hkeys : ∀ {ids tasks}, r = .parked ids tasks → tasks.map WaitTask.key = ids.keys)
    (htasks : ∀ {ids tasks}, r = .parked ids tasks → ∀ task ∈ tasks, TaskOk h ids task) :
    Ok h removed { c with request := r } := by
  obtain ⟨_, hprocessing, _⟩ := hc.control.of_request hreq
  have hcoming' : Client.coming { c with request := r } = updates.entries := by
    unfold Client.coming
    rw [hprocessing, List.nil_append, ← hcoming]
  refine ⟨hc.control.setRequest hreq hr, hc.listeners, hc.calls, hc.scheduled, hc.last, ?_, ?_, ?_,
    fun hr' => hc.request (hids hr'), hkeys, htasks⟩
  · unfold history
    rw [hcoming']
    exact hc.ordered_append (fun hu => ⟨(hupdates hu).1, (hupdates hu).2.1⟩)
  · intro k u hu
    unfold history at hu
    rw [hcoming'] at hu
    obtain hu | hu := List.mem_append.mp hu
    · exact hc.known (List.mem_append_left _ hu)
    · have hcurrent := (hupdates (Dict.get?_eq_some_iff.mpr hu)).1
      exact ⟨hok.nonneg hcurrent.1, .inr hcurrent.knows⟩
  · intro k u hu
    rw [hcoming'] at hu
    exact (hupdates (Dict.get?_eq_some_iff.mpr hu)).2.2

theorem Ok.init (keyListeners : Dict K F) :
    (init keyListeners : Client K V τ F).Ok h removed where
  control := control_init keyListeners
  listeners k := by
    rw [Client.init, Dict.mem_keys_ofList, List.map_map]
    exact ⟨fun hk => by simpa using hk, fun hk => by simpa using hk⟩
  calls _ hcall := absurd hcall List.not_mem_nil
  scheduled hs := absurd hs (by simp [Client.init])
  last := by
    intro k id hid
    have hmem := Dict.mem_of_mem_entries_ofList (Dict.get?_eq_some_iff.mp hid)
    obtain ⟨key, _, heq⟩ := List.mem_map.mp hmem
    rw [Prod.mk.injEq] at heq
    exact heq.2.symm
  ordered := List.Pairwise.nil
  known hu := absurd hu (by simp [history, seen, Client.coming, Client.init, Callable.update?,
    Request.coming])
  coming hu := absurd hu (by simp [Client.coming, Client.init, Request.coming])
  request hids := absurd hids (by simp [Client.init, Request.ids?])
  keys hreq := absurd hreq (by simp [Client.init])
  tasks hreq := absurd hreq (by simp [Client.init])

/-! ### Steps of the client -/

theorem Ok.addKeyListeners (hc : c.Ok h removed) {keyListeners : Dict K F}
    (hnew : ∀ k ∈ keyListeners.keys, k ∉ c.keyListeners.keys) :
    (c.addKeyListeners keyListeners).Ok h removed := by
  have hfilter : keyListeners.keys.filter (fun key => key ∉ c.keyListeners.keys) =
      keyListeners.keys := List.filter_eq_self.mpr (fun k hk => decide_eq_true (hnew k hk))
  have hold : ∀ {k}, k ∈ c.keyListeners.keys →
      (c.keyListeners.setAll keyListeners.entries).get? k = c.keyListeners.get? k := by
    intro k hk
    rw [Dict.get?_setAll]
    have hnone : keyListeners.entries.reverse.lookup k = none := by
      rw [List.lookup_eq_none_iff]
      intro e he
      have hmem : e.1 ∈ keyListeners.keys := List.mem_map_of_mem (List.mem_reverse.mp he)
      simpa using fun heq : k = e.1 => hnew _ hmem (heq ▸ hk)
    rw [hnone, Option.none_or]
  have hids : ∀ {k}, k ∉ keyListeners.keys →
      (c.addKeyListeners keyListeners).snapshotIds.get? k = c.snapshotIds.get? k := by
    intro k hk
    rw [Client.addKeyListeners, hfilter, Dict.get?_setAll]
    have hnone : (keyListeners.keys.map (fun key => (key, (-1 : ℤ)))).reverse.lookup k = none := by
      rw [List.lookup_eq_none_iff]
      intro e he
      obtain ⟨key, hkey, rfl⟩ := List.mem_map.mp (List.mem_reverse.mp he)
      simpa using fun heq : k = key => hk (heq ▸ hkey)
    rw [hnone, Option.none_or]
  have hcontrol : (c.addKeyListeners keyListeners).Control := by
    cases hc.control with
    | poll loop processing request => exact .poll loop processing request
    | asked loop processing request count => exact .asked loop processing request count
    | answering request loop count pos => exact .answering request loop count pos
  refine ⟨hcontrol, ?_, ?_, ?_, ?_, hc.ordered, hc.known, ?_, ?_, hc.keys, hc.tasks⟩
  · intro k
    rw [Client.addKeyListeners, Dict.mem_keys_setAll, Dict.mem_keys_setAll, hfilter, hc.listeners,
      List.map_map]
    show k ∈ keyListeners.keys.map id ∨ _ ↔ k ∈ keyListeners.keys ∨ _
    rw [List.map_id]
  · intro call hcall
    have hmem : call.key ∈ c.keyListeners.keys := by
      rw [← Dict.get?_isSome_iff, hc.calls call hcall]
      rfl
    exact (hold hmem).trans (hc.calls call hcall)
  · intro callback k u n hs
    have hmem : k ∈ c.keyListeners.keys := by
      rw [← Dict.get?_isSome_iff, hc.scheduled hs]
      rfl
    exact (hold hmem).trans (hc.scheduled hs)
  · intro k id hid
    by_cases hk : k ∈ keyListeners.keys
    · have hid' : id = -1 := by
        have hget : (c.addKeyListeners keyListeners).snapshotIds.get? k = some (-1) := by
          rw [Client.addKeyListeners, hfilter]
          have hnodup : ((keyListeners.keys.map (fun key => (key, (-1 : ℤ)))).map
              Prod.fst).Nodup := by
            rw [List.map_map]
            exact (List.map_id _).symm ▸ keyListeners.keys_nodup
          exact Dict.get?_setAll_of_mem _ hnodup (List.mem_map_of_mem hk)
        rw [hget, Option.some.injEq] at hid
        exact hid.symm
      obtain ⟨hlast, _⟩ | ⟨u, hu, _⟩ := hc.lastId_cases k
      · rw [hid']
        exact hlast.symm
      · exact absurd (hc.seen_listener hu) (hnew k hk)
    · rw [hids hk] at hid
      exact hc.last hid
  · intro k u hu
    rw [Client.addKeyListeners, Dict.mem_keys_setAll]
    exact .inr (hc.coming hu)
  · intro ids hreq k id hid
    have hget := hc.request hreq hid
    have hmem : k ∈ c.keyListeners.keys := by
      rw [← hc.listeners, ← Dict.get?_isSome_iff, hget]
      rfl
    rw [hids (fun hk => hnew k hk hmem)]
    exact hget

theorem Ok.runCallable (hc : c.Ok h removed) {callable : Callable K V τ F}
    {rest : List (Callable K V τ F)} (hloop : c.eventLoop = callable :: rest) :
    ({ c with eventLoop := rest }.runCallable callable).Ok h removed := by
  have hseen := seen_runCallable hloop
  have hcontrol := hc.control.runCallable hloop
  have hnone := hc.control.request_of_loop hloop
  obtain ⟨hlisteners, hids, hrest, hprocessing, hcalls, hreq⟩ := runCallable_cases c callable rest
  generalize { c with eventLoop := rest }.runCallable callable = c' at *
  have hcoming : c'.coming = c.coming := by
    unfold Client.coming
    obtain hreq | hreq := hreq
    · rw [hprocessing, hreq]
    · rw [hprocessing, hreq, hnone]
      rfl
  refine ⟨hcontrol, ?_, ?_, ?_, ?_, ?_, ?_, ?_, ?_, ?_, ?_⟩
  · rw [hids, hlisteners]
    exact hc.listeners
  · rw [hcalls, hlisteners]
    intro call hcall
    obtain hcall | hcall := List.mem_append.mp hcall
    · exact hc.calls call hcall
    · cases callable with
      | pollNext => cases hcall
      | chained callback key update n =>
        rw [List.mem_singleton.mp hcall]
        exact hc.scheduled (n := n) (by rw [hloop]; exact List.mem_cons_self)
  · rw [hrest, hlisteners]
    intro callback k u n hs
    exact hc.scheduled (by rw [hloop]; exact .tail _ hs)
  · intro k id hid
    rw [hids] at hid
    unfold lastId
    rw [hseen]
    exact hc.last hid
  · unfold history
    rw [hseen, hcoming]
    exact hc.ordered
  · intro k u hu
    unfold history at hu
    rw [hseen, hcoming] at hu
    exact hc.known hu
  · rw [hcoming, hlisteners]
    exact hc.coming
  · rw [hids]
    intro ids hreq' k id hid
    obtain hreq | hreq := hreq
    · rw [hreq] at hreq'
      exact hc.request hreq' hid
    · rw [hreq, Request.ids?, Option.some.injEq] at hreq'
      rw [hreq']
      exact hid
  · intro ids tasks hreq'
    obtain hreq | hreq := hreq
    · rw [hreq] at hreq'
      exact hc.keys hreq'
    · rw [hreq] at hreq'
      cases hreq'
  · intro ids tasks hreq'
    obtain hreq | hreq := hreq
    · rw [hreq] at hreq'
      exact hc.tasks hreq'
    · rw [hreq] at hreq'
      cases hreq'

theorem Ok.processUpdate (hc : c.Ok h removed) {reply : Reply K V τ}
    (hreq : c.request = .returned reply) :
    ({ c with request := .none }.processUpdate reply).Ok h removed := by
  have hcontrol := hc.control.processUpdate hreq
  have hcoming := coming_processUpdate hc.control hreq
  obtain ⟨hlisteners, hids, hcalls, hnone, hloop, hchained⟩ := processUpdate_keeps c reply
  generalize { c with request := .none }.processUpdate reply = c' at *
  have hseen : c'.seen = c.seen := by
    unfold seen
    rw [hcalls, hloop]
  refine ⟨hcontrol, ?_, ?_, ?_, ?_, ?_, ?_, ?_, ?_, ?_, ?_⟩
  · rw [hids, hlisteners]
    exact hc.listeners
  · rw [hcalls, hlisteners]
    exact hc.calls
  · rw [hlisteners]
    intro callback k u n hs
    exact hc.scheduled (hchained callback k u n hs)
  · intro k id hid
    rw [hids] at hid
    unfold lastId
    rw [hseen]
    exact hc.last hid
  · unfold history
    rw [hseen, hcoming]
    exact hc.ordered
  · intro k u hu
    unfold history at hu
    rw [hseen, hcoming] at hu
    exact hc.known hu
  · rw [hcoming, hlisteners]
    exact hc.coming
  · intro ids hreq'
    rw [hnone] at hreq'
    exact absurd hreq' (by simp [Request.ids?])
  · intro ids tasks hreq'
    rw [hnone] at hreq'
    cases hreq'
  · intro ids tasks hreq'
    rw [hnone] at hreq'
    cases hreq'

theorem Ok.processOne (hc : c.Ok h removed) {key : K} {update : UpdatedObject V τ}
    {rest : List (K × UpdatedObject V τ)} (hprocessing : c.processing = (key, update) :: rest) :
    (c.processOne key update rest).Ok h removed := by
  have hkey : key ∈ c.keyListeners.keys := by
    refine hc.coming (u := update) (List.mem_append_left _ ?_)
    rw [hprocessing]
    exact .head _
  obtain ⟨callback, hcallback⟩ := Option.isSome_iff_exists.mp (Dict.get?_isSome_iff.mpr hkey)
  have hcontrol := hc.control.processOne hprocessing hcallback
  have heq : c.processOne key update rest =
      { c with
        snapshotIds := c.snapshotIds.set key update.snapshotId
        eventLoop := c.eventLoop ++ [.chained callback key update c.numUpdates]
        processing := rest } := by
    rw [Client.processOne]
    simp only [hcallback]
    rfl
  rw [heq] at hcontrol ⊢
  have hseen : seen { c with
      snapshotIds := c.snapshotIds.set key update.snapshotId
      eventLoop := c.eventLoop ++ [.chained callback key update c.numUpdates]
      processing := rest } = c.seen ++ [(key, update)] := by
    unfold seen
    simp only [List.filterMap_append, List.append_assoc]
    rfl
  have hhistory : history { c with
      snapshotIds := c.snapshotIds.set key update.snapshotId
      eventLoop := c.eventLoop ++ [.chained callback key update c.numUpdates]
      processing := rest } = c.history := by
    unfold history Client.coming
    rw [hseen, hprocessing, List.append_assoc, List.singleton_append, List.cons_append]
  have hnone : c.request = .none := by
    cases hc.control with
    | poll _ processing _ =>
      rw [processing] at hprocessing
      exact absurd hprocessing (List.cons_ne_nil _ _).symm
    | asked _ processing _ _ =>
      rw [processing] at hprocessing
      exact absurd hprocessing (List.cons_ne_nil _ _).symm
    | answering request _ _ _ => exact request
  refine ⟨hcontrol, ?_, hc.calls, ?_, ?_, ?_, ?_, ?_, ?_, ?_, ?_⟩
  · intro k
    simp only [Dict.mem_keys_set, hc.listeners]
    exact or_iff_right_of_imp (fun hk => hk ▸ hkey)
  · intro cb k u n hs
    obtain hs | hs := List.mem_append.mp hs
    · exact hc.scheduled hs
    · rw [List.mem_singleton, Callable.chained.injEq] at hs
      rw [hs.1, hs.2.1]
      exact hcallback
  · intro k id hid
    unfold lastId
    rw [hseen, List.filter_append]
    simp only [Dict.get?_set] at hid
    by_cases hk : k = key
    · rw [if_pos hk, Option.some.injEq] at hid
      rw [List.filter_cons_of_pos (by simp [hk]), List.filter_nil, List.getLast?_concat, ← hid]
      rfl
    · rw [if_neg hk] at hid
      rw [List.filter_cons_of_neg (by simpa using Ne.symm hk), List.filter_nil, List.append_nil]
      exact hc.last hid
  · rw [hhistory]
    exact hc.ordered
  · intro k u hu
    rw [hhistory] at hu
    exact hc.known hu
  · intro k u hu
    refine hc.coming (u := u) ?_
    unfold Client.coming at hu ⊢
    rw [hprocessing, List.cons_append]
    exact .tail _ hu
  · intro ids hreq'
    rw [hnone] at hreq'
    exact absurd hreq' (by simp [Request.ids?])
  · intro ids tasks hreq'
    rw [hnone] at hreq'
    cases hreq'
  · intro ids tasks hreq'
    rw [hnone] at hreq'
    cases hreq'

end Client
end RayTfm.Serve.LongPoll
