import RayTfm.Autoscaler.SchedulerPlacements

/-! # The cache of unschedulable requests

`SchedulingNode.try_schedule` remembers the shapes of the requests that did not fit on the node, so
that a request of the same shape is turned away without another look.  This module has the cache
with its memory of the last request (`contains`, `add`), the requests as python objects with their
identities, and the loop without the cache (`trySchedulePlain`).

What the node turns away it goes on to turn away (`Refuses.of_shrinks`) as long as its labels stay
the same: the available resources only become fewer.  A request that changes the labels adds one
(`labels_or_size_lt`), and then the cache is cleared.  Hence the cache only answers what the node
would answer itself, and both loops agree (`tryScheduleObjects_eq_plain`). -/

namespace RayTfm.Autoscaler

/-- `UnschedulableRequestCache`.  A shape key is given by a request of that shape; the last request
is given by the identity of its object and its shape key. -/
structure UnschedulableRequestCache where
  shapes : List ResourceRequest := []
  last : Option (ℕ × ResourceRequest) := none

/-- How far a node has come with the requests. -/
structure CachedAttempt where
  node : SchedulingNode
  unschedulableRequests : List ℕ
  unfittableCache : UnschedulableRequestCache

section
variable (heap : ℕ → ResourceRequest)

namespace UnschedulableRequestCache

/-- The shape key of an object is computed, unless it is the last one. -/
def lookAt (c : UnschedulableRequestCache) (object : ℕ) : UnschedulableRequestCache :=
  if c.last.map Prod.fst = some object then c else { c with last := some (object, heap object) }

/-- `UnschedulableRequestCache.contains`. -/
def contains (c : UnschedulableRequestCache) (object : ℕ) : Bool × UnschedulableRequestCache :=
  let c := c.lookAt heap object
  (c.last.any (fun last => c.shapes.any last.2.sameShape), c)

/-- `UnschedulableRequestCache.add`. -/
def add (c : UnschedulableRequestCache) (object : ℕ) :
    Except AutoscalerError UnschedulableRequestCache := do
  assertThat (c.last.map Prod.fst = some object) ""
  .ok { c with shapes := (c.last.map Prod.snd).toList ++ c.shapes }

/-- `UnschedulableRequestCache.clear`. -/
def clear (_c : UnschedulableRequestCache) : UnschedulableRequestCache := {}

end UnschedulableRequestCache

/-- The loop of `SchedulingNode.try_schedule`, for the object of one request. -/
def CachedAttempt.step (source : ResourceRequestSource) (w : CachedAttempt) (object : ℕ) :
    Except AutoscalerError CachedAttempt :=
  let (found, cache) := w.unfittableCache.contains heap object
  if found then .ok ⟨w.node, w.unschedulableRequests ++ [object], cache⟩
  else do
    match ← w.node.tryScheduleOne (heap object) source with
    | none => do
        let cache ← cache.add object
        return ⟨w.node, w.unschedulableRequests ++ [object], cache⟩
    | some node =>
      return ⟨node, w.unschedulableRequests,
        if w.node.labels.size < node.labels.size then cache.clear else cache⟩

/-- `SchedulingNode.try_schedule` on objects. -/
def SchedulingNode.tryScheduleObjects (node : SchedulingNode) (requests : List ℕ)
    (source : ResourceRequestSource) :
    Except AutoscalerError (SchedulingNode × List ℕ × SchedulingNode.UtilizationScore) := do
  let w ← requests.foldlM (CachedAttempt.step heap source) ⟨node, [], {}⟩
  let score ← w.node.computeScore source
  return (w.node, w.unschedulableRequests, score)

/-- The loop without the cache. -/
def plainStep (source : ResourceRequestSource) (w : SchedulingNode × List ℕ) (object : ℕ) :
    Except AutoscalerError (SchedulingNode × List ℕ) := do
  match ← w.1.tryScheduleOne (heap object) source with
  | none => return (w.1, w.2 ++ [object])
  | some node => return (node, w.2)

/-- `SchedulingNode.try_schedule` without the cache. -/
def SchedulingNode.trySchedulePlain (node : SchedulingNode) (requests : List ℕ)
    (source : ResourceRequestSource) :
    Except AutoscalerError (SchedulingNode × List ℕ × SchedulingNode.UtilizationScore) := do
  let w ← requests.foldlM (plainStep heap source) (node, [])
  let score ← w.1.computeScore source
  return (w.1, w.2, score)

end

/-! ### What a node turns away -/

/-- The request cannot be scheduled on the node. -/
structure Refuses (source : ResourceRequestSource) (node : SchedulingNode) (r : ResourceRequest) :
    Prop where
  refused : node.tryScheduleOne r source = .ok none

variable {source : ResourceRequestSource} {node : SchedulingNode} {r : ResourceRequest}

theorem refuses_iff :
    Refuses source node r ↔
      (r.labelSelectors ≠ [] ∧ node.satisfiesLabelConstraints [r] = 0) ∨
      r.antiAffinities.any node.hasLabel = true ∨
        fits (node.availableResourcesForSched.get source) r.resourcesBundle = false := by
  constructor
  · rintro ⟨h⟩
    unfold SchedulingNode.tryScheduleOne at h
    split_ifs at h with hselectors hlabels hfits
    · exact .inl hselectors
    · exact .inr (.inl hlabels)
    · exact .inr (.inr hfits)
    · obtain ⟨available, -, h⟩ := bind_eq_ok.mp h
      obtain ⟨n, -, h⟩ := bind_eq_ok.mp h
      cases h
  · intro h
    refine ⟨?_⟩
    unfold SchedulingNode.tryScheduleOne
    split_ifs with hselectors hlabels hfits
    · rfl
    · rfl
    · rfl
    · exact absurd h (not_or.mpr ⟨hselectors, not_or.mpr ⟨hlabels, hfits⟩⟩)

variable {available : Dict String ℚ}

theorem fits_congr {b b' : Dict String ℚ} (h : b.entries.Perm b'.entries) :
    fits available b = fits available b' := by
  unfold fits
  rw [Bool.eq_iff_iff, List.all_eq_true, List.all_eq_true]
  exact ⟨fun hall e he => hall e (h.mem_iff.mpr he), fun hall e he => hall e (h.mem_iff.mp he)⟩

/-- Requests of one shape are turned away together. -/
theorem Refuses.of_sameShape {r' : ResourceRequest}
    (h : Refuses source node r') (hshape : r.sameShape r' = true) : Refuses source node r := by
  unfold ResourceRequest.sameShape at hshape
  rw [Bool.and_eq_true, Bool.and_eq_true, List.isPerm_iff, decide_eq_true_iff,
    decide_eq_true_iff] at hshape
  obtain ⟨⟨hbundle, hplacement⟩, hselectors⟩ := hshape
  rw [refuses_iff] at h ⊢
  have hsatisfies : node.satisfiesLabelConstraints [r] = node.satisfiesLabelConstraints [r'] := by
    unfold SchedulingNode.satisfiesLabelConstraints
    rw [List.findSome?_singleton, List.findSome?_singleton, hselectors]
  have hlabels : r.antiAffinities = r'.antiAffinities := by
    rw [ResourceRequest.antiAffinities, hplacement]
    rfl
  rw [hselectors, hsatisfies, hlabels, fits_congr hbundle]
  exact h

/-- What a node has of a resource. -/
def amount (available : Dict String ℚ) (name : String) : ℚ :=
  (available.get? name).getD (if isImplicitResource name then 1 else 0)

variable {available' : Dict String ℚ}

theorem amount_subtractOne {e : String × ℚ} (he : 0 ≤ e.2)
    (h : subtractOne available e = .ok available') (name : String) :
    amount available' name ≤ amount available name := by
  unfold subtractOne at h
  split_ifs at h
  · cases h
    exact le_rfl
  obtain ⟨_, hthere, h⟩ := bind_eq_ok.mp h
  obtain ⟨_, -, h⟩ := bind_eq_ok.mp h
  cases h
  unfold amount
  rw [Dict.get?_set]
  by_cases hname : name = e.1
  · subst hname
    rw [if_pos rfl, Option.getD_some]
    rw [assertThat_eq_ok, decide_eq_true_iff] at hthere
    cases hget : available.get? e.1 with
    | some v =>
      rw [Option.getD_some, Option.getD_some]
      linarith
    | none =>
      rw [Option.getD_none, Option.getD_none,
        if_pos (hthere.resolve_left (Dict.get?_eq_none_iff.mp hget))]
      linarith
  · rw [if_neg hname]

theorem amount_inplaceSubtract {resources : Dict String ℚ}
    (hresources : ∀ e ∈ resources.entries, 0 ≤ e.2)
    (h : inplaceSubtract available resources = .ok available')
    (name : String) : amount available' name ≤ amount available name := by
  refine foldlM_inv (P := fun _ a => amount a name ≤ amount available name) le_rfl ?_ h
  intro done e a a' he ih hstep
  exact (amount_subtractOne (hresources e he) hstep name).trans ih

/-- The labels of the node are the same, and it has no more resources. -/
structure Shrinks (source : ResourceRequestSource) (node node' : SchedulingNode) : Prop where
  labels : node'.labels = node.labels
  amount_le : ∀ name, amount (node'.availableResourcesForSched.get source) name ≤
    amount (node.availableResourcesForSched.get source) name

variable {node' : SchedulingNode}

/-- A node with the same labels and no more resources turns away what it turned away before. -/
theorem Refuses.of_shrinks
    (h : Refuses source node r) (hshrinks : Shrinks source node node') : Refuses source node' r := by
  rw [refuses_iff] at h ⊢
  have hsatisfies : node'.satisfiesLabelConstraints [r] = node.satisfiesLabelConstraints [r] := by
    unfold SchedulingNode.satisfiesLabelConstraints
    rw [hshrinks.labels]
  have hhas : node'.hasLabel = node.hasLabel := by
    funext label
    rw [SchedulingNode.hasLabel, SchedulingNode.hasLabel, hshrinks.labels]
  rw [hsatisfies, hhas]
  refine h.imp_right (Or.imp_right (fun hfits => ?_))
  unfold fits at hfits ⊢
  rw [List.all_eq_false] at hfits ⊢
  obtain ⟨e, he, hlt⟩ := hfits
  refine ⟨e, he, ?_⟩
  rw [decide_eq_true_iff, not_le] at hlt ⊢
  exact (hshrinks.amount_le e.1).trans_lt hlt

/-! ### What a request does to the labels -/

theorem size_le_addLabel {label : NodeLabel} (h : node.addLabel label = .ok node') :
    node.labels.size ≤ node'.labels.size ∧
      (node.hasLabel label = false → node.labels.size < node'.labels.size) := by
  obtain ⟨_, hassert, h⟩ := bind_eq_ok.mp h
  cases h
  rw [assertThat_eq_ok, decide_eq_true_iff] at hassert
  show node.labels.size ≤ (node.labels.set label.labelName label.labelValue).size ∧ (_ →
    node.labels.size < (node.labels.set label.labelName label.labelValue).size)
  by_cases hkey : label.labelName ∈ node.labels.keys
  · refine ⟨?_, ?_⟩
    · rw [Dict.size, Dict.size, Dict.entries_set_of_mem _ hkey, List.length_map]
    · intro hnot
      rw [SchedulingNode.hasLabel, decide_eq_false_iff_not] at hnot
      obtain hnone | hsome := hassert
      · exact absurd hkey (Dict.get?_eq_none_iff.mp hnone)
      · exact absurd hsome hnot
  · rw [Dict.size, Dict.size, Dict.entries_set_of_notMem _ hkey, List.length_append,
      List.length_singleton]
    exact ⟨Nat.le_succ _, fun _ => Nat.lt_succ_self _⟩

theorem size_le_foldlM_addLabel {labels : List NodeLabel}
    (h : labels.foldlM SchedulingNode.addLabel node = .ok node') :
    node.labels.size ≤ node'.labels.size := by
  refine foldlM_inv (P := fun _ n => node.labels.size ≤ n.labels.size) le_rfl ?_ h
  intro done label n n' _ ih hstep
  exact ih.trans (size_le_addLabel hstep).1

/-- A request that is scheduled leaves the labels as they are or adds one. -/
theorem labels_or_size_lt (h : node.tryScheduleOne r source = .ok (some node')) :
    node'.labels = node.labels ∨ node.labels.size < node'.labels.size := by
  have hplaced := tryScheduleOne_eq_some h
  unfold SchedulingNode.tryScheduleOne at h
  split_ifs at h
  · cases h
  · cases h
  · cases h
  obtain ⟨available, -, h⟩ := bind_eq_ok.mp h
  obtain ⟨n, hn, h⟩ := bind_eq_ok.mp h
  cases h
  cases hlabels : r.antiAffinities with
  | nil =>
    rw [hlabels] at hn
    cases hn
    exact .inl rfl
  | cons label rest =>
    have hapart := hplaced.apart label (by rw [hlabels]; exact List.mem_cons_self)
    rw [hlabels, List.foldlM_cons] at hn
    obtain ⟨n₁, hfirst, hrest⟩ := bind_eq_ok.mp hn
    exact .inr (((size_le_addLabel hfirst).2 hapart).trans_le (size_le_foldlM_addLabel hrest))

/-- A request that is scheduled and adds no label only takes resources. -/
theorem shrinks_of_tryScheduleOne
    (hdemand : ∀ e ∈ r.resourcesBundle.entries, 0 ≤ e.2)
    (h : node.tryScheduleOne r source = .ok (some node'))
    (hsize : ¬ node.labels.size < node'.labels.size) : Shrinks source node node' where
  labels := (labels_or_size_lt h).resolve_right hsize
  amount_le := amount_inplaceSubtract hdemand (tryScheduleOne_eq_some h).subtract

/-! ### The cache only answers what the node would answer -/

section
variable {heap : ℕ → ResourceRequest}

namespace UnschedulableRequestCache

variable {c : UnschedulableRequestCache} {object : ℕ}

/-- The remembered shape key is that of the remembered object. -/
def Remembers (heap : ℕ → ResourceRequest) (c : UnschedulableRequestCache) : Prop :=
  ∀ last, c.last = some last → last.2 = heap last.1

theorem lookAt_spec (h : c.Remembers heap) (object : ℕ) :
    (c.lookAt heap object).last = some (object, heap object) ∧
    (c.lookAt heap object).shapes = c.shapes := by
  unfold lookAt
  split_ifs with hlast
  · obtain ⟨last, heq, hid⟩ := Option.map_eq_some_iff.mp hlast
    refine ⟨?_, rfl⟩
    rw [heq, ← hid, ← h last heq]
  · exact ⟨rfl, rfl⟩

theorem contains_spec (h : c.Remembers heap) (object : ℕ) :
    (c.contains heap object).1 = c.shapes.any (heap object).sameShape ∧
      (c.contains heap object).2.last = some (object, heap object) ∧
      (c.contains heap object).2.shapes = c.shapes := by
  obtain ⟨hlast, hshapes⟩ := lookAt_spec h object
  refine ⟨?_, hlast, hshapes⟩
  show (c.lookAt heap object).last.any _ = _
  rw [hlast, hshapes]
  rfl

theorem remembers_contains (h : c.Remembers heap) (object : ℕ) :
    (c.contains heap object).2.Remembers heap := by
  intro last heq
  rw [(contains_spec h object).2.1] at heq
  cases heq
  rfl

theorem add_contains_eq (h : c.Remembers heap) (object : ℕ) :
    (c.contains heap object).2.add object =
      .ok ⟨heap object :: c.shapes, some (object, heap object)⟩ := by
  obtain ⟨_, hlast, hshapes⟩ := contains_spec h object
  unfold add
  rw [hlast, hshapes, Option.map_some, decide_eq_true rfl]
  rfl

/-- `add` follows `contains` of the same object, so its assertion holds. -/
theorem add_contains (c : UnschedulableRequestCache) (object : ℕ) :
    ∃ c', (c.contains heap object).2.add object = .ok c' := by
  have hid : (c.contains heap object).2.last.map Prod.fst = some object := by
    show (c.lookAt heap object).last.map Prod.fst = some object
    unfold lookAt
    split_ifs with hlast
    · exact hlast
    · rfl
  unfold add
  rw [hid, decide_eq_true rfl]
  exact ⟨_, rfl⟩

end UnschedulableRequestCache

/-- The node refuses every shape in the cache. -/
structure CacheSound (heap : ℕ → ResourceRequest) (source : ResourceRequestSource)
    (w : CachedAttempt) : Prop where
  remembers : w.unfittableCache.Remembers heap
  refuses : ∀ shape ∈ w.unfittableCache.shapes, Refuses source w.node shape

/-- What the loop has come to, without the cache. -/
def CachedAttempt.plain (w : CachedAttempt) : SchedulingNode × List ℕ :=
  (w.node, w.unschedulableRequests)

variable {w : CachedAttempt}
variable {source : ResourceRequestSource}

theorem CachedAttempt.step_eq_plain (h : CacheSound heap source w)
    {object : ℕ} (hdemand : ∀ e ∈ (heap object).resourcesBundle.entries, 0 ≤ e.2) :
    (∃ e, w.step heap source object = .error e ∧ plainStep heap source w.plain object = .error e) ∨
      ∃ w', w.step heap source object = .ok w' ∧ plainStep heap source w.plain object = .ok w'.plain ∧
        CacheSound heap source w' := by
  obtain ⟨hfound, _, hshapes⟩ := UnschedulableRequestCache.contains_spec h.remembers object
  have hremembers := UnschedulableRequestCache.remembers_contains h.remembers object
  have hadd := UnschedulableRequestCache.add_contains_eq h.remembers object
  unfold CachedAttempt.step plainStep CachedAttempt.plain
  simp only
  by_cases hin : w.unfittableCache.shapes.any (heap object).sameShape = true
  · -- the node would refuse the request as well
    obtain ⟨shape, hshape, hsame⟩ := List.any_eq_true.mp hin
    have hrefused := ((h.refuses shape hshape).of_sameShape hsame).refused
    rw [hfound, if_pos hin, hrefused]
    refine .inr ⟨_, rfl, rfl, hremembers, ?_⟩
    rw [hshapes]
    exact h.refuses
  · rw [hfound, if_neg hin]
    cases hone : w.node.tryScheduleOne (heap object) source with
    | error e => exact .inl ⟨e, rfl, rfl⟩
    | ok found =>
      right
      cases found with
      | none =>
        refine ⟨⟨w.node, w.unschedulableRequests ++ [object],
          ⟨heap object :: w.unfittableCache.shapes, some (object, heap object)⟩⟩, ?_, rfl, ?_, ?_⟩
        · simp only [bind, Except.bind, hadd]
          rfl
        · rintro last heq
          cases heq
          rfl
        · intro shape hshape
          obtain rfl | hshape := List.mem_cons.mp hshape
          · exact ⟨hone⟩
          · exact h.refuses shape hshape
      | some node =>
        refine ⟨_, rfl, rfl, ?_⟩
        by_cases hsize : w.node.labels.size < node.labels.size
        · rw [if_pos hsize]
          exact ⟨nofun, nofun⟩
        · rw [if_neg hsize]
          refine ⟨hremembers, ?_⟩
          intro shape hshape
          simp only at hshape
          rw [hshapes] at hshape
          exact (h.refuses shape hshape).of_shrinks (shrinks_of_tryScheduleOne hdemand hone hsize)

theorem foldlM_step_eq_plain {requests : List ℕ}
    (hdemand : ∀ object ∈ requests, ∀ e ∈ (heap object).resourcesBundle.entries, 0 ≤ e.2)
    (h : CacheSound heap source w) :
    (requests.foldlM (CachedAttempt.step heap source) w).map CachedAttempt.plain =
      requests.foldlM (plainStep heap source) w.plain := by
  induction requests generalizing w with
  | nil => rfl
  | cons object requests ih =>
    rw [List.foldlM_cons, List.foldlM_cons]
    obtain ⟨e, hcached, hplain⟩ | ⟨w', hcached, hplain, hsound⟩ :=
      w.step_eq_plain h (hdemand object (.head _))
    · rw [hcached, hplain]
      rfl
    · rw [hcached, hplain]
      exact ih (fun o ho => hdemand o (.tail _ ho)) hsound

/-- The cache does not change what is scheduled: the node, the requests that remain, in their order,
and the score are those of the loop without it; and the assertion of the cache never fails. -/
theorem tryScheduleObjects_eq_plain (heap : ℕ → ResourceRequest) (node : SchedulingNode)
    {requests : List ℕ}
    (hdemand : ∀ object ∈ requests, ∀ e ∈ (heap object).resourcesBundle.entries, 0 ≤ e.2)
    (source : ResourceRequestSource) :
    node.tryScheduleObjects heap requests source = node.trySchedulePlain heap requests source ∧
      ∀ (c : UnschedulableRequestCache) (object : ℕ), ∃ c', (c.contains heap object).2.add object =
        .ok c' := by
  refine ⟨?_, UnschedulableRequestCache.add_contains⟩
  have hsound : CacheSound heap source ⟨node, [], {}⟩ := ⟨nofun, nofun⟩
  have hfold := foldlM_step_eq_plain hdemand hsound
  unfold SchedulingNode.tryScheduleObjects SchedulingNode.trySchedulePlain
  change _ = requests.foldlM (plainStep heap source) (node, []) at hfold
  rw [← hfold]
  cases requests.foldlM (CachedAttempt.step heap source) ⟨node, [], {}⟩ with
  | error e => rfl
  | ok w => rfl

/-- Three requests of one shape, one of them twice the same object, for a node with room for one. -/
theorem tryScheduleObjects_eq_plain_cpu :
    (SchedulingNode.fromNodeConfig ⟨"worker", 0, 1, by decide, none, 0, Dict.empty.set "CPU" 1,
      Dict.empty, ""⟩
        .toLaunch .worker none none).tryScheduleObjects
          (fun _ => ⟨Dict.empty.set "CPU" 1, [], []⟩) [3, 4, 4]
        .pendingDemand =
      (SchedulingNode.fromNodeConfig ⟨"worker", 0, 1, by decide, none, 0, Dict.empty.set "CPU" 1,
        Dict.empty, ""⟩
        .toLaunch .worker none none).trySchedulePlain
          (fun _ => ⟨Dict.empty.set "CPU" 1, [], []⟩) [3, 4, 4]
        .pendingDemand :=
  (tryScheduleObjects_eq_plain _ _ (by
    intro object _ e he
    rw [List.mem_singleton.mp he]
    norm_num) _).1

/-! ### The loop of the scheduler -/

/-- The loop without object identities. -/
def CachedAttempt.attempt (heap : ℕ → ResourceRequest) (w : CachedAttempt) : Attempt :=
  ⟨w.node, w.unschedulableRequests.map heap, w.unfittableCache.shapes⟩

/-- One round of the loop does the same with and without object identities. -/
theorem CachedAttempt.step_attempt (source : ResourceRequestSource)
    (h : w.unfittableCache.Remembers heap) (object : ℕ) :
    (∃ e, w.step heap source object = .error e ∧
    (w.attempt heap).step source (heap object) = .error e) ∨
      ∃ w', w.step heap source object = .ok w' ∧ (w.attempt heap).step source (heap object) =
      .ok (w'.attempt heap) ∧
        w'.unfittableCache.Remembers heap := by
  obtain ⟨hfound, _, hshapes⟩ := UnschedulableRequestCache.contains_spec h object
  have hremembers := UnschedulableRequestCache.remembers_contains h object
  have hadd := UnschedulableRequestCache.add_contains_eq h object
  unfold CachedAttempt.step Attempt.step CachedAttempt.attempt
  simp only
  rw [hfound]
  by_cases hin : w.unfittableCache.shapes.any (heap object).sameShape = true
  · rw [if_pos hin, if_pos hin]
    refine .inr ⟨_, rfl, ?_, hremembers⟩
    rw [hshapes, List.map_append, List.map_singleton]
  · rw [if_neg hin, if_neg hin]
    cases w.node.tryScheduleOne (heap object) source with
    | error e => exact .inl ⟨e, rfl, rfl⟩
    | ok found =>
      right
      cases found with
      | none =>
        refine ⟨⟨w.node, w.unschedulableRequests ++ [object],
          ⟨heap object :: w.unfittableCache.shapes, some (object, heap object)⟩⟩, ?_, ?_, ?_⟩
        · simp only [bind, Except.bind, hadd]
          rfl
        · simp only [bind, Except.bind, List.map_append, List.map_singleton]
          rfl
        · rintro last heq
          cases heq
          rfl
      | some node =>
        refine ⟨_, rfl, ?_, ?_⟩
        · simp only [bind, Except.bind]
          split_ifs
          · rfl
          · rw [hshapes]
            rfl
        · split_ifs
          · rintro last heq
            cases heq
          · exact hremembers

/-- `trySchedule` is what the loop on objects does with what the objects contain. -/
theorem trySchedule_eq_objects (heap : ℕ → ResourceRequest) (node : SchedulingNode) (requests : List ℕ)
    (source : ResourceRequestSource) :
    node.trySchedule (requests.map heap) source =
      (node.tryScheduleObjects heap requests source).map (fun r => (r.1, r.2.1.map heap, r.2.2)) := by
  have hloop : ∀ (requests : List ℕ) (w : CachedAttempt), w.unfittableCache.Remembers heap →
      (requests.map heap).foldlM (Attempt.step source) (w.attempt heap) =
        (requests.foldlM (CachedAttempt.step heap source) w).map (CachedAttempt.attempt heap) := by
    intro requests
    induction requests with
    | nil => exact fun _ _ => rfl
    | cons object requests ih =>
      intro w hw
      rw [List.map_cons, List.foldlM_cons, List.foldlM_cons]
      obtain ⟨e, hcached, hplain⟩ | ⟨w', hcached, hplain, hw'⟩ := w.step_attempt source hw object
      · rw [hcached, hplain]
        rfl
      · rw [hcached, hplain]
        exact ih w' hw'
  have hfold := hloop requests ⟨node, [], {}⟩ nofun
  change (requests.map heap).foldlM (Attempt.step source) ⟨node, [], []⟩ = _ at hfold
  unfold SchedulingNode.trySchedule SchedulingNode.tryScheduleObjects
  rw [hfold]
  cases requests.foldlM (CachedAttempt.step heap source) ⟨node, [], {}⟩ with
  | error e => rfl
  | ok w =>
    show (w.node.computeScore source >>= _) = Except.map _ (w.node.computeScore source >>= _)
    cases w.node.computeScore source with
    | error e => rfl
    | ok score => rfl

end
end RayTfm.Autoscaler
