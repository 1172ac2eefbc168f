import RayTfm.CoreWorker.ActorSubmitQueue

/-! # What the submit queues have in common

Both queues hold calls by concurrency group and sequence number, resolved or not (`find?`), and each
operation adds, changes or takes away one of them.  `LawfulActorSubmitQueue` states this for calls
whose numbers are new in their group. -/

namespace RayTfm.CoreWorker
open Raylet

variable {T : Type} {g g' : String} {s s' : ℕ} {spec : TaskSpecification T} {b : Bool} {hash : ℕ}

theorem mem_of_pick {A : Type} {l : List A} {a : A} (h : pick hash l = some a) : a ∈ l :=
  List.mem_of_getElem? h

/-- The laws of `IActorSubmitQueue`. -/
class LawfulActorSubmitQueue (Q : Type) (T : outParam Type) [ActorSubmitQueue Q T] where
  Ok : Q → Prop
  queued : Q → List (TaskSpecification T)
  find? : Q → String → ℕ → Option (TaskSpecification T × Bool)
  ok_init : Ok (ActorSubmitQueue.init : Q)
  queued_init : queued (ActorSubmitQueue.init : Q) = []
  find?_init : ∀ g s, find? (ActorSubmitQueue.init : Q) g s = none
  contains_iff : ∀ (q : Q) g s, ActorSubmitQueue.contains q g s = true ↔ (find? q g s).isSome
  emplace : ∀ {q : Q} {g s} spec, Ok q → find? q g s = none →
    ∃ q', ActorSubmitQueue.emplace q g s spec = .ok q' ∧ Ok q' ∧
      (queued q').Perm (spec :: queued q) ∧
      ∀ g' s', find? q' g' s' = if g' = g ∧ s' = s then some (spec, false) else find? q g' s'
  resolved : ∀ {q : Q} {g s spec}, Ok q → find? q g s = some (spec, false) →
    ∃ q', ActorSubmitQueue.markDependencyResolved q g s = .ok q' ∧ Ok q' ∧
      (queued q').Perm (queued q) ∧
      ∀ g' s', find? q' g' s' = if g' = g ∧ s' = s then some (spec, true) else find? q g' s'
  failed : ∀ {q : Q} {g s spec}, Ok q → find? q g s = some (spec, false) →
    Ok (ActorSubmitQueue.markDependencyFailed q g s) ∧
      (queued q).Perm (spec :: queued (ActorSubmitQueue.markDependencyFailed q g s)) ∧
      ∀ g' s', find? (ActorSubmitQueue.markDependencyFailed q g s) g' s' =
        if g' = g ∧ s' = s then none else find? q g' s'
  canceled : ∀ {q : Q} {g s spec b}, Ok q → find? q g s = some (spec, b) →
    Ok (ActorSubmitQueue.markTaskCanceled q g s) ∧
      (queued q).Perm (spec :: queued (ActorSubmitQueue.markTaskCanceled q g s)) ∧
      ∀ g' s', find? (ActorSubmitQueue.markTaskCanceled q g s) g' s' =
        if g' = g ∧ s' = s then none else find? q g' s'
  popped : ∀ {q q' : Q} {hash spec skipQueue}, Ok q →
    ActorSubmitQueue.popNextTaskToSend q hash = some ((spec, skipQueue), q') →
    Ok q' ∧ (queued q).Perm (spec :: queued q') ∧ ∃ g s, find? q g s = some (spec, true) ∧
      ∀ g' s', find? q' g' s' = if g' = g ∧ s' = s then none else find? q g' s'

/-- The calls of a table. -/
def Requests.specs (m : Requests T) : List (TaskSpecification T) :=
  (Nested.items m).map (fun item => item.2.2.1)

variable {m : Requests T}

theorem Requests.specs_insert (h : Nested.find? m g s = none) :
    (Requests.specs (Nested.insert m g s (spec, b))).Perm (spec :: Requests.specs m) :=
  (Nested.items_insert h (spec, b)).map _

theorem Requests.specs_remove (h : Nested.find? m g s = some (spec, b)) :
    (Requests.specs m).Perm (spec :: Requests.specs (Nested.remove m g s)) :=
  (Nested.items_remove h).map _

theorem Requests.specs_change (h : Nested.find? m g s = some (spec, b)) (b' : Bool) :
    (Requests.specs (Nested.insert m g s (spec, b'))).Perm (Requests.specs m) :=
  ((Nested.items_insert_of_mem h (spec, b')).map _).trans (Requests.specs_remove h).symm

/-! ### The sequential queue -/

namespace SequentialActorSubmitQueue

variable {q q' : SequentialActorSubmitQueue T}

/-- A call by its group and number, which a request and a retry do not share. -/
def find? (q : SequentialActorSubmitQueue T) (g : String) (s : ℕ) :
    Option (TaskSpecification T × Bool) :=
  (Nested.find? q.requestsPerGroup g s).or (Nested.find? q.retryRequestsPerGroup g s)

/-- No number is both that of a request and of a retry. -/
def Ok (q : SequentialActorSubmitQueue T) : Prop := ∀ g s,
  Nested.find? q.requestsPerGroup g s = none ∨ Nested.find? q.retryRequestsPerGroup g s = none

/-- The calls in the queue. -/
def queued (q : SequentialActorSubmitQueue T) : List (TaskSpecification T) :=
  Requests.specs q.requestsPerGroup ++ Requests.specs q.retryRequestsPerGroup

theorem find?_eq_none : q.find? g s = none ↔
    Nested.find? q.requestsPerGroup g s = none ∧ Nested.find? q.retryRequestsPerGroup g s = none :=
  Option.or_eq_none_iff

theorem contains_iff : q.contains g s = true ↔ (q.find? g s).isSome := by
  rw [contains, find?, Option.isSome_or]

theorem find?_cases (h : q.find? g s = some (spec, b)) :
    Nested.find? q.requestsPerGroup g s = some (spec, b) ∨
      (Nested.find? q.requestsPerGroup g s = none ∧
        Nested.find? q.retryRequestsPerGroup g s = some (spec, b)) := by
  unfold find? at h
  cases hreq : Nested.find? q.requestsPerGroup g s with
  | none =>
    rw [hreq, Option.none_or] at h
    exact .inr ⟨rfl, h⟩
  | some x =>
    rw [hreq, Option.some_or] at h
    exact .inl h

theorem Ok.emplace (hok : q.Ok) (h : q.find? g s = none) (spec : TaskSpecification T) :
    ∃ q', q.emplace g s spec = .ok q' ∧ q'.Ok ∧ q'.queued.Perm (spec :: q.queued) ∧
      ∀ g' s', q'.find? g' s' = if g' = g ∧ s' = s then some (spec, false) else q.find? g' s' := by
  obtain ⟨hreq, hretry⟩ := find?_eq_none.mp h
  unfold SequentialActorSubmitQueue.emplace
  by_cases hr : spec.isRetry = true
  · rw [if_pos hr, hretry]
    refine ⟨_, rfl, fun g' s' => ?_, ?_, fun g' s' => ?_⟩
    · simp only [Nested.find?_insert]
      by_cases hkey : g' = g ∧ s' = s
      · rw [if_pos hkey, hkey.1, hkey.2]
        exact .inl hreq
      · rw [if_neg hkey]
        exact hok g' s'
    · exact ((Requests.specs_insert hretry).append_left _).trans List.perm_middle
    · unfold find?
      simp only [Nested.find?_insert]
      by_cases hkey : g' = g ∧ s' = s
      · rw [if_pos hkey, if_pos hkey, hkey.1, hkey.2, hreq]
        rfl
      · rw [if_neg hkey, if_neg hkey]
  · rw [if_neg hr, hreq]
    refine ⟨_, rfl, fun g' s' => ?_, ?_, fun g' s' => ?_⟩
    · simp only [Nested.find?_insert]
      by_cases hkey : g' = g ∧ s' = s
      · rw [hkey.1, hkey.2]
        exact .inr hretry
      · rw [if_neg hkey]
        exact hok g' s'
    · exact (Requests.specs_insert hreq).append_right _
    · unfold find?
      simp only [Nested.find?_insert]
      by_cases hkey : g' = g ∧ s' = s
      · rw [if_pos hkey, if_pos hkey]
        rfl
      · rw [if_neg hkey, if_neg hkey]

theorem Ok.resolved (hok : q.Ok) (h : q.find? g s = some (spec, b)) :
    (q.markDependencyResolved g s).Ok ∧ (q.markDependencyResolved g s).queued.Perm q.queued ∧
      ∀ g' s', (q.markDependencyResolved g s).find? g' s' =
        if g' = g ∧ s' = s then some (spec, true) else q.find? g' s' := by
  unfold markDependencyResolved
  obtain hreq | ⟨hnone, hretry⟩ := find?_cases h
  · have hother := (hok g s).resolve_left (by rw [hreq]; simp)
    rw [hreq]
    refine ⟨fun g' s' => ?_, (Requests.specs_change hreq true).append_right _, fun g' s' => ?_⟩
    · simp only [Nested.find?_insert]
      by_cases hkey : g' = g ∧ s' = s
      · rw [hkey.1, hkey.2]
        exact .inr hother
      · rw [if_neg hkey]
        exact hok g' s'
    · unfold find?
      simp only [Nested.find?_insert]
      by_cases hkey : g' = g ∧ s' = s
      · rw [if_pos hkey, if_pos hkey]
        rfl
      · rw [if_neg hkey, if_neg hkey]
  · rw [hnone]
    simp only [hretry]
    refine ⟨fun g' s' => ?_, (Requests.specs_change hretry true).append_left _, fun g' s' => ?_⟩
    · simp only [Nested.find?_insert]
      by_cases hkey : g' = g ∧ s' = s
      · rw [hkey.1, hkey.2]
        exact .inl hnone
      · rw [if_neg hkey]
        exact hok g' s'
    · unfold find?
      simp only [Nested.find?_insert]
      by_cases hkey : g' = g ∧ s' = s
      · rw [if_pos hkey, if_pos hkey, hkey.1, hkey.2, hnone]
        rfl
      · rw [if_neg hkey, if_neg hkey]

theorem Ok.removeRequest (hok : q.Ok) (h : Nested.find? q.requestsPerGroup g s = some (spec, b)) :
    Ok { q with requestsPerGroup := Nested.remove q.requestsPerGroup g s } ∧
      q.queued.Perm (spec ::
        queued { q with requestsPerGroup := Nested.remove q.requestsPerGroup g s }) ∧
      ∀ g' s', find? { q with requestsPerGroup := Nested.remove q.requestsPerGroup g s } g' s' =
        if g' = g ∧ s' = s then none else q.find? g' s' := by
  have hother := (hok g s).resolve_left (by rw [h]; simp)
  refine ⟨fun g' s' => ?_, (Requests.specs_remove h).append_right _, fun g' s' => ?_⟩
  · simp only [Nested.find?_remove]
    by_cases hkey : g' = g ∧ s' = s
    · rw [if_pos hkey]
      exact .inl rfl
    · rw [if_neg hkey]
      exact hok g' s'
  · unfold find?
    simp only [Nested.find?_remove]
    by_cases hkey : g' = g ∧ s' = s
    · rw [if_pos hkey, if_pos hkey, hkey.1, hkey.2, hother]
      rfl
    · rw [if_neg hkey, if_neg hkey]

theorem Ok.removeRetry (hok : q.Ok)
    (h : Nested.find? q.retryRequestsPerGroup g s = some (spec, b)) :
    Ok { q with retryRequestsPerGroup := Nested.remove q.retryRequestsPerGroup g s } ∧
      q.queued.Perm (spec ::
        queued { q with retryRequestsPerGroup := Nested.remove q.retryRequestsPerGroup g s }) ∧
      ∀ g' s', find? { q with
          retryRequestsPerGroup := Nested.remove q.retryRequestsPerGroup g s } g' s' =
        if g' = g ∧ s' = s then none else q.find? g' s' := by
  have hother := (hok g s).resolve_right (by rw [h]; simp)
  refine ⟨fun g' s' => ?_, ((Requests.specs_remove h).append_left _).trans List.perm_middle,
    fun g' s' => ?_⟩
  · simp only [Nested.find?_remove]
    by_cases hkey : g' = g ∧ s' = s
    · rw [if_pos hkey]
      exact .inr rfl
    · rw [if_neg hkey]
      exact hok g' s'
  · unfold find?
    simp only [Nested.find?_remove]
    by_cases hkey : g' = g ∧ s' = s
    · rw [if_pos hkey, if_pos hkey, hkey.1, hkey.2, hother]
      rfl
    · rw [if_neg hkey, if_neg hkey]

theorem Ok.removeTask (hok : q.Ok) (h : q.find? g s = some (spec, b)) :
    (q.removeTask g s).Ok ∧ q.queued.Perm (spec :: (q.removeTask g s).queued) ∧
      ∀ g' s', (q.removeTask g s).find? g' s' =
        if g' = g ∧ s' = s then none else q.find? g' s' := by
  unfold SequentialActorSubmitQueue.removeTask
  obtain hreq | ⟨hnone, hretry⟩ := find?_cases h
  · rw [if_pos (by rw [hreq]; rfl)]
    exact hok.removeRequest hreq
  · rw [if_neg (by rw [hnone]; simp)]
    exact hok.removeRetry hretry

variable {item : TaskSpecification T × Bool}

theorem mem_readyRetries :
    (g, s, item) ∈ q.readyRetries ↔
      Nested.find? q.retryRequestsPerGroup g s = some item ∧ item.2 = true := by
  rw [readyRetries, List.mem_filter, Nested.mem_items]

theorem mem_readyHeads : (g, s, item) ∈ q.readyHeads ↔
    (∃ d, q.requestsPerGroup.get? g = some d ∧ d.begin? = some (s, item)) ∧ item.2 = true := by
  rw [readyHeads, List.mem_filter]
  refine and_congr_left' ?_
  rw [List.mem_filterMap]
  constructor
  · rintro ⟨e, he, heq⟩
    obtain ⟨head, hhead, heq⟩ := Option.map_eq_some_iff.mp heq
    rw [Prod.mk.injEq] at heq
    obtain ⟨rfl, rfl⟩ := heq
    exact ⟨e.2, Dict.get?_eq_some_iff.mpr he, hhead⟩
  · rintro ⟨d, hd, hhead⟩
    exact ⟨(g, d), Dict.get?_eq_some_iff.mp hd, by rw [hhead]; rfl⟩

theorem popNextTaskToSend_cases {skipQueue : Bool}
    (h : q.popNextTaskToSend hash = some ((spec, skipQueue), q')) :
    (∃ g s, skipQueue = true ∧ Nested.find? q.retryRequestsPerGroup g s = some (spec, true) ∧
      q' = { q with retryRequestsPerGroup := Nested.remove q.retryRequestsPerGroup g s }) ∨
    ∃ g s d, skipQueue = false ∧ q.requestsPerGroup.get? g = some d ∧
      d.begin? = some (s, (spec, true)) ∧
      q' = { q with requestsPerGroup := Nested.remove q.requestsPerGroup g s } := by
  unfold popNextTaskToSend at h
  split at h
  next g s spec' b' hpick =>
      rw [Option.some.injEq, Prod.mk.injEq, Prod.mk.injEq] at h
      obtain ⟨⟨rfl, rfl⟩, rfl⟩ := h
      obtain ⟨hfind, hb⟩ := mem_readyRetries.mp (mem_of_pick hpick)
      obtain rfl : b' = true := hb
      exact .inl ⟨g, s, rfl, hfind, rfl⟩
  · split at h
    next g s spec' b' hpick =>
        rw [Option.some.injEq, Prod.mk.injEq, Prod.mk.injEq] at h
        obtain ⟨⟨rfl, rfl⟩, rfl⟩ := h
        obtain ⟨⟨d, hd, hhead⟩, hb⟩ := mem_readyHeads.mp (mem_of_pick hpick)
        obtain rfl : b' = true := hb
        exact .inr ⟨g, s, d, rfl, hd, hhead, rfl⟩
    · cases h

theorem find?_of_begin? {d : Dict ℕ (TaskSpecification T × Bool)}
    {m : Requests T} (hd : m.get? g = some d) (hhead : d.begin? = some (s, item)) :
    Nested.find? m g s = some item := by
  rw [Nested.find?, hd, Option.bind_some, Dict.get?_of_begin? hhead]

instance : LawfulActorSubmitQueue (SequentialActorSubmitQueue T) T where
  Ok := Ok
  queued := queued
  find? := find?
  ok_init _ _ := .inl rfl
  queued_init := rfl
  find?_init _ _ := rfl
  contains_iff _ _ _ := contains_iff
  emplace spec hok h := hok.emplace h spec
  resolved hok h := ⟨_, rfl, hok.resolved h⟩
  failed hok h := hok.removeTask h
  canceled hok h := hok.removeTask h
  popped := by
    intro q q' hash spec skipQueue hok h
    obtain ⟨g, s, _, hfind, rfl⟩ | ⟨g, s, d, _, hd, hhead, rfl⟩ := popNextTaskToSend_cases h
    · obtain ⟨hok', hperm, hrest⟩ := hok.removeRetry hfind
      refine ⟨hok', hperm, g, s, ?_, hrest⟩
      rw [find?, (hok g s).resolve_right (by rw [hfind]; simp), Option.none_or, hfind]
    · have hfind := find?_of_begin? hd hhead
      obtain ⟨hok', hperm, hrest⟩ := hok.removeRequest hfind
      refine ⟨hok', hperm, g, s, ?_, hrest⟩
      rw [find?, hfind, Option.some_or]

end SequentialActorSubmitQueue

/-! ### The out-of-order queue -/

namespace OutofOrderActorSubmitQueue

variable {q q' : OutofOrderActorSubmitQueue T}

/-- A call by its group and number, which is pending or can be sent. -/
def find? (q : OutofOrderActorSubmitQueue T) (g : String) (s : ℕ) :
    Option (TaskSpecification T × Bool) :=
  (Nested.find? q.pendingQueuePerGroup g s).or (Nested.find? q.sendingQueuePerGroup g s)

/-- A pending call is not resolved and cannot be sent; a call that can be sent is resolved. -/
structure Ok (q : OutofOrderActorSubmitQueue T) : Prop where
  pending : ∀ {g s item}, Nested.find? q.pendingQueuePerGroup g s = some item →
    item.2 = false ∧ Nested.find? q.sendingQueuePerGroup g s = none
  sending : ∀ {g s item}, Nested.find? q.sendingQueuePerGroup g s = some item → item.2 = true

/-- The calls in the queue. -/
def queued (q : OutofOrderActorSubmitQueue T) : List (TaskSpecification T) :=
  Requests.specs q.pendingQueuePerGroup ++ Requests.specs q.sendingQueuePerGroup

theorem contains_iff : q.contains g s = true ↔ (q.find? g s).isSome := by
  rw [contains, find?, Option.isSome_or]

theorem Ok.find?_false (hok : q.Ok) (h : q.find? g s = some (spec, false)) :
    Nested.find? q.pendingQueuePerGroup g s = some (spec, false) := by
  unfold find? at h
  cases hp : Nested.find? q.pendingQueuePerGroup g s with
  | none =>
    rw [hp, Option.none_or] at h
    exact absurd (hok.sending h) (by simp)
  | some x =>
    rw [hp, Option.some_or] at h
    exact h

theorem find?_touch (m : Requests T) (g g' : String) (s' : ℕ) :
    Nested.find? (m.set g ((m.get? g).getD Dict.empty)) g' s' = Nested.find? m g' s' := by
  unfold Nested.find?
  rw [Dict.get?_set]
  split_ifs with hg
  · rw [hg]
    cases m.get? g <;> rfl
  · rfl

theorem specs_touch (m : Requests T) (g : String) :
    (Requests.specs (m.set g ((m.get? g).getD Dict.empty))).Perm (Requests.specs m) := by
  refine List.Perm.map _ ((Nested.items_set_perm m g _).trans ?_)
  cases hm : m.get? g with
  | none =>
    rw [Dict.erase_of_get?_eq_none hm]
    exact .refl _
  | some d => exact (Nested.items_perm hm).symm

theorem Ok.emplace (hok : q.Ok) (h : q.find? g s = none) (spec : TaskSpecification T) :
    ∃ q', q.emplace g s spec = .ok q' ∧ q'.Ok ∧ q'.queued.Perm (spec :: q.queued) ∧
      ∀ g' s', q'.find? g' s' = if g' = g ∧ s' = s then some (spec, false) else q.find? g' s' := by
  obtain ⟨hpending, hsending⟩ := Option.or_eq_none_iff.mp h
  have hnone : ((q.sendingQueuePerGroup.get? g).getD Dict.empty).get? s = none := by
    rw [Nested.find?] at hsending
    cases hm : q.sendingQueuePerGroup.get? g with
    | none => rfl
    | some d =>
      rw [hm, Option.bind_some] at hsending
      exact hsending
  unfold OutofOrderActorSubmitQueue.emplace
  simp only [hnone, hpending]
  refine ⟨_, rfl, ⟨fun {g' s' item} hitem => ?_, fun {g' s' item} hitem => ?_⟩, ?_,
    fun g' s' => ?_⟩
  · simp only [Nested.find?_insert, find?_touch] at hitem ⊢
    by_cases hkey : g' = g ∧ s' = s
    · rw [if_pos hkey, Option.some.injEq] at hitem
      rw [← hitem, hkey.1, hkey.2]
      exact ⟨rfl, hsending⟩
    · rw [if_neg hkey] at hitem
      exact hok.pending hitem
  · simp only [find?_touch] at hitem
    exact hok.sending hitem
  · exact ((Requests.specs_insert hpending).append_right _).trans
      (((specs_touch _ _).append_left _).cons _)
  · unfold find?
    simp only [Nested.find?_insert, find?_touch]
    by_cases hkey : g' = g ∧ s' = s
    · rw [if_pos hkey, if_pos hkey]
      rfl
    · rw [if_neg hkey, if_neg hkey]

theorem Ok.resolved (hok : q.Ok) (h : q.find? g s = some (spec, false)) :
    ∃ q', q.markDependencyResolved g s = .ok q' ∧ q'.Ok ∧ q'.queued.Perm q.queued ∧
      ∀ g' s', q'.find? g' s' = if g' = g ∧ s' = s then some (spec, true) else q.find? g' s' := by
  have hpending := hok.find?_false h
  have hsending := (hok.pending hpending).2
  unfold markDependencyResolved
  simp only [hpending, hsending]
  refine ⟨_, rfl, ⟨fun {g' s' item} hitem => ?_, fun {g' s' item} hitem => ?_⟩, ?_,
    fun g' s' => ?_⟩
  · simp only [Option.isSome_none, Bool.false_eq_true, if_false, Nested.find?_remove,
      Nested.find?_insert] at hitem ⊢
    by_cases hkey : g' = g ∧ s' = s
    · rw [if_pos hkey] at hitem
      cases hitem
    · rw [if_neg hkey] at hitem ⊢
      exact hok.pending hitem
  · simp only [Option.isSome_none, Bool.false_eq_true, if_false, Nested.find?_insert] at hitem
    by_cases hkey : g' = g ∧ s' = s
    · rw [if_pos hkey, Option.some.injEq] at hitem
      rw [← hitem]
    · rw [if_neg hkey] at hitem
      exact hok.sending hitem
  · have hperm := (Requests.specs_remove hpending).append_right (Requests.specs q.sendingQueuePerGroup)
    refine List.Perm.trans ?_ hperm.symm
    exact ((Requests.specs_insert hsending).append_left _).trans List.perm_middle
  · unfold find?
    simp only [Option.isSome_none, Bool.false_eq_true, if_false, Nested.find?_remove,
      Nested.find?_insert]
    by_cases hkey : g' = g ∧ s' = s
    · rw [if_pos hkey, if_pos hkey, if_pos hkey]
      rfl
    · rw [if_neg hkey, if_neg hkey, if_neg hkey]

theorem Ok.removePending (hok : q.Ok)
    (h : Nested.find? q.pendingQueuePerGroup g s = some (spec, b)) :
    Ok { q with pendingQueuePerGroup := Nested.remove q.pendingQueuePerGroup g s } ∧
      q.queued.Perm (spec ::
        queued { q with pendingQueuePerGroup := Nested.remove q.pendingQueuePerGroup g s }) ∧
      ∀ g' s', find? { q with
          pendingQueuePerGroup := Nested.remove q.pendingQueuePerGroup g s } g' s' =
        if g' = g ∧ s' = s then none else q.find? g' s' := by
  have hother := (hok.pending h).2
  refine ⟨⟨fun {g' s' item} hitem => ?_, hok.sending⟩,
    (Requests.specs_remove h).append_right _, fun g' s' => ?_⟩
  · simp only [Nested.find?_remove] at hitem
    split_ifs at hitem
    exact hok.pending hitem
  · unfold find?
    simp only [Nested.find?_remove]
    by_cases hkey : g' = g ∧ s' = s
    · rw [if_pos hkey, if_pos hkey, hkey.1, hkey.2, hother]
      rfl
    · rw [if_neg hkey, if_neg hkey]

theorem Ok.removeSending (hok : q.Ok)
    (h : Nested.find? q.sendingQueuePerGroup g s = some (spec, b)) :
    Ok { q with sendingQueuePerGroup := Nested.remove q.sendingQueuePerGroup g s } ∧
      q.queued.Perm (spec ::
        queued { q with sendingQueuePerGroup := Nested.remove q.sendingQueuePerGroup g s }) ∧
      q.find? g s = some (spec, b) ∧
      ∀ g' s', find? { q with
          sendingQueuePerGroup := Nested.remove q.sendingQueuePerGroup g s } g' s' =
        if g' = g ∧ s' = s then none else q.find? g' s' := by
  have hother : Nested.find? q.pendingQueuePerGroup g s = none := by
    by_contra hne
    obtain ⟨x, hx⟩ := Option.ne_none_iff_exists'.mp hne
    rw [(hok.pending hx).2] at h
    cases h
  refine ⟨⟨fun {g' s' item} hitem => ?_, fun {g' s' item} hitem => ?_⟩,
    ((Requests.specs_remove h).append_left _).trans List.perm_middle, ?_, fun g' s' => ?_⟩
  · obtain ⟨hfalse, hnone⟩ := hok.pending hitem
    simp only [Nested.find?_remove, hnone, ite_self]
    exact ⟨hfalse, trivial⟩
  · simp only [Nested.find?_remove] at hitem
    split_ifs at hitem
    exact hok.sending hitem
  · rw [find?, hother, Option.none_or, h]
  · unfold find?
    simp only [Nested.find?_remove]
    by_cases hkey : g' = g ∧ s' = s
    · rw [if_pos hkey, if_pos hkey, hkey.1, hkey.2, hother]
      rfl
    · rw [if_neg hkey, if_neg hkey]

instance : LawfulActorSubmitQueue (OutofOrderActorSubmitQueue T) T where
  Ok := Ok
  queued := queued
  find? := find?
  ok_init := ⟨fun h => absurd h (by simp [ActorSubmitQueue.init]),
    fun h => absurd h (by simp [ActorSubmitQueue.init])⟩
  queued_init := rfl
  find?_init _ _ := rfl
  contains_iff _ _ _ := contains_iff
  emplace spec hok h := hok.emplace h spec
  resolved hok h := hok.resolved h
  failed hok h := hok.removePending (hok.find?_false h)
  canceled := by
    intro q g s spec b hok h
    show Ok (q.markTaskCanceled g s) ∧ _
    unfold ActorSubmitQueue.markTaskCanceled instActorSubmitQueue markTaskCanceled
    cases hp : Nested.find? q.pendingQueuePerGroup g s with
    | none =>
      rw [find?, hp, Option.none_or] at h
      obtain ⟨hok', hperm, _, hrest⟩ := hok.removeSending h
      simp only [hp]
      exact ⟨hok', hperm, hrest⟩
    | some x =>
      rw [find?, hp, Option.some_or, Option.some.injEq] at h
      rw [h] at hp
      simp only [hp]
      exact hok.removePending hp
  popped := by
    intro q q' hash spec skipQueue hok h
    change q.popNextTaskToSend hash = _ at h
    unfold OutofOrderActorSubmitQueue.popNextTaskToSend at h
    split at h
    next g s spec' b' hpick =>
        rw [Option.some.injEq, Prod.mk.injEq, Prod.mk.injEq] at h
        obtain ⟨⟨rfl, _⟩, rfl⟩ := h
        obtain ⟨e, he, heq⟩ := List.mem_filterMap.mp (mem_of_pick hpick)
        obtain ⟨head, hhead, heq⟩ := Option.map_eq_some_iff.mp heq
        rw [Prod.mk.injEq] at heq
        obtain ⟨rfl, rfl⟩ := heq
        have hfind : Nested.find? q.sendingQueuePerGroup e.1 s = some (spec', b') :=
          SequentialActorSubmitQueue.find?_of_begin? (Dict.get?_eq_some_iff.mpr he) hhead
        obtain rfl : b' = true := hok.sending hfind
        obtain ⟨hok', hperm, hget, hrest⟩ := hok.removeSending hfind
        exact ⟨hok', hperm, e.1, s, hget, hrest⟩
    · exact absurd h (by simp)

end OutofOrderActorSubmitQueue
end RayTfm.CoreWorker
