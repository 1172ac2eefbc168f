import RayTfm.Data.AsyncGenOutputs
import RayTfm.Py

/-! # The runs of `make_async_gen`

The invariant of a run is that the generator is in some round and that each worker's outputs are on
their way (`Good`).  From it follow the order of what is yielded, that the generator does not end
when something raised, and where it can get stuck: it waits for a worker that puts nothing more,
while the filling worker waits for room in the queue of a later worker to put the exception of the
base iterator. -/

namespace RayTfm.Data

variable {T U E : Type}

/-! ### The invariant -/

namespace AsyncGen

open AsyncGenArgs

variable {args : AsyncGenArgs T U E} {s s' : AsyncGen T U E}

/-- The invariant while the generator runs. -/
structure Good (args : AsyncGenArgs T U E) (s : AsyncGen T U E) (t : ℕ) (done : List ℕ)
    (taken : ℕ → List (QueuedOutput U E)) : Prop where
  turn : Turn args s.remaining s.round s.emptyQueues s.yielded t done taken
  filling : s.filling.Valid args
  carries : ∀ j < args.numWorkers, Carries args j (taken j) (s.filling.coming args j)
    (s.filling.hasPut args j)
    (s.inputQueues j) (s.workers j) (s.outputQueues j)

variable {t : ℕ} {done : List ℕ} {taken : ℕ → List (QueuedOutput U E)}

theorem Good.init (args : AsyncGenArgs T U E) : Good args (init args) 0 [] (fun _ => []) := by
  refine ⟨.init args, trivial, fun j _ => ⟨[], ?_, rfl⟩⟩
  rfl

variable {α : Type} {queue : List α}
variable {item : α}

theorem boundedPut_eq_ok {maxSize : ℕ} {queue' : List α}
    (h : boundedPut maxSize queue item = .ok queue') : queue' = queue ++ [item] := by
  unfold boundedPut at h
  split_ifs at h
  exact (Except.ok.inj h).symm

theorem blockingGet_eq_ok {queue' : List α}
    (h : blockingGet queue = .ok (item, queue')) : queue = item :: queue' := by
  cases queue with
  | nil => cases h
  | cons x queue =>
    cases h
    rfl

theorem Good.fill (h : Good args s t done taken) (hrun : s.fill args = .ok s') :
    Good args s' t done taken ∧ s'.outcome = s.outcome := by
  obtain ⟨hturn, hvalid, hcarries⟩ := h
  unfold AsyncGen.fill at hrun
  cases hfilling : s.filling with
  | dealing idx rest =>
    rw [hfilling] at hrun hvalid hcarries
    cases rest with
    | nil =>
      cases hrun
      refine ⟨⟨hturn, FillingWorker.valid_filled, fun j hj => ?_⟩, rfl⟩
      have := hcarries j hj
      rw [FillingWorker.coming_filled, FillingWorker.hasPut_filled hj]
      exact this
    | cons item rest =>
      cases hrun
      refine ⟨⟨hturn, trivial, fun j hj => ?_⟩, rfl⟩
      have := hcarries j hj
      simp only [FillingWorker.coming, dealt] at this
      by_cases hidx : idx % args.numWorkers = j
      · rw [if_pos hidx] at this
        simp only [hidx, Function.update_self]
        exact this.putInput
      · rw [if_neg hidx] at this
        simp only [Function.update_of_ne (Ne.symm hidx)]
        exact this
  | sentinels idx =>
    rw [hfilling] at hrun hvalid hcarries
    dsimp only at hrun
    split_ifs at hrun with hidx
    · cases hrun
      refine ⟨⟨hturn, hvalid, fun j hj => ?_⟩, rfl⟩
      have := hcarries j hj
      simp only [FillingWorker.coming] at this
      simp only [Nat.mod_eq_of_lt hidx, FillingWorker.coming]
      by_cases hij : idx = j
      · subst hij
        rw [if_pos le_rfl] at this
        rw [if_neg (Nat.not_succ_le_self idx), Function.update_self]
        exact this.putInput
      · rw [Function.update_of_ne (Ne.symm hij), if_congr (show idx + 1 ≤ j ↔ idx ≤ j by omega) rfl rfl]
        exact this
    · cases hrun
      refine ⟨⟨hturn, trivial, fun j hj => ?_⟩, rfl⟩
      have := hcarries j hj
      simp only [FillingWorker.coming] at this
      rw [if_neg (by omega)] at this
      have hraised : args.raised = none := hvalid
      simp only [FillingWorker.coming, FillingWorker.hasPut, hraised]
      exact this
  | exceptions e left =>
    rw [hfilling] at hrun hvalid hcarries
    obtain ⟨hraised, hinterrupted, m, hm, hleft⟩ := hvalid
    cases left with
    | nil =>
      cases hrun
      refine ⟨⟨hturn, trivial, fun j hj => ?_⟩, rfl⟩
      have := hcarries j hj
      rw [FillingWorker.hasPut_ended hraised, hinterrupted]
      exact this
    | cons i left =>
      obtain ⟨queue, hput, hrun⟩ := bind_eq_ok.mp hrun
      cases hrun
      obtain rfl := boundedPut_eq_ok hput
      obtain ⟨rfl, hleft'⟩ : m = i + 1 ∧ left = (List.range i).reverse := by
        cases m with
        | zero => cases hleft
        | succ m =>
          rw [List.range_succ, List.reverse_append] at hleft
          cases hleft
          exact ⟨rfl, rfl⟩
      refine ⟨⟨hturn, ⟨hraised, hinterrupted, i, by omega, hleft'⟩, fun j hj => ?_⟩, rfl⟩
      have := hcarries j hj
      simp only [FillingWorker.coming, FillingWorker.hasPut, List.mem_cons] at this ⊢
      by_cases hij : j = i
      · subst hij
        rw [if_pos (.inl rfl)] at this
        rw [if_neg (by simp [hleft']), Function.update_self]
        exact this.putException e
      · rw [Function.update_of_ne hij]
        simpa only [hij, false_or] using this
  | ended =>
    rw [hfilling] at hrun
    cases hrun

variable {j : ℕ}

theorem Good.transform (h : Good args s t done taken) (hrun : s.transform args j = .ok s') :
    Good args s' t done taken ∧ s'.outcome = s.outcome := by
  obtain ⟨hturn, hvalid, hcarries⟩ := h
  unfold AsyncGen.transform at hrun
  cases hw : s.workers j with
  | mk pending running =>
    rw [hw] at hrun
    cases pending with
    | cons o pending =>
      obtain ⟨queue, hput, hrun⟩ := bind_eq_ok.mp hrun
      cases hrun
      obtain rfl := boundedPut_eq_ok hput
      refine ⟨⟨hturn, hvalid, fun i hi => ?_⟩, rfl⟩
      by_cases hij : i = j
      · subst hij
        have := hcarries i hi
        rw [hw] at this
        simp only [Function.update_self]
        exact this.put
      · simp only [Function.update_of_ne hij]
        exact hcarries i hi
    | nil =>
      split_ifs at hrun with hrunning
      obtain ⟨⟨item, queue⟩, hget, hrun⟩ := bind_eq_ok.mp hrun
      cases hrun
      refine ⟨⟨hturn, hvalid, fun i hi => ?_⟩, rfl⟩
      by_cases hij : i = j
      · subst hij
        have := hcarries i hi
        rw [hw, blockingGet_eq_ok hget] at this
        simp only [Function.update_self]
        exact this.getInput hrunning
      · simp only [Function.update_of_ne hij]
        exact hcarries i hi

/-- What the generator has yielded before round `t` and in it. -/
def YieldedInOrder (args : AsyncGenArgs T U E) (yielded : List U) : Prop :=
  ∃ t done, done <+: (List.range args.numWorkers).filter (fun j => !args.endedAt t j) ∧
    yielded = args.rounds t ++ done.filterMap (fun j => args.resultAt j t)

/-- What the generator has yielded when all workers have put their sentinels. -/
def YieldedAll (args : AsyncGenArgs T U E) (yielded : List U) : Prop :=
  ∃ t, (∀ j < args.numWorkers, args.endedAt t j = true) ∧ yielded = args.rounds t

theorem Good.yielded (h : Good args s t done taken) : YieldedInOrder args s.yielded := by
  refine ⟨t, done, ?_, h.turn.yielded_eq⟩
  rw [← h.turn.remaining_eq, h.turn.split]
  exact List.prefix_append done s.round

theorem Good.iterate (h : Good args s t done taken) (hrunning : s.outcome = .running)
    (hrun : s.iterate = .ok s') :
    YieldedInOrder args s'.yielded ∧
    (s'.outcome = .running → ∃ t done taken, Good args s' t done taken) ∧
      (s'.outcome = .ended → YieldedAll args s'.yielded) := by
  have hyielded := h.yielded
  obtain ⟨hturn, hvalid, hcarries⟩ := h
  unfold AsyncGen.iterate at hrun
  cases hround : s.round with
  | nil =>
    rw [hround] at hrun hturn
    have hremaining : (if s.emptyQueues = [] then s.remaining else s.remaining.filter
      (fun j => j ∉ s.emptyQueues)) =
        s.remaining.filter (fun j => j ∉ s.emptyQueues) := by
      split_ifs with hempty
      · rw [hempty, List.filter_eq_self.mpr]
        intro j _
        simp
      · rfl
    rw [hremaining] at hrun
    cases hrun
    have hnext := hturn.next
    refine ⟨hyielded, fun _ => ⟨t + 1, [], taken, hnext, hvalid, hcarries⟩,
      fun hended => ⟨t + 1, fun j hj => ?_, ?_⟩⟩
    · by_contra hne
      have hmem := hnext.mem_remaining.mpr ⟨hj, Bool.not_eq_true _ ▸ hne⟩
      split_ifs at hended with hnil
      rw [hnil] at hmem
      cases hmem
    · have := hnext.yielded_eq
      rwa [List.filterMap_nil, List.append_nil] at this
  | cons j round =>
    rw [hround] at hrun hturn
    obtain ⟨⟨o, queue⟩, hget, hrun⟩ := bind_eq_ok.mp hrun
    have hj : j < args.numWorkers := by
      refine (hturn.mem_remaining.mp ?_).1
      rw [hturn.split]
      exact List.mem_append_right _ (.head _)
    have hcarry := hcarries j hj
    rw [blockingGet_eq_ok hget] at hcarry
    have hgood : (∀ e, o ≠ .exception e) → Good args { s with
        outputQueues := Function.update s.outputQueues j queue
        round := round
        emptyQueues := if o.isSentinel then s.emptyQueues ++ [j] else s.emptyQueues
        yielded := s.yielded ++ o.result?.toList } t (done ++ [j])
          (Function.update taken j (taken j ++ [o])) := by
      intro hexc
      obtain ⟨ho, hcarry⟩ := hcarry.get hexc
      refine ⟨hturn.get ho hexc, hvalid, fun i hi => ?_⟩
      by_cases hij : i = j
      · subst hij
        simp only [Function.update_self]
        exact hcarry
      · simp only [Function.update_of_ne hij]
        exact hcarries i hi
    cases o with
    | exception e =>
      cases hrun
      exact ⟨hyielded, by simp, by simp⟩
    | sentinel =>
      cases hrun
      have h' := hgood (by simp)
      rw [show s.yielded ++ (QueuedOutput.sentinel : QueuedOutput U E).result?.toList = s.yielded from
        List.append_nil _] at h'
      exact ⟨h'.yielded, fun _ => ⟨_, _, _, h'⟩, fun hended => by rw [hrunning] at hended; cases hended⟩
    | result u =>
      cases hrun
      have h' := hgood (by simp)
      exact ⟨h'.yielded, fun _ => ⟨_, _, _, h'⟩, fun hended => by rw [hrunning] at hended; cases hended⟩

theorem reached_inv (h : Reached args s) :
    YieldedInOrder args s.yielded ∧ (s.outcome = .running → ∃ t done taken, Good args s t done taken) ∧
      (s.outcome = .ended → YieldedAll args s.yielded) := by
  refine Reach.inv (P := fun s => YieldedInOrder args s.yielded ∧
    (s.outcome = .running → ∃ t done taken, Good args s t done taken) ∧
    (s.outcome = .ended → YieldedAll args s.yielded)) h
      ⟨(Good.init args).yielded, fun _ => ⟨_, _, _, .init args⟩, ?_⟩ ?_
  · exact fun hended => by cases hended
  · rintro s thread s' ⟨hyielded, hgood, -⟩ - hstep
    unfold step at hstep
    split at hstep
    · next hrunning =>
      obtain ⟨t, done, taken, hgood⟩ := hgood hrunning
      cases thread with
      | filling =>
        obtain ⟨hgood', houtcome⟩ := hgood.fill hstep
        exact ⟨hgood'.yielded, fun _ => ⟨_, _, _, hgood'⟩, by simp [houtcome, hrunning]⟩
      | transforming j =>
        dsimp only at hstep
        split_ifs at hstep
        obtain ⟨hgood', houtcome⟩ := hgood.transform hstep
        exact ⟨hgood'.yielded, fun _ => ⟨_, _, _, hgood'⟩, by simp [houtcome, hrunning]⟩
      | iterating => exact hgood.iterate hrunning hstep
    · cases hstep

/-! ### The generator ends, or an exception is raised -/

theorem raised_eq_none_of_ended (hn : 1 ≤ args.numWorkers) (h : YieldedAll args s.yielded) :
    args.raised = none ∧ ∀ item ∈ args.items, (args.fn item).raised = none := by
  obtain ⟨t, hended, -⟩ := h
  have hsentinel : ∀ j < args.numWorkers, .sentinel ∈ args.outputs j :=
    fun j hj => List.mem_of_mem_take (endedAt_eq_true_iff.mp (hended j hj))
  refine ⟨(of_sentinel_mem (hsentinel 0 hn)).1, fun item hitem => ?_⟩
  obtain ⟨j, hj, hdealt⟩ := (mem_dealt_iff hn).mp hitem
  exact (of_sentinel_mem (hsentinel j hj)).2 item hdealt

/-! ### One result for each item -/

section
variable {f : T → U} (hf : ∀ item ∈ args.items, args.fn item = ⟨[f item], none⟩)
    (hn : 1 ≤ args.numWorkers)
include hf hn

theorem outputs_of_map {j : ℕ} (hj : j < args.numWorkers) :
    args.outputs j = (dealt args.numWorkers 0 args.items j).map (fun item => .result (f item)) ++
      args.outputsOf args.closing := by
  have hdealt : ∀ item ∈ dealt args.numWorkers 0 args.items j, args.fn item = ⟨[f item], none⟩ :=
    fun item hitem => hf item ((mem_dealt_iff hn).mpr ⟨j, hj, hitem⟩)
  unfold outputs
  generalize dealt args.numWorkers 0 args.items j = items at hdealt
  induction items with
  | nil => rfl
  | cons item items ih =>
    rw [List.map_cons, List.cons_append, outputsOf, transformed, hdealt item List.mem_cons_self,
      ih (fun item' hitem' => hdealt item' (.tail _ hitem'))]
    rfl

theorem resultAt_of_map {j : ℕ} (hj : j < args.numWorkers) (k : ℕ) :
    args.resultAt j k = (args.items.map f)[j + args.numWorkers * k]? := by
  have hclosing : ∀ i : ℕ, ((args.outputsOf args.closing)[i]?).bind QueuedOutput.result? = none := by
    intro i
    unfold closing
    split_ifs
    · cases i with
      | zero => rfl
      | succ i => rfl
    · rfl
  rw [resultAt, outputs_of_map hf hn hj, List.getElem?_append, List.getElem?_map, List.length_map,
    List.getElem?_map, ← getElem?_dealt hj]
  split_ifs with hk
  · rw [List.getElem?_eq_getElem hk]
    rfl
  · rw [List.getElem?_eq_none (Nat.le_of_not_lt hk), hclosing]
    rfl

theorem row_of_map (t : ℕ) {m : ℕ} (hm : m ≤ args.numWorkers) :
    (List.range m).filterMap (fun j => args.resultAt j t) =
      ((args.items.map f).drop (args.numWorkers * t)).take m := by
  rw [← filterMap_range_getElem?]
  apply List.filterMap_congr
  intro j hj
  rw [resultAt_of_map hf hn (by rw [List.mem_range] at hj; omega), Nat.add_comm]

theorem rounds_of_map (t : ℕ) : args.rounds t = (args.items.map f).take (args.numWorkers * t) := by
  induction t with
  | zero => simp [rounds]
  | succ t ih => rw [rounds_succ, ih, row_of_map hf hn t le_rfl, Nat.mul_succ, List.take_add]

theorem prefix_of_yieldedInOrder {yielded : List U} (h : YieldedInOrder args yielded) :
    yielded <+: args.items.map f := by
  obtain ⟨t, done, ⟨rest, hdone⟩, rfl⟩ := h
  obtain ⟨l₁, l₂, hrange, hfilter, -⟩ := List.filter_eq_append_iff.mp hdone.symm
  obtain ⟨m, hm, rfl⟩ : ∃ m ≤ args.numWorkers, l₁ = List.range m := by
    have hle : l₁.length ≤ args.numWorkers := by
      rw [← List.length_range (n := args.numWorkers), hrange, List.length_append]
      omega
    refine ⟨l₁.length, hle, ?_⟩
    calc l₁ = (List.range args.numWorkers).take l₁.length := by rw [hrange, List.take_left]
      _ = List.range l₁.length := by rw [List.take_range, Nat.min_eq_left hle]
  have hrow : done.filterMap (fun j => args.resultAt j t) = (List.range m).filterMap
    (fun j => args.resultAt j t) := by
    rw [← hfilter, List.filterMap_filter]
    apply List.filterMap_congr
    intro j _
    cases hended : args.endedAt t j with
    | false => rfl
    | true => exact (resultAt_of_endedAt hended).symm
  rw [hrow, row_of_map hf hn t hm, rounds_of_map hf hn, ← List.take_add]
  exact List.take_prefix _ _

theorem eq_of_yieldedAll {yielded : List U} (h : YieldedAll args yielded) :
    yielded = args.items.map f := by
  obtain ⟨t, hended, rfl⟩ := h
  rw [rounds_of_map hf hn, List.take_of_length_le]
  have := resultAt_of_endedAt (hended 0 hn)
  rwa [resultAt_of_map hf hn hn, Nat.zero_add, List.getElem?_eq_none_iff] at this

end

/-! ### No deadlock -/

variable {h : Halted}

theorem boundedPut_eq_error {maxSize : ℕ}
    (heq : boundedPut maxSize queue item = .error h) : maxSize ≤ queue.length := by
  unfold boundedPut at heq
  split_ifs at heq with hlt
  exact Nat.le_of_not_lt hlt

theorem blockingGet_eq_error (heq : blockingGet queue = .error h) :
    queue = [] := by
  cases queue with
  | nil => rfl
  | cons x queue => cases heq

theorem bind_eq_error {β : Type} {x : Except Halted α} {g : α → β}
    (heq : (do let a ← x; return g a) = .error h) : x = .error h := by
  cases x with
  | error h' =>
    cases heq
    rfl
  | ok a => cases heq

/-- The filling worker that makes no step puts nothing more into the input queues. -/
theorem coming_of_fill_eq_error (heq : s.fill args = .error h) (j : ℕ) :
    s.filling.coming args j = [] := by
  unfold AsyncGen.fill at heq
  cases hfilling : s.filling with
  | dealing idx rest =>
    rw [hfilling] at heq
    cases rest with
    | nil => cases heq
    | cons item rest => cases heq
  | sentinels idx =>
    rw [hfilling] at heq
    dsimp only at heq
    split_ifs at heq
  | exceptions e left => rfl
  | ended => rfl

/-- The generator that is stuck waits for a worker that puts nothing more. -/
theorem Good.outputs_eq_taken (h : Good args s t done taken) (hb : 1 ≤ args.bufferSize)
    (hstuck : Stuck args s) :
    ∃ j round, s.round = j :: round ∧ j < args.numWorkers ∧ s.outputQueues j = [] ∧
    args.outputs j = taken j ∧
      s.filling.hasPut args j = none := by
  obtain ⟨hrunning, hhalted⟩ := hstuck
  simp only [step, hrunning] at hhalted
  obtain ⟨h₁, hiterate⟩ := hhalted .iterating
  unfold AsyncGen.iterate at hiterate
  cases hround : s.round with
  | nil =>
    rw [hround] at hiterate
    cases hiterate
  | cons j round =>
    rw [hround] at hiterate
    have hqueue := blockingGet_eq_error (bind_eq_error hiterate)
    have hj : j < args.numWorkers := by
      refine (h.turn.mem_remaining.mp ?_).1
      rw [h.turn.split, hround]
      exact List.mem_append_right _ (.head _)
    obtain ⟨kept, heq, hholds⟩ := h.carries j hj
    rw [hqueue] at hholds
    obtain ⟨rfl, hput⟩ := hholds.nil
    refine ⟨j, round, rfl, hj, hqueue, ?_, hput⟩
    obtain ⟨h₂, htransform⟩ := hhalted (.transforming j)
    obtain ⟨h₃, hfill⟩ := hhalted .filling
    dsimp only at htransform
    rw [if_pos hj] at htransform
    unfold AsyncGen.transform at htransform
    cases hpending : (s.workers j).pending with
    | cons o pending =>
      rw [hpending] at htransform
      have := boundedPut_eq_error (bind_eq_error htransform)
      rw [hqueue, List.length_nil] at this
      omega
    | nil =>
      rw [hpending] at htransform
      rw [← heq, hpending, List.nil_append, List.nil_append]
      split_ifs at htransform ⊢ with hgoes
      · rw [blockingGet_eq_error (bind_eq_error htransform), coming_of_fill_eq_error hfill]
        exact List.append_nil _
      · exact List.append_nil _

/-- What was taken are results, and none is missing from the round before. -/
theorem Good.le_numResults (h : Good args s t done taken) {i : ℕ} (hi : i < args.numWorkers)
    (hsentinel : .sentinel ∉ args.outputs i) : (if i ∈ done then t + 1 else t) ≤ args.numResults i ∧
      i ∈ s.remaining := by
  have hmem : i ∈ s.remaining := by
    rw [h.turn.mem_remaining]
    refine ⟨hi, ?_⟩
    rw [← Bool.not_eq_true, endedAt_eq_true_iff]
    exact fun hmem => hsentinel (List.mem_of_mem_take hmem)
  refine ⟨?_, hmem⟩
  have hresults : ∀ o ∈ taken i, o.isResult = true := by
    intro o ho
    cases o with
    | result u => rfl
    | sentinel =>
      rw [h.turn.taken_eq i hi] at ho
      exact absurd (List.mem_of_mem_take ho) hsentinel
    | exception e => exact absurd ho (h.turn.exception_notMem i hi e)
  rw [← h.turn.length_taken i hmem, ← List.countP_eq_length.mpr hresults, numResults,
    h.turn.taken_eq i hi]
  exact (List.take_sublist _ _).countP_le

theorem Good.starves (h : Good args s t done taken) {round : List ℕ} (hround : s.round = j :: round)
    (htaken : args.outputs j = taken j) : args.Starves j ∧ (args.outputs j).length = t := by
  have hpairwise := h.turn.pairwise
  have hsplit := h.turn.split
  rw [hround] at hsplit
  rw [hsplit, List.pairwise_append, List.pairwise_cons] at hpairwise
  have hmem : j ∈ s.remaining := by
    rw [hsplit]
    exact List.mem_append_right _ (.head _)
  obtain ⟨hj, hended⟩ := h.turn.mem_remaining.mp hmem
  have hdone : j ∉ done := fun hmem' => Nat.lt_irrefl j (hpairwise.2.2 j hmem' j (.head _))
  have hlen : (args.outputs j).length = t := by rw [htaken, h.turn.length_taken j hmem, if_neg hdone]
  refine ⟨⟨hj, fun o ho => ?_, fun i hi hij => ?_⟩, hlen⟩
  · cases o with
    | result u => rfl
    | sentinel =>
      rw [htaken, h.turn.taken_eq j hj, if_neg hdone, ← endedAt_eq_true_iff, hended] at ho
      cases ho
    | exception e =>
      rw [htaken] at ho
      exact absurd ho (h.turn.exception_notMem j hj e)
  · by_cases hsentinel : .sentinel ∈ args.outputs i
    · exact .inl hsentinel
    · right
      obtain ⟨hle, hmemi⟩ := h.le_numResults hi hsentinel
      rw [hlen]
      by_cases hlt : i < j
      · have hdonei : i ∈ done := by
          rw [hsplit, List.mem_append, List.mem_cons] at hmemi
          obtain hmemi | rfl | hmemi := hmemi
          · exact hmemi
          · exact absurd rfl hij
          · exact absurd (hpairwise.2.1.1 i hmemi) (Nat.lt_asymm hlt)
        rw [if_pos hdonei] at hle
        rw [if_pos hlt]
        exact hle
      · rw [if_neg hlt]
        refine Nat.le_trans ?_ hle
        split_ifs
        · exact Nat.le_succ t
        · exact le_rfl

/-- The generator does not get stuck if every worker that starves is relieved. -/
theorem Good.not_stuck (h : Good args s t done taken) (hb : 1 ≤ args.bufferSize)
    (hrelieved : args.Relieved) :
    ¬ Stuck args s := by
  intro hstuck
  obtain ⟨j, round, hround, hj, hqueue, htaken, hput⟩ := h.outputs_eq_taken hb hstuck
  obtain ⟨hstarves, hlen⟩ := h.starves hround htaken
  obtain ⟨e, hraised, hinterrupted, hroom⟩ := hrelieved j hstarves
  obtain ⟨hrunning, hhalted⟩ := hstuck
  simp only [step, hrunning] at hhalted
  obtain ⟨h₁, hfill⟩ := hhalted .filling
  have hvalid := h.filling
  unfold AsyncGen.fill at hfill
  cases hfilling : s.filling with
  | dealing idx rest =>
    rw [hfilling] at hfill
    cases rest with
    | nil => cases hfill
    | cons item rest => cases hfill
  | sentinels idx =>
    rw [hfilling] at hfill
    dsimp only at hfill
    split_ifs at hfill
  | ended =>
    rw [hfilling, FillingWorker.hasPut_ended hraised, hinterrupted] at hput
    cases hput
  | exceptions e' left =>
    rw [hfilling] at hfill hput hvalid
    obtain ⟨-, -, m, hm, rfl⟩ := hvalid
    cases m with
    | zero => cases hfill
    | succ m =>
      -- the exception is to be put into the queue of a later worker, which is full
      have hleft : (List.range (m + 1)).reverse = m :: (List.range m).reverse := by
        rw [List.range_succ, List.reverse_append]
        rfl
      rw [hleft] at hfill
      have hfull := boundedPut_eq_error (bind_eq_error hfill)
      have hjm : j < m := by
        have hle : j < m + 1 := by
          by_contra hge
          rw [FillingWorker.hasPut, if_neg (by simpa using hge)] at hput
          cases hput
        by_contra hge
        obtain rfl : j = m := by omega
        rw [hqueue, List.length_nil] at hfull
        omega
      have hcarry := h.carries m (by omega)
      rw [hfilling, FillingWorker.hasPut, if_pos (by simp)] at hcarry
      obtain ⟨kept, heq, hkept⟩ := hcarry
      obtain rfl : s.outputQueues m = kept := hkept
      have hsentinel : .sentinel ∉ args.outputs m := by
        intro hmem
        rw [(of_sentinel_mem hmem).1] at hraised
        cases hraised
      obtain ⟨-, hmem⟩ := h.le_numResults (show m < args.numWorkers by omega) hsentinel
      have htaken' := h.turn.length_taken m hmem
      have hlt := hroom m hjm (by omega)
      rw [← heq, List.length_append, List.length_append, hlen] at hlt
      split_ifs at htaken' with hdone
      · omega
      · omega

/-- Nothing starves if neither the base iterator raises nor `fn` ends a thread. -/
theorem relieved_of_not_raised (hn : 1 ≤ args.numWorkers) (hraised : args.raised = none)
    (hfn : ∀ item ∈ args.items, ∀ e, (args.fn item).raised = some e → args.endsThread e = false) :
    args.Relieved := by
  rintro j ⟨hj, hresults, -⟩
  exfalso
  have hdealt : ∀ item ∈ dealt args.numWorkers 0 args.items j, ∀ e, (args.fn item).raised = some e →
      args.endsThread e = false :=
    fun item hitem => hfn item ((mem_dealt_iff hn).mpr ⟨j, hj, hitem⟩)
  have hlast : ∃ o ∈ args.outputs j, o.isResult = false := by
    unfold outputs
    generalize dealt args.numWorkers 0 args.items j = items at hdealt
    induction items with
    | nil =>
      refine ⟨.sentinel, ?_, rfl⟩
      rw [List.map_nil, List.nil_append, closing, hraised]
      exact List.mem_singleton_self _
    | cons item items ih =>
      rw [List.map_cons, List.cons_append, outputsOf, transformed]
      cases hitem : (args.fn item).raised with
      | none =>
        obtain ⟨o, ho, hnot⟩ := ih (fun item' hitem' => hdealt item' (.tail _ hitem'))
        exact ⟨o, List.mem_append_right _ ho, hnot⟩
      | some e =>
        refine ⟨.exception e, ?_, rfl⟩
        simp [hdealt item List.mem_cons_self e hitem]
  obtain ⟨o, ho, hnot⟩ := hlast
  rw [hresults o ho] at hnot
  cases hnot

/-! ### Runs are finite -/

/-- The steps that an element of an input queue still causes, and those that an end of a round may
need. -/
def cost (args : AsyncGenArgs T U E) (x : Option T) : ℕ := 1 + 3 * (args.transformed x).pending.length

/-- The steps that the filling worker still causes. -/
def fillingWork (args : AsyncGenArgs T U E) : FillingWorker T E → ℕ
  | .dealing _ rest => (rest.map (fun item => 1 + cost args (some item))).sum +
      (5 * args.numWorkers + 2)
  | .sentinels idx => 5 * (args.numWorkers - idx) + 1
  | .exceptions _ left => 3 * left.length + 1
  | .ended => 0

/-- The steps that the queues of worker `j` still cause. -/
def queueWork (args : AsyncGenArgs T U E) (s : AsyncGen T U E) (j : ℕ) : ℕ :=
  ((s.inputQueues j).map (cost args)).sum + 3 * (s.workers j).pending.length + 2 *
    (s.outputQueues j).length

/-- The step at the end of a round. -/
def roundWork (s : AsyncGen T U E) : ℕ :=
  match s.outcome, s.round with
  | .running, [] => 1
  | _, _ => 0

/-- A bound for the steps that are still to come. -/
def work (args : AsyncGenArgs T U E) (s : AsyncGen T U E) : ℕ :=
  fillingWork args s.filling + ∑ j ∈ Finset.range args.numWorkers, queueWork args s j + roundWork s

theorem work_lt (hj : j < args.numWorkers)
    (hothers : ∀ i, i ≠ j → queueWork args s' i = queueWork args s i)
    (hlt : fillingWork args s'.filling + queueWork args s' j + roundWork s' <
      fillingWork args s.filling + queueWork args s j + roundWork s) : work args s' < work args s := by
  have hrest : ∑ i ∈ (Finset.range args.numWorkers).erase j, queueWork args s' i =
      ∑ i ∈ (Finset.range args.numWorkers).erase j, queueWork args s i :=
    Finset.sum_congr rfl (fun i hi => hothers i (Finset.ne_of_mem_erase hi))
  have hsum := Finset.add_sum_erase _ (queueWork args s) (Finset.mem_range.mpr hj)
  have hsum' := Finset.add_sum_erase _ (queueWork args s') (Finset.mem_range.mpr hj)
  unfold work
  omega

theorem fillingWork_filled : fillingWork args args.filled < 5 * args.numWorkers + 2 := by
  obtain ⟨-, h⟩ | ⟨e, -, -, h⟩ | ⟨e, -, -, h⟩ := FillingWorker.filled_cases args
  · rw [h, fillingWork]
    omega
  · rw [h, fillingWork]
    omega
  · rw [h, fillingWork, List.length_reverse, List.length_range]
    omega

theorem roundWork_le_one (s : AsyncGen T U E) : roundWork s ≤ 1 := by
  unfold roundWork
  split
  · exact le_rfl
  · exact Nat.zero_le 1

theorem Good.work_fill_lt (h : Good args s t done taken) (hn : 1 ≤ args.numWorkers)
    (hrun : s.fill args = .ok s') :
    work args s' < work args s := by
  have hvalid := h.filling
  unfold AsyncGen.fill at hrun
  cases hfilling : s.filling with
  | dealing idx rest =>
    rw [hfilling] at hrun
    cases rest with
    | nil =>
      cases hrun
      refine work_lt hn (fun i _ => rfl) ?_
      have hfilled : fillingWork args args.filled < 5 * args.numWorkers + 2 := fillingWork_filled
      rw [hfilling]
      simp only [fillingWork, List.map_nil, List.sum_nil, Nat.zero_add]
      exact Nat.add_lt_add_right (Nat.add_lt_add_right hfilled _) _
    | cons item rest =>
      cases hrun
      refine work_lt (Nat.mod_lt idx hn) (fun i hi => ?_) ?_
      · simp only [queueWork, Function.update_of_ne hi]
      · simp only [hfilling, fillingWork, queueWork, Function.update_self, List.map_cons,
          List.sum_cons, List.map_append, List.sum_append, List.map_nil, List.sum_nil, roundWork]
        omega
  | sentinels idx =>
    rw [hfilling] at hrun
    dsimp only at hrun
    split_ifs at hrun with hidx
    · cases hrun
      refine work_lt (Nat.mod_lt idx hn) (fun i hi => ?_) ?_
      · simp only [queueWork, Function.update_of_ne hi]
      · simp only [hfilling, fillingWork, queueWork, Function.update_self, List.map_cons,
          List.sum_cons, List.map_append, List.sum_append, List.map_nil, List.sum_nil, roundWork,
          cost, transformed, List.length_singleton]
        omega
    · cases hrun
      refine work_lt hn (fun i _ => rfl) ?_
      simp only [hfilling, fillingWork, queueWork, roundWork]
      omega
  | exceptions e left =>
    rw [hfilling] at hrun hvalid
    cases left with
    | nil =>
      cases hrun
      refine work_lt hn (fun i _ => rfl) ?_
      simp only [hfilling, fillingWork, queueWork, roundWork]
      omega
    | cons j left =>
      obtain ⟨queue, hput, hrun⟩ := bind_eq_ok.mp hrun
      cases hrun
      obtain rfl := boundedPut_eq_ok hput
      obtain ⟨-, -, m, hm, hleft⟩ := hvalid
      have hj : j < m := by
        have : j ∈ (List.range m).reverse := hleft ▸ (.head _)
        simpa using this
      refine work_lt (j := j) (by omega) (fun i hi => ?_) ?_
      · simp only [queueWork, Function.update_of_ne hi]
      · simp only [hfilling, fillingWork, queueWork, Function.update_self, List.length_append,
          List.length_cons, List.length_nil, roundWork]
        omega
  | ended =>
    rw [hfilling] at hrun
    cases hrun

theorem work_transform_lt (hj : j < args.numWorkers) (hrun : s.transform args j = .ok s') :
    work args s' < work args s := by
  unfold AsyncGen.transform at hrun
  cases hpending : (s.workers j).pending with
  | cons o pending =>
    rw [hpending] at hrun
    obtain ⟨queue, hput, hrun⟩ := bind_eq_ok.mp hrun
    cases hrun
    obtain rfl := boundedPut_eq_ok hput
    refine work_lt hj (fun i hi => ?_) ?_
    · simp only [queueWork, Function.update_of_ne hi]
    · simp only [hpending, queueWork, Function.update_self, List.length_append, List.length_cons,
        List.length_nil, roundWork]
      omega
  | nil =>
    rw [hpending] at hrun
    split_ifs at hrun
    obtain ⟨⟨x, queue⟩, hget, hrun⟩ := bind_eq_ok.mp hrun
    cases hrun
    refine work_lt hj (fun i hi => ?_) ?_
    · simp only [queueWork, Function.update_of_ne hi]
    · simp only [hpending, blockingGet_eq_ok hget, queueWork, Function.update_self, List.map_cons,
        List.sum_cons, List.length_nil, roundWork, cost]
      omega

theorem Good.work_iterate_lt (h : Good args s t done taken) (hn : 1 ≤ args.numWorkers)
    (hrunning : s.outcome = .running)
    (hrun : s.iterate = .ok s') : work args s' < work args s := by
  unfold AsyncGen.iterate at hrun
  cases hround : s.round with
  | nil =>
    rw [hround] at hrun
    cases hrun
    refine work_lt hn (fun i _ => rfl) ?_
    have hended : ∀ remaining : List ℕ, roundWork { s with
        remaining := remaining
        round := remaining
        emptyQueues := []
        outcome := if remaining = [] then .ended else .running } = 0 := by
      intro remaining
      cases remaining with
      | nil => rfl
      | cons j remaining => rfl
    have hwork : roundWork s = 1 := by rw [roundWork, hrunning, hround]
    rw [hended, hwork]
    exact Nat.lt_succ_self _
  | cons j round =>
    rw [hround] at hrun
    obtain ⟨⟨o, queue⟩, hget, hrun⟩ := bind_eq_ok.mp hrun
    have hj : j < args.numWorkers := by
      refine (h.turn.mem_remaining.mp ?_).1
      rw [h.turn.split, hround]
      exact List.mem_append_right _ (.head _)
    have hqueue := blockingGet_eq_ok hget
    have hlt : ∀ s' : AsyncGen T U E, s'.filling = s.filling → s'.inputQueues = s.inputQueues →
        s'.workers = s.workers → s'.outputQueues = Function.update s.outputQueues j queue →
        work args s' < work args s := by
      intro s' hf hi hw ho
      refine work_lt hj (fun i hij => ?_) ?_
      · simp only [queueWork, hi, hw, ho, Function.update_of_ne hij]
      · have := roundWork_le_one s'
        simp only [queueWork, hf, hi, hw, ho, hqueue, Function.update_self, List.length_cons]
        omega
    cases o with
    | exception e =>
      cases hrun
      exact hlt _ rfl rfl rfl rfl
    | sentinel =>
      cases hrun
      exact hlt _ rfl rfl rfl rfl
    | result u =>
      cases hrun
      exact hlt _ rfl rfl rfl rfl

theorem length_le_work (hn : 1 ≤ args.numWorkers) {threads : List AsyncGenThread} (h : Reached args s)
    (hrun : threads.foldlM (step args) s = .ok s') : threads.length ≤ work args s := by
  induction threads generalizing s with
  | nil => exact Nat.zero_le _
  | cons thread threads ih =>
    rw [List.foldlM_cons] at hrun
    obtain ⟨s₁, hstep, hrun⟩ := bind_eq_ok.mp hrun
    have hle := ih (.tail h trivial hstep) hrun
    suffices hlt : work args s₁ < work args s by
      rw [List.length_cons]
      omega
    unfold step at hstep
    split at hstep
    · next hrunning =>
      obtain ⟨t, done, taken, hgood⟩ := (reached_inv h).2.1 hrunning
      cases thread with
      | filling => exact hgood.work_fill_lt hn hstep
      | transforming j =>
        dsimp only at hstep
        split_ifs at hstep with hj
        exact work_transform_lt hj hstep
      | iterating => exact hgood.work_iterate_lt hn hrunning hstep
    · cases hstep

/-! ### The generator -/

/-- Runs are finite.  With one result for each item the generator yields a prefix of the mapped
items, and all of them if it ends; it does not get stuck, and it does not end if the base iterator
or `fn` raises. -/
theorem makeAsyncGen_ordered (args : AsyncGenArgs T U E) (hn : 1 ≤ args.numWorkers)
    (hb : 1 ≤ args.bufferSize)
    (hrelieved : args.Relieved) :
    (∃ bound, ∀ (threads : List AsyncGenThread) s, threads.foldlM (step args) (init args) = .ok s →
      threads.length ≤ bound) ∧
      ∀ s, Reached args s →
        (∀ f : T → U, (∀ item ∈ args.items, args.fn item = ⟨[f item], none⟩) →
          s.yielded <+: args.items.map f ∧ (s.outcome = .ended → s.yielded = args.items.map f)) ∧
        ¬ Stuck args s ∧
        ((args.raised.isSome ∨ ∃ item ∈ args.items, (args.fn item).raised.isSome) →
          s.outcome ≠ .ended) := by
  refine ⟨⟨work args (init args), fun threads s hrun => length_le_work hn .refl hrun⟩, fun s hs => ?_⟩
  obtain ⟨hyielded, hgood, hended⟩ := reached_inv hs
  refine ⟨fun f hf => ⟨prefix_of_yieldedInOrder hf hn hyielded, fun h => eq_of_yieldedAll hf hn
    (hended h)⟩, ?_, ?_⟩
  · intro hstuck
    obtain ⟨t, done, taken, hgood⟩ := hgood hstuck.1
    exact hgood.not_stuck hb hrelieved hstuck
  · intro hraises h
    obtain ⟨hnone, hall⟩ := raised_eq_none_of_ended hn (hended h)
    obtain hraised | ⟨item, hitem, hraised⟩ := hraises
    · rw [hnone] at hraised
      cases hraised
    · rw [hall item hitem] at hraised
      cases hraised

/-- Two workers that add ten. -/
def addTen : AsyncGenArgs ℕ ℕ String where
  items := [1, 2, 3]
  raised := none
  fn := fun item => ⟨[item + 10], none⟩
  numWorkers := 2
  bufferSize := 1
  endsThread := fun _ => false

theorem makeAsyncGen_ordered_addTen :
    (∃ bound, ∀ (threads : List AsyncGenThread) s, threads.foldlM (step addTen) (init addTen) = .ok s →
      threads.length ≤ bound) ∧
      ∀ s, Reached addTen s → s.yielded <+: [11, 12, 13] ∧ ¬ Stuck addTen s := by
  have hrelieved : addTen.Relieved := relieved_of_not_raised (by decide) rfl (fun _ _ _ _ => rfl)
  obtain ⟨hbound, h⟩ := makeAsyncGen_ordered addTen (by decide) (by decide) hrelieved
  refine ⟨hbound, fun s hs => ⟨?_, (h s hs).2.1⟩⟩
  exact ((h s hs).1 (· + 10) (fun _ _ => rfl)).1

/-- The base iterator raises after two items, the first of which has no results. -/
def failingIterator : AsyncGenArgs ℕ ℕ String where
  items := [0, 1]
  raised := some "OSError"
  fn := fun item => ⟨List.replicate item 7, none⟩
  numWorkers := 2
  bufferSize := 1
  endsThread := fun _ => false

/-- The generator waits for the first worker, which has no more items, and the filling worker waits
for room in the queue of the second. -/
theorem makeAsyncGen_stuck : ∃ s, Reached failingIterator s ∧ Stuck failingIterator s := by
  refine ⟨_, Reach.of_foldlM
    (l := [.filling, .filling, .transforming 0, .transforming 1, .transforming 1, .filling])
    .refl (fun _ _ _ => trivial) rfl, rfl, ?_⟩
  intro thread
  cases thread with
  | filling => exact ⟨_, rfl⟩
  | transforming j =>
    obtain rfl | rfl | hj : j = 0 ∨ j = 1 ∨ 2 ≤ j := by omega
    · exact ⟨_, rfl⟩
    · exact ⟨_, rfl⟩
    · refine ⟨.ended, ?_⟩
      rw [step]
      exact if_neg (Nat.not_lt.mpr hj)
  | iterating => exact ⟨_, rfl⟩

end AsyncGen

end RayTfm.Data
