import RayTfm.Data.MakeAsyncGen

/-! # What the workers of `make_async_gen` put and the generator takes

The outputs of a worker follow from the items that are dealt to it (`AsyncGenArgs.outputs`): what
was taken from its output queue, what is in the queue and what is still to come are always these
outputs (`Carries`), and the filling worker may have put an exception among them.  The generator
takes them in rounds (`Turn`), so that what it yields is known (`AsyncGenArgs.rounds`). -/

namespace RayTfm.Data

variable {T U E : Type}

namespace QueuedOutput

def isResult : QueuedOutput U E → Bool
  | .result _ => true
  | _ => false

def result? : QueuedOutput U E → Option U
  | .result u => some u
  | _ => none

def isSentinel : QueuedOutput U E → Bool
  | .sentinel => true
  | _ => false

@[simp] theorem isSentinel_eq_true_iff {o : QueuedOutput U E} :
    o.isSentinel = true ↔ o = .sentinel := by
  cases o with
  | result u => simp [isSentinel]
  | sentinel => simp [isSentinel]
  | exception e => simp [isSentinel]

end QueuedOutput

namespace AsyncGenArgs

variable (args : AsyncGenArgs T U E)

/-- The sentinel that ends an input queue, if the base iterator does not raise. -/
def closing : List (Option T) := if args.raised.isNone then [none] else []

/-- All that a worker puts for what it takes. -/
def outputsOf : List (Option T) → List (QueuedOutput U E)
  | [] => []
  | x :: stream => (args.transformed x).pending ++ if (args.transformed x).running then outputsOf
      stream else []

/-- All that worker `j` puts. -/
def outputs (j : ℕ) : List (QueuedOutput U E) :=
  args.outputsOf ((dealt args.numWorkers 0 args.items j).map some ++ args.closing)

/-- The `k`-th output of worker `j`, if it is a result. -/
def resultAt (j k : ℕ) : Option U := (args.outputs j)[k]?.bind QueuedOutput.result?

/-- The results of the first `t` rounds. -/
def rounds (t : ℕ) : List U :=
  (List.range t).flatMap (fun k => (List.range args.numWorkers).filterMap (fun j => args.resultAt j k))

/-- Worker `j` puts the sentinel among its first `t` outputs. -/
def endedAt (t j : ℕ) : Bool := ((args.outputs j).take t).any QueuedOutput.isSentinel

/-- The results that worker `j` puts. -/
def numResults (j : ℕ) : ℕ := (args.outputs j).countP QueuedOutput.isResult

/-- Worker `j` gives only results, and no other stops the generator before it waits for more of
them. -/
def Starves (j : ℕ) : Prop :=
  j < args.numWorkers ∧ (∀ o ∈ args.outputs j, o.isResult = true) ∧
    ∀ i < args.numWorkers, i ≠ j → .sentinel ∈ args.outputs i ∨
      if i < j then (args.outputs j).length < args.numResults i
      else (args.outputs j).length ≤ args.numResults i

/-- If the generator waits for a worker that puts nothing more, the exception of the base iterator
gets past the workers after it. -/
def Relieved : Prop :=
  ∀ j, args.Starves j → ∃ e, args.raised = some e ∧ args.endsThread e = false ∧
    ∀ m, j < m → m < args.numWorkers → (args.outputs m).length < (args.outputs j).length +
      args.bufferSize

/-- The outputs are results, and then possibly a sentinel or an exception. -/
theorem outputsOf_eq (stream : List (Option T)) :
    ∃ (results : List U) (last : List (QueuedOutput U E)), args.outputsOf stream =
    results.map .result ++ last ∧
      (last = [] ∨ last = [.sentinel] ∨ ∃ e, last = [.exception e]) := by
  induction stream with
  | nil => exact ⟨[], [], rfl, .inl rfl⟩
  | cons x stream ih =>
    cases x with
    | none => exact ⟨[], [.sentinel], rfl, .inr (.inl rfl)⟩
    | some item =>
      rw [outputsOf, transformed]
      cases (args.fn item).raised with
      | none =>
        obtain ⟨results, last, heq, hlast⟩ := ih
        refine ⟨(args.fn item).results ++ results, last, ?_, hlast⟩
        rw [if_pos rfl, heq, List.map_append, List.append_assoc]
      | some e =>
        rw [if_neg Bool.false_ne_true, List.append_nil]
        refine ⟨_, _, rfl, ?_⟩
        split_ifs
        · exact .inl rfl
        · exact .inr (.inr ⟨e, rfl⟩)

variable {args}
variable {t j : ℕ}

theorem endedAt_eq_true_iff : args.endedAt t j = true ↔ .sentinel ∈ (args.outputs j).take t := by
  rw [endedAt, List.any_eq_true]
  simp

theorem length_le_of_endedAt (h : args.endedAt t j = true) : (args.outputs j).length ≤ t := by
  obtain ⟨results, last, heq, hlast⟩ := outputsOf_eq args
    ((dealt args.numWorkers 0 args.items j).map some ++ args.closing)
  rw [endedAt_eq_true_iff, outputs, heq, List.take_append, List.mem_append] at h
  have hnot : (QueuedOutput.sentinel : QueuedOutput U E) ∉
    (results.map QueuedOutput.result).take t := by
    intro hmem
    obtain ⟨u, -, hu⟩ := List.mem_map.mp (List.mem_of_mem_take hmem)
    cases hu
  have hlen := List.length_pos_of_mem (h.resolve_left hnot)
  rw [List.length_take, List.length_map] at hlen
  have hle : last.length ≤ 1 := by
    obtain rfl | rfl | ⟨e, rfl⟩ := hlast
    · exact Nat.zero_le 1
    · exact Nat.le_refl 1
    · exact Nat.le_refl 1
  rw [outputs, heq, List.length_append, List.length_map]
  omega

theorem endedAt_succ {o : QueuedOutput U E} (h : (args.outputs j)[t]? = some o) :
    args.endedAt (t + 1) j = (args.endedAt t j || o.isSentinel) := by
  rw [endedAt, endedAt, List.take_add_one, h, List.any_append]
  simp

theorem endedAt_mono (h : args.endedAt t j = true) : args.endedAt (t + 1) j = true := by
  rw [endedAt_eq_true_iff] at h ⊢
  rw [List.take_add_one]
  exact List.mem_append_left _ h

theorem resultAt_of_endedAt (h : args.endedAt t j = true) : args.resultAt j t = none := by
  rw [resultAt, List.getElem?_eq_none (length_le_of_endedAt h)]
  rfl

theorem rounds_succ (t : ℕ) :
    args.rounds (t + 1) = args.rounds t ++ (List.range args.numWorkers).filterMap
      (fun j => args.resultAt j t) := by
  rw [rounds, List.range_succ, List.flatMap_append, List.flatMap_singleton]
  rfl

/-- Who puts a sentinel has got one, and has not seen `fn` raise. -/
theorem of_sentinel_mem {items : List T}
    (h : .sentinel ∈ args.outputsOf (items.map some ++ args.closing)) :
    args.raised = none ∧ ∀ item ∈ items, (args.fn item).raised = none := by
  induction items with
  | nil =>
    rw [List.map_nil, List.nil_append, closing] at h
    split_ifs at h with hraised
    · exact ⟨Option.isNone_iff_eq_none.mp hraised, fun item hitem => absurd hitem List.not_mem_nil⟩
    · cases h
  | cons item items ih =>
    rw [List.map_cons, List.cons_append, outputsOf, List.mem_append, transformed] at h
    cases hraised : (args.fn item).raised with
    | none =>
      rw [hraised] at h
      obtain h | h := h
      · obtain ⟨u, -, hu⟩ := List.mem_map.mp h
        cases hu
      · obtain ⟨hnone, hall⟩ := ih h
        refine ⟨hnone, fun item' hitem' => ?_⟩
        obtain rfl | hitem' := List.mem_cons.mp hitem'
        · exact hraised
        · exact hall item' hitem'
    | some e =>
      rw [hraised] at h
      simp only [Bool.false_eq_true, if_false, List.not_mem_nil, or_false] at h
      exfalso
      split_ifs at h
      · simp at h
      · simp at h

end AsyncGenArgs

/-! ### The outputs on their way -/

namespace FillingWorker

/-- What the filling worker will still put into input queue `j`. -/
def coming (args : AsyncGenArgs T U E) (j : ℕ) : FillingWorker T E → List (Option T)
  | .dealing idx rest => (dealt args.numWorkers idx rest j).map some ++ args.closing
  | .sentinels idx => if idx ≤ j then [none] else []
  | .exceptions _ _ => []
  | .ended => []

/-- The exception that the filling worker has put into output queue `j`. -/
def hasPut (args : AsyncGenArgs T U E) (j : ℕ) : FillingWorker T E → Option E
  | .exceptions e left => if j ∈ left then none else some e
  | .ended => args.raised.filter (fun e => !args.endsThread e)
  | _ => none

/-- The filling worker is where the base iterator takes it. -/
def Valid (args : AsyncGenArgs T U E) : FillingWorker T E → Prop
  | .dealing _ _ => True
  | .sentinels _ => args.raised = none
  | .exceptions e left => args.raised = some e ∧ args.endsThread e = false ∧
      ∃ m ≤ args.numWorkers, left = (List.range m).reverse
  | .ended => True

section
variable {args : AsyncGenArgs T U E} {e : E}

theorem hasPut_ended {j : ℕ} (h : args.raised = some e) :
    hasPut args j .ended = if args.endsThread e then none else some e := by
  rw [hasPut, h]
  cases hinterrupted : args.endsThread e <;> simp [Option.filter, hinterrupted]

theorem filled_cases (args : AsyncGenArgs T U E) :
    args.raised = none ∧ args.filled = .sentinels 0 ∨
    (∃ e, args.raised = some e ∧ args.endsThread e = true ∧ args.filled = .ended) ∨
    ∃ e, args.raised = some e ∧ args.endsThread e = false ∧
      args.filled = .exceptions e (List.range args.numWorkers).reverse := by
  unfold AsyncGenArgs.filled
  cases args.raised with
  | none => exact .inl ⟨rfl, rfl⟩
  | some e =>
    cases hinterrupted : args.endsThread e with
    | true => exact .inr (.inl ⟨e, rfl, hinterrupted, by simp [hinterrupted]⟩)
    | false => exact .inr (.inr ⟨e, rfl, hinterrupted, by simp [hinterrupted]⟩)

theorem valid_filled : args.filled.Valid args := by
  obtain ⟨hraised, h⟩ | ⟨e, -, -, h⟩ | ⟨e, hraised, hinterrupted, h⟩ := filled_cases args
  · rw [h]
    exact hraised
  · rw [h]
    trivial
  · rw [h]
    exact ⟨hraised, hinterrupted, _, le_rfl, rfl⟩

theorem coming_filled {j : ℕ} : args.filled.coming args j = args.closing := by
  obtain ⟨hraised, h⟩ | ⟨e, hraised, -, h⟩ | ⟨e, hraised, -, h⟩ := filled_cases args
  · rw [h, AsyncGenArgs.closing, hraised]
    rfl
  · rw [h, AsyncGenArgs.closing, hraised]
    rfl
  · rw [h, AsyncGenArgs.closing, hraised]
    rfl

theorem hasPut_filled {j : ℕ} (hj : j < args.numWorkers) : args.filled.hasPut args j = none := by
  obtain ⟨-, h⟩ | ⟨e, hraised, hinterrupted, h⟩ | ⟨e, -, -, h⟩ := filled_cases args
  · rw [h]
    rfl
  · rw [h, hasPut_ended hraised, if_pos hinterrupted]
  · rw [h, hasPut, if_pos (by simpa using hj)]

end

end FillingWorker

/-- The queue holds these outputs, and somewhere among them the exception. -/
def Holds (extra : Option E) (kept queue : List (QueuedOutput U E)) : Prop :=
  match extra with
  | none => queue = kept
  | some e => ∃ before after, kept = before ++ after ∧ queue = before ++ .exception e :: after

/-- What was taken from the output queue of worker `j`, what is in the queue, and what will be put
there are all its outputs. -/
def Carries (args : AsyncGenArgs T U E) (j : ℕ) (taken : List (QueuedOutput U E))
    (coming : List (Option T))
    (extra : Option E) (input : List (Option T)) (w : TransformingWorker U E)
    (queue : List (QueuedOutput U E)) : Prop :=
  ∃ kept, taken ++ (kept ++ (w.pending ++ if w.running then args.outputsOf (input ++ coming)
    else [])) = args.outputs j ∧
    Holds extra kept queue

section
variable {args : AsyncGenArgs T U E} {j : ℕ} {taken queue kept : List (QueuedOutput U E)}
    {coming input : List (Option T)}
  {extra : Option E} {w : TransformingWorker U E}

theorem Holds.put (h : Holds extra kept queue) (o : QueuedOutput U E) :
    Holds extra (kept ++ [o]) (queue ++ [o]) := by
  cases extra with
  | none => exact congrArg (· ++ [o]) h
  | some e =>
    obtain ⟨before, after, rfl, rfl⟩ := h
    exact ⟨before, after ++ [o], by simp, by simp⟩

theorem Holds.putException (h : Holds none kept queue) (e : E) :
    Holds (some e) kept (queue ++ [.exception e]) := by
  obtain rfl : queue = kept := h
  exact ⟨queue, [], by simp, rfl⟩

variable {o : QueuedOutput U E}

/-- The first element of the queue is the exception, or the first of the outputs. -/
theorem Holds.get (h : Holds extra kept (o :: queue)) :
    (∃ e, o = .exception e) ∨ ∃ kept', kept = o :: kept' ∧ Holds extra kept' queue := by
  cases extra with
  | none => exact .inr ⟨queue, h.symm, rfl⟩
  | some e =>
    obtain ⟨before, after, rfl, hqueue⟩ := h
    cases before with
    | nil =>
      cases hqueue
      exact .inl ⟨e, rfl⟩
    | cons b before =>
      cases hqueue
      exact .inr ⟨_, rfl, before, after, rfl, rfl⟩

theorem Holds.nil (h : Holds extra kept []) : kept = [] ∧ extra = none := by
  cases extra with
  | none => exact ⟨h.symm, rfl⟩
  | some e =>
    obtain ⟨before, after, -, hqueue⟩ := h
    exact absurd hqueue (by simp)

theorem Carries.getInput {item : Option T} {running : Bool} (hrunning : running = true)
    (h : Carries args j taken coming extra (item :: input) ⟨[], running⟩ queue) :
    Carries args j taken coming extra input (args.transformed item) queue := by
  obtain ⟨kept, heq, hholds⟩ := h
  refine ⟨kept, ?_, hholds⟩
  rw [← heq, hrunning]
  rfl

theorem Carries.put {pending : List (QueuedOutput U E)} {running : Bool}
    (h : Carries args j taken coming extra input ⟨o :: pending, running⟩ queue) :
    Carries args j taken coming extra input ⟨pending, running⟩ (queue ++ [o]) := by
  obtain ⟨kept, heq, hholds⟩ := h
  refine ⟨kept ++ [o], ?_, hholds.put o⟩
  rw [← heq]
  simp

theorem Carries.putInput {item : Option T}
    (h : Carries args j taken (item :: coming) extra input w queue) :
    Carries args j taken coming extra (input ++ [item]) w queue := by
  obtain ⟨kept, heq, hholds⟩ := h
  exact ⟨kept, by rw [← heq, List.append_assoc, List.singleton_append], hholds⟩

theorem Carries.putException (h : Carries args j taken coming none input w queue) (e : E) :
    Carries args j taken coming (some e) input w (queue ++ [.exception e]) := by
  obtain ⟨kept, heq, hholds⟩ := h
  exact ⟨kept, heq, hholds.putException e⟩

theorem Carries.get (h : Carries args j taken coming extra input w (o :: queue))
    (ho : ∀ e, o ≠ .exception e) :
    (args.outputs j)[taken.length]? = some o ∧
    Carries args j (taken ++ [o]) coming extra input w queue := by
  obtain ⟨kept, heq, hholds⟩ := h
  obtain ⟨e, he⟩ | ⟨kept', rfl, hholds'⟩ := hholds.get
  · exact absurd he (ho e)
  · constructor
    · rw [← heq]
      simp
    · exact ⟨kept', by rw [← heq]; simp, hholds'⟩

end

/-! ### The rounds of the generator -/

/-- The generator is in round `t` and has taken from the queues `done` in this round; `taken` is
what it has taken from each queue. -/
structure Turn (args : AsyncGenArgs T U E) (remaining round emptyQueues : List ℕ)
    (yielded : List U) (t : ℕ)
    (done : List ℕ) (taken : ℕ → List (QueuedOutput U E)) : Prop where
  split : remaining = done ++ round
  remaining_eq : remaining = (List.range args.numWorkers).filter (fun j => !args.endedAt t j)
  emptyQueues_eq : emptyQueues = done.filter (fun j => args.endedAt (t + 1) j)
  taken_eq : ∀ j < args.numWorkers, taken j = (args.outputs j).take (if j ∈ done then t + 1 else t)
  length_taken : ∀ j ∈ remaining, (taken j).length = if j ∈ done then t + 1 else t
  exception_notMem : ∀ j < args.numWorkers, ∀ e, .exception e ∉ taken j
  yielded_eq : yielded = args.rounds t ++ done.filterMap (fun j => args.resultAt j t)

namespace Turn

open AsyncGenArgs

variable {args : AsyncGenArgs T U E} {remaining round emptyQueues done : List ℕ}
    {yielded : List U} {t j : ℕ}
  {taken : ℕ → List (QueuedOutput U E)}

theorem init (args : AsyncGenArgs T U E) :
    Turn args (List.range args.numWorkers) (List.range args.numWorkers) [] [] 0 [] (fun _ => []) := by
  refine ⟨rfl, ?_, rfl, fun j _ => rfl, fun j _ => rfl, fun j _ e => List.not_mem_nil, rfl⟩
  rw [List.filter_eq_self.mpr]
  intro j _
  rfl

theorem pairwise (h : Turn args remaining round emptyQueues yielded t done taken) :
    remaining.Pairwise (· < ·) := by
  rw [h.remaining_eq]
  exact List.pairwise_lt_range.filter _

theorem mem_remaining (h : Turn args remaining round emptyQueues yielded t done taken) :
    j ∈ remaining ↔ j < args.numWorkers ∧ args.endedAt t j = false := by
  rw [h.remaining_eq, List.mem_filter, List.mem_range, Bool.not_eq_true']

theorem get (h : Turn args remaining (j :: round) emptyQueues yielded t done taken)
    {o : QueuedOutput U E}
    (ho : (args.outputs j)[(taken j).length]? = some o) (hexc : ∀ e, o ≠ .exception e) :
    Turn args remaining round (if o.isSentinel then emptyQueues ++ [j] else emptyQueues)
      (yielded ++ o.result?.toList) t (done ++ [j]) (Function.update taken j (taken j ++ [o])) := by
  have hmem : j ∈ remaining := by
    rw [h.split]
    exact List.mem_append_right _ (.head _)
  obtain ⟨hj, hended⟩ := h.mem_remaining.mp hmem
  have hdone : j ∉ done := by
    intro hmem'
    have hpairwise := h.pairwise
    rw [h.split, List.pairwise_append] at hpairwise
    exact Nat.lt_irrefl j (hpairwise.2.2 j hmem' j (.head _))
  have hlen : (taken j).length = t := by rw [h.length_taken j hmem, if_neg hdone]
  rw [hlen] at ho
  have hmemdone : ∀ i, i ≠ j → (i ∈ done ++ [j] ↔ i ∈ done) := by
    intro i hi
    rw [List.mem_append, List.mem_singleton, or_iff_left hi]
  refine ⟨by rw [h.split, List.append_assoc, List.singleton_append], h.remaining_eq, ?_,
    fun i hi => ?_, fun i hi => ?_,
    fun i hi e => ?_, ?_⟩
  · rw [List.filter_append, ← h.emptyQueues_eq, List.filter_singleton, endedAt_succ ho, hended,
      Bool.false_or]
    cases o.isSentinel with
    | false => exact (List.append_nil _).symm
    | true => rfl
  · by_cases hij : i = j
    · subst hij
      rw [Function.update_self, if_pos (by simp), h.taken_eq i hi, if_neg hdone, List.take_add_one, ho]
      rfl
    · rw [Function.update_of_ne hij, h.taken_eq i hi]
      simp only [hmemdone i hij]
  · by_cases hij : i = j
    · subst hij
      rw [Function.update_self, if_pos (by simp), List.length_append, hlen, List.length_singleton]
    · rw [Function.update_of_ne hij, h.length_taken i hi]
      simp only [hmemdone i hij]
  · by_cases hij : i = j
    · subst hij
      rw [Function.update_self, List.mem_append, List.mem_singleton, not_or]
      exact ⟨h.exception_notMem i hi e, fun heq => hexc e heq.symm⟩
    · rw [Function.update_of_ne hij]
      exact h.exception_notMem i hi e
  · rw [h.yielded_eq, List.filterMap_append, List.append_assoc, List.filterMap_cons,
      List.filterMap_nil, resultAt, ho, Option.bind_some]
    cases o.result? with
    | none => rfl
    | some u => rfl

theorem next (h : Turn args remaining [] emptyQueues yielded t done taken) :
    Turn args (remaining.filter (fun j => j ∉ emptyQueues))
      (remaining.filter (fun j => j ∉ emptyQueues)) [] yielded
      (t + 1) [] taken := by
  have hdone : done = remaining := by rw [h.split, List.append_nil]
  have hfilter : remaining.filter (fun j => j ∉ emptyQueues) = remaining.filter
    (fun j => !args.endedAt (t + 1) j) := by
    apply List.filter_congr
    intro j hj
    rw [h.emptyQueues_eq, hdone]
    simp [hj]
  have hremaining : remaining.filter (fun j => j ∉ emptyQueues) =
      (List.range args.numWorkers).filter (fun j => !args.endedAt (t + 1) j) := by
    rw [hfilter, h.remaining_eq, List.filter_filter]
    apply List.filter_congr
    intro j _
    cases hended : args.endedAt t j with
    | false => simp
    | true => simp [endedAt_mono hended]
  refine ⟨rfl, hremaining, rfl, fun j hj => ?_, fun j hj => ?_, h.exception_notMem, ?_⟩
  · rw [if_neg List.not_mem_nil, h.taken_eq j hj]
    split_ifs with hmem
    · rfl
    · -- the queue is exhausted
      have hended : args.endedAt t j = true := by
        rw [hdone, h.mem_remaining, not_and, Bool.not_eq_false] at hmem
        exact hmem hj
      have hlen := length_le_of_endedAt hended
      rw [List.take_of_length_le hlen, List.take_of_length_le (by omega)]
  · have hmem := List.mem_of_mem_filter hj
    rw [h.length_taken j hmem, hdone, if_pos hmem, if_neg List.not_mem_nil]
  · rw [h.yielded_eq, rounds_succ, List.filterMap_nil, List.append_nil, hdone, h.remaining_eq,
      List.filterMap_filter]
    congr 1
    apply List.filterMap_congr
    intro j _
    cases hended : args.endedAt t j with
    | false => rfl
    | true => exact (resultAt_of_endedAt hended).symm

end Turn

end RayTfm.Data
