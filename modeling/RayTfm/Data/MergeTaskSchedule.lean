import RayTfm.Py

/-! # Which merge task reduces what

The model of `_MergeTaskSchedule`
(`data/_internal/planner/exchange/push_based_shuffle_task_scheduler.py`).  The reducers of a
push-based shuffle are divided among the merge tasks of a round: each merge task gets as many as an
even division gives, and the first ones one more if the division leaves a remainder.

The source computes the offsets three times: forwards in `get_num_reducers_per_merge_idx`, backwards
in `get_merge_idx_for_reducer_idx`, and a third time in `round_robin_reduce_idx_iterator`.
`firstReduceIdx` and `numReducers` are the offsets of the iterator; `getMergeIdxForReducerIdx_eq_ok`
says that the lookup is their inverse, and `filter_yields` in which order the iterator takes the
reducers of a merge task. -/

namespace RayTfm.Data

/-- `_MergeTaskSchedule`; the division is even up to one more for the first merge tasks. -/
structure MergeTaskSchedule where
  outputNumBlocks : ℕ
  numMergeTasksPerRound : ℕ
  numReducersPerMerger : ℕ
  numMergersWithExtraReducer : ℕ
  perMerger_pos : 0 < numReducersPerMerger
  extra_le : numMergersWithExtraReducer ≤ numMergeTasksPerRound
  covers : numMergeTasksPerRound * numReducersPerMerger + numMergersWithExtraReducer = outputNumBlocks

namespace MergeTaskSchedule

/-- `__init__`; with fewer reducers than merge tasks, each reducer gets a merge task of its own. -/
def init (outputNumBlocks numMergeTasksPerRound : ℕ) : Except PyError MergeTaskSchedule :=
  if hzero : numMergeTasksPerRound = 0 then .error .zeroDivisionError
  else if hfew : outputNumBlocks / numMergeTasksPerRound = 0 then
    .ok {
      outputNumBlocks := outputNumBlocks
      numMergeTasksPerRound := outputNumBlocks % numMergeTasksPerRound
      numReducersPerMerger := 1
      numMergersWithExtraReducer := 0
      perMerger_pos := Nat.one_pos
      extra_le := Nat.zero_le _
      covers := by
        rw [Nat.mul_one, Nat.add_zero]
        have hlt := (Nat.div_eq_zero_iff.mp hfew).resolve_left hzero
        exact Nat.mod_eq_of_lt hlt }
  else
    .ok {
      outputNumBlocks := outputNumBlocks
      numMergeTasksPerRound := numMergeTasksPerRound
      numReducersPerMerger := outputNumBlocks / numMergeTasksPerRound
      numMergersWithExtraReducer := outputNumBlocks % numMergeTasksPerRound
      perMerger_pos := Nat.pos_of_ne_zero hfew
      extra_le := (Nat.mod_lt _ (Nat.pos_of_ne_zero hzero)).le
      covers := Nat.div_add_mod _ _ }

variable (s : MergeTaskSchedule)

def getNumReducersPerMergeIdx (mergeIdx : ℕ) : Except PyError ℕ := do
  pyAssert (mergeIdx < s.numMergeTasksPerRound)
  .ok (if mergeIdx < s.numMergersWithExtraReducer then s.numReducersPerMerger + 1
    else s.numReducersPerMerger)

def getMergeIdxForReducerIdx (reducerIdx : ℕ) : Except PyError ℕ :=
  let mergeIdx :=
    if reducerIdx < (s.numReducersPerMerger + 1) * s.numMergersWithExtraReducer then
      reducerIdx / (s.numReducersPerMerger + 1)
    else
      s.numMergersWithExtraReducer +
        (reducerIdx - (s.numReducersPerMerger + 1) * s.numMergersWithExtraReducer) /
          s.numReducersPerMerger
  do
    pyAssert (mergeIdx < s.numMergeTasksPerRound)
    .ok mergeIdx

/-- The first reducer of a merge task, as the iterator computes it. -/
def firstReduceIdx (mergeIdx : ℕ) : ℕ :=
  if mergeIdx < s.numMergersWithExtraReducer then mergeIdx * (s.numReducersPerMerger + 1)
  else
    s.numMergersWithExtraReducer * (s.numReducersPerMerger + 1) +
      (mergeIdx - s.numMergersWithExtraReducer) * s.numReducersPerMerger

/-- The number of reducers of a merge task, as the iterator computes it. -/
def numReducers (mergeIdx : ℕ) : ℕ :=
  if mergeIdx < s.numMergersWithExtraReducer then s.numReducersPerMerger + 1 else s.numReducersPerMerger

/-- What the iterator yields for a merge task in a round. -/
def reduceIdxInRound (roundIdx mergeIdx : ℕ) : Option ℕ :=
  if s.numReducers mergeIdx ≤ roundIdx then none else some (s.firstReduceIdx mergeIdx + roundIdx)

/-- A round of the iterator. -/
def roundYields (roundIdx : ℕ) : List ℕ :=
  (List.range s.numMergeTasksPerRound).filterMap (s.reduceIdxInRound roundIdx)

/-- The loop of the iterator, for a number of rounds at most; `none` when it has not ended by
then. -/
def roundRobinLoop : ℕ → ℕ → ℕ → Option (List ℕ)
  | 0, _, _ => none
  | fuel + 1, idx, roundIdx =>
    if idx < s.outputNumBlocks then
      (roundRobinLoop fuel (idx + (s.roundYields roundIdx).length) (roundIdx + 1)).map
        (s.roundYields roundIdx ++ ·)
    else some []

def roundRobinReduceIdxIterator (fuel : ℕ) : Option (List ℕ) := s.roundRobinLoop fuel 0 0

/-! ### The ranges of the merge tasks -/

theorem firstReduceIdx_zero : s.firstReduceIdx 0 = 0 := by
  unfold firstReduceIdx
  split_ifs with hextra
  · exact Nat.zero_mul _
  · rw [Nat.eq_zero_of_not_pos hextra, Nat.zero_mul, Nat.zero_sub, Nat.zero_mul]

theorem firstReduceIdx_succ (mergeIdx : ℕ) :
    s.firstReduceIdx (mergeIdx + 1) = s.firstReduceIdx mergeIdx + s.numReducers mergeIdx := by
  unfold firstReduceIdx numReducers
  by_cases hlt : mergeIdx < s.numMergersWithExtraReducer
  · rw [if_pos hlt, if_pos hlt]
    by_cases hlt' : mergeIdx + 1 < s.numMergersWithExtraReducer
    · rw [if_pos hlt', Nat.succ_mul]
    · have heq : s.numMergersWithExtraReducer = mergeIdx + 1 := by omega
      rw [if_neg hlt', heq, Nat.sub_self, Nat.zero_mul, Nat.add_zero, Nat.succ_mul]
  · have hsub : mergeIdx + 1 - s.numMergersWithExtraReducer = mergeIdx -
      s.numMergersWithExtraReducer + 1 := by omega
    rw [if_neg hlt, if_neg hlt, if_neg (by omega), hsub, Nat.succ_mul, Nat.add_assoc]

theorem firstReduceIdx_numMergeTasksPerRound :
    s.firstReduceIdx s.numMergeTasksPerRound = s.outputNumBlocks := by
  obtain ⟨k, hk⟩ := Nat.exists_eq_add_of_le s.extra_le
  have hcovers := s.covers
  unfold firstReduceIdx
  rw [if_neg (not_lt.mpr s.extra_le), hk, Nat.add_sub_cancel_left, ← hcovers, hk]
  ring

variable {mergeIdx : ℕ}

theorem firstReduceIdx_le {mergeIdx' : ℕ} (h : mergeIdx ≤ mergeIdx') :
    s.firstReduceIdx mergeIdx ≤ s.firstReduceIdx mergeIdx' :=
  monotone_nat_of_le_succ (fun m => by rw [firstReduceIdx_succ]; exact Nat.le_add_right _ _) h

theorem getNumReducersPerMergeIdx_eq_ok {n : ℕ} :
    s.getNumReducersPerMergeIdx mergeIdx = .ok n ↔ mergeIdx < s.numMergeTasksPerRound ∧
    n = s.numReducers mergeIdx := by
  unfold getNumReducersPerMergeIdx
  simp only [bind_eq_ok, pyAssert_eq_ok, decide_eq_true_eq, exists_const, Except.ok.injEq]
  exact and_congr_right fun _ => eq_comm

variable {reducerIdx : ℕ}

theorem getMergeIdxForReducerIdx_eq_ok :
    s.getMergeIdxForReducerIdx reducerIdx = .ok mergeIdx ↔
      mergeIdx < s.numMergeTasksPerRound ∧ s.firstReduceIdx mergeIdx ≤ reducerIdx ∧
        reducerIdx < s.firstReduceIdx mergeIdx + s.numReducers mergeIdx := by
  have hpos := s.perMerger_pos
  unfold getMergeIdxForReducerIdx
  simp only [bind_eq_ok, pyAssert_eq_ok, decide_eq_true_eq, exists_const, Except.ok.injEq]
  by_cases hfirst : reducerIdx < (s.numReducersPerMerger + 1) * s.numMergersWithExtraReducer
  · -- a reducer of a merge task with an extra one
    have hlt : reducerIdx / (s.numReducersPerMerger + 1) < s.numMergersWithExtraReducer :=
      Nat.div_lt_of_lt_mul hfirst
    rw [if_pos hfirst, and_iff_right (hlt.trans_le s.extra_le)]
    by_cases hmerge : mergeIdx < s.numMergersWithExtraReducer
    · rw [firstReduceIdx, if_pos hmerge, numReducers, if_pos hmerge,
        and_iff_right (hmerge.trans_le s.extra_le), Nat.div_eq_iff (hpos.trans (Nat.lt_add_one _))]
      omega
    · refine iff_of_false (fun heq => hmerge (heq ▸ hlt)) ?_
      rintro ⟨-, hle, -⟩
      rw [firstReduceIdx, if_neg hmerge, Nat.mul_comm s.numMergersWithExtraReducer] at hle
      omega
  · rw [if_neg hfirst]
    obtain ⟨r, rfl⟩ := Nat.exists_eq_add_of_le (not_lt.mp hfirst)
    rw [Nat.add_sub_cancel_left]
    by_cases hmerge : mergeIdx < s.numMergersWithExtraReducer
    · refine iff_of_false (fun h => not_lt.mpr (h.2 ▸ Nat.le_add_right _ _) hmerge) ?_
      rintro ⟨-, -, hlt⟩
      rw [← firstReduceIdx_succ] at hlt
      have hle := s.firstReduceIdx_le (show mergeIdx + 1 ≤ _ from hmerge)
      have hend : s.firstReduceIdx s.numMergersWithExtraReducer =
          (s.numReducersPerMerger + 1) * s.numMergersWithExtraReducer := by
        rw [firstReduceIdx, if_neg (lt_irrefl _), Nat.sub_self, Nat.zero_mul, Nat.add_zero,
          Nat.mul_comm]
      omega
    · obtain ⟨k, rfl⟩ := Nat.exists_eq_add_of_le (not_lt.mp hmerge)
      rw [firstReduceIdx, if_neg hmerge, numReducers, if_neg hmerge, Nat.add_sub_cancel_left,
        Nat.mul_comm s.numMergersWithExtraReducer, Nat.add_assoc, Nat.add_le_add_iff_left,
        Nat.add_lt_add_iff_left, Nat.add_right_inj]
      constructor
      · rintro ⟨hlt, hdiv⟩
        rw [hdiv] at hlt
        rw [Nat.div_eq_iff hpos] at hdiv
        exact ⟨hlt, hdiv.1, by omega⟩
      · rintro ⟨hlt, hle, hlt'⟩
        have hdiv : r / s.numReducersPerMerger = k := (Nat.div_eq_iff hpos).mpr ⟨hle, by omega⟩
        exact ⟨by rwa [hdiv], hdiv⟩

/-- Each reducer below the end of a range is in one of the ranges up to there. -/
theorem exists_mergeIdx {n : ℕ} (h : reducerIdx < s.firstReduceIdx n) :
    ∃ mergeIdx < n, s.firstReduceIdx mergeIdx ≤ reducerIdx ∧
    reducerIdx < s.firstReduceIdx (mergeIdx + 1) := by
  induction n with
  | zero =>
    rw [firstReduceIdx_zero] at h
    exact absurd h (Nat.not_lt_zero _)
  | succ n ih =>
    by_cases hlt : reducerIdx < s.firstReduceIdx n
    · obtain ⟨mergeIdx, hmerge, hrange⟩ := ih hlt
      exact ⟨mergeIdx, hmerge.trans (Nat.lt_succ_self n), hrange⟩
    · exact ⟨n, Nat.lt_succ_self n, not_lt.mp hlt, h⟩

/-! ### The rounds of the iterator -/

theorem numReducers_le (mergeIdx : ℕ) : s.numReducers mergeIdx ≤ s.numReducersPerMerger + 1 := by
  unfold numReducers
  split_ifs <;> omega

theorem filterMap_range_of_le {n k : ℕ} (f : ℕ → ℕ) (h : n ≤ k) :
    (List.range k).filterMap (fun i => if n ≤ i then none else some (f i)) = (List.range n).map f := by
  obtain ⟨d, rfl⟩ := Nat.exists_eq_add_of_le h
  rw [List.range_add, List.filterMap_append, List.filterMap_map]
  have hrest : (List.range d).filterMap
    ((fun i => if n ≤ i then none else some (f i)) ∘ (n + ·)) = [] := by
    rw [List.filterMap_eq_nil_iff]
    intro i _
    exact if_pos (Nat.le_add_right n i)
  have hfirst : (List.range n).filterMap (fun i => if n ≤ i then none else some (f i)) =
      (List.range n).filterMap (some ∘ f) := by
    refine List.filterMap_congr (fun i hi => ?_)
    exact if_neg (not_le.mpr (List.mem_range.mp hi))
  rw [hrest, List.append_nil, hfirst, List.filterMap_eq_map]

variable {roundIdx : ℕ}

theorem roundYields_of_lt (h : roundIdx < s.numReducersPerMerger) :
    s.roundYields roundIdx = (List.range s.numMergeTasksPerRound).map
      (s.firstReduceIdx · + roundIdx) := by
  rw [← filterMap_range_of_le _ le_rfl]
  refine List.filterMap_congr (fun mergeIdx hmerge => ?_)
  have hlt : roundIdx < s.numReducers mergeIdx := by
    unfold numReducers
    split_ifs <;> omega
  rw [if_neg (not_le.mpr (List.mem_range.mp hmerge))]
  exact if_neg (not_le.mpr hlt)

theorem roundYields_last : s.roundYields s.numReducersPerMerger =
    (List.range s.numMergersWithExtraReducer).map (s.firstReduceIdx · + s.numReducersPerMerger) := by
  rw [← filterMap_range_of_le _ s.extra_le]
  refine List.filterMap_congr (fun mergeIdx _ => ?_)
  unfold reduceIdxInRound numReducers
  by_cases hmerge : mergeIdx < s.numMergersWithExtraReducer
  · rw [if_pos hmerge, if_neg (by omega), if_neg (by omega)]
  · rw [if_neg hmerge, if_pos le_rfl, if_pos (not_lt.mp hmerge)]

theorem roundRobinLoop_last (fuel : ℕ) :
    s.roundRobinLoop (fuel + 2) (s.numMergeTasksPerRound * s.numReducersPerMerger)
      s.numReducersPerMerger =
      some (s.roundYields s.numReducersPerMerger) := by
  have hcovers := s.covers
  rw [roundRobinLoop]
  by_cases hextra : s.numMergeTasksPerRound * s.numReducersPerMerger < s.outputNumBlocks
  · rw [if_pos hextra, roundYields_last, List.length_map, List.length_range, hcovers,
      roundRobinLoop, if_neg (lt_irrefl _), Option.map_some, List.append_nil]
  · have hzero : s.numMergersWithExtraReducer = 0 := by omega
    rw [if_neg hextra, roundYields_last, hzero, List.range_zero, List.map_nil]

theorem roundRobinLoop_eq (hmergers : 0 < s.numMergeTasksPerRound) {d : ℕ} (fuel : ℕ)
    (h : roundIdx + d = s.numReducersPerMerger) :
    s.roundRobinLoop (d + fuel + 2) (s.numMergeTasksPerRound * roundIdx) roundIdx =
      some ((List.range' roundIdx (d + 1)).flatMap s.roundYields) := by
  induction d generalizing roundIdx with
  | zero =>
    rw [Nat.add_zero] at h
    subst h
    rw [Nat.zero_add, roundRobinLoop_last, List.range'_one, List.flatMap_singleton]
  | succ d ih =>
    have hlt : roundIdx < s.numReducersPerMerger := by omega
    have hidx : s.numMergeTasksPerRound * roundIdx < s.outputNumBlocks := by
      have hmul := Nat.mul_lt_mul_of_pos_left hlt hmergers
      have hcovers := s.covers
      omega
    have hlength : (s.roundYields roundIdx).length = s.numMergeTasksPerRound := by
      rw [s.roundYields_of_lt hlt, List.length_map, List.length_range]
    have hfuel : d + 1 + fuel + 2 = (d + fuel + 2) + 1 := by omega
    rw [List.range'_succ, List.flatMap_cons, hfuel, roundRobinLoop, if_pos hidx, hlength,
      ← Nat.mul_succ, ih (by omega), Option.map_some]

theorem roundRobinReduceIdxIterator_eq (hmergers : 0 < s.numMergeTasksPerRound) {fuel : ℕ}
    (hfuel : s.numReducersPerMerger + 2 ≤ fuel) : s.roundRobinReduceIdxIterator fuel =
      some ((List.range (s.numReducersPerMerger + 1)).flatMap s.roundYields) := by
  obtain ⟨k, rfl⟩ := Nat.exists_eq_add_of_le hfuel
  have hloop := s.roundRobinLoop_eq hmergers k (Nat.zero_add s.numReducersPerMerger)
  rwa [Nat.add_right_comm, Nat.mul_zero, ← List.range_eq_range'] at hloop

/-! ### What the iterator yields -/

/-- The reducers in the order in which the iterator yields them. -/
def yields : List ℕ := (List.range (s.numReducersPerMerger + 1)).flatMap s.roundYields

theorem length_yields : s.yields.length = s.outputNumBlocks := by
  have hfull : (List.range s.numReducersPerMerger).map (fun k => (s.roundYields k).length) =
      (List.range s.numReducersPerMerger).map (fun _ => s.numMergeTasksPerRound) := by
    refine List.map_congr_left (fun k hk => ?_)
    rw [s.roundYields_of_lt (List.mem_range.mp hk), List.length_map, List.length_range]
  rw [yields, List.length_flatMap, List.range_succ, List.map_append, List.sum_append, hfull,
    List.map_const', List.sum_replicate, List.length_range, List.map_singleton, List.sum_singleton,
    roundYields_last, List.length_map, List.length_range, smul_eq_mul, Nat.mul_comm, s.covers]

theorem getMergeIdxForReducerIdx_reduceIdxInRound
    (hmerge : mergeIdx < s.numMergeTasksPerRound)
    (h : s.reduceIdxInRound roundIdx mergeIdx = some reducerIdx) :
    s.getMergeIdxForReducerIdx reducerIdx = .ok mergeIdx := by
  unfold reduceIdxInRound at h
  by_cases hle : s.numReducers mergeIdx ≤ roundIdx
  · rw [if_pos hle] at h
    cases h
  · rw [if_neg hle] at h
    cases h
    rw [getMergeIdxForReducerIdx_eq_ok]
    exact ⟨hmerge, Nat.le_add_right _ _, by omega⟩

theorem filter_roundYields (hmerge : mergeIdx < s.numMergeTasksPerRound) (roundIdx : ℕ) :
    (s.roundYields roundIdx).filter (fun r => (s.getMergeIdxForReducerIdx r).toOption = some mergeIdx) =
      (s.reduceIdxInRound roundIdx mergeIdx).toList := by
  obtain ⟨before, after, hsplit⟩ := List.append_of_mem (List.mem_range.mpr hmerge)
  have hnodup := hsplit ▸ List.nodup_range (n := s.numMergeTasksPerRound)
  have hmem : ∀ m, m ∈ before ++ after → m < s.numMergeTasksPerRound ∧ m ≠ mergeIdx := by
    intro m hm
    constructor
    · rw [← List.mem_range, hsplit]
      exact (List.mem_append.mp hm).elim (fun h => by simp [h]) (fun h => by simp [h])
    · rintro rfl
      exact (List.nodup_middle.mp hnodup).notMem hm
  have hother : ∀ l : List ℕ, (∀ m ∈ l, m ∈ before ++ after) →
    (l.filterMap (s.reduceIdxInRound roundIdx)).filter
      (fun r => (s.getMergeIdxForReducerIdx r).toOption = some mergeIdx) = [] := by
    intro l hl
    rw [List.filter_eq_nil_iff]
    intro r hr hfilter
    obtain ⟨m, hm, hyield⟩ := List.mem_filterMap.mp hr
    obtain ⟨hlt, hne⟩ := hmem m (hl m hm)
    rw [s.getMergeIdxForReducerIdx_reduceIdxInRound hlt hyield, Except.toOption, decide_eq_true_eq,
      Option.some.injEq] at hfilter
    exact hne hfilter
  rw [roundYields, hsplit, List.filterMap_append, List.filter_append,
    hother before (fun m => List.mem_append_left _), List.nil_append, List.filterMap_cons]
  cases hyield : s.reduceIdxInRound roundIdx mergeIdx with
  | none => exact hother after (fun m => List.mem_append_right _)
  | some r =>
    rw [List.filter_cons_of_pos, hother after (fun m => List.mem_append_right _), Option.toList_some]
    rw [s.getMergeIdxForReducerIdx_reduceIdxInRound hmerge hyield]
    exact decide_eq_true rfl

/-- The reducers of a merge task are yielded from the first to the last of its range. -/
theorem filter_yields (hmerge : mergeIdx < s.numMergeTasksPerRound) :
    s.yields.filter (fun r => (s.getMergeIdxForReducerIdx r).toOption = some mergeIdx) =
      List.range' (s.firstReduceIdx mergeIdx) (s.numReducers mergeIdx) := by
  rw [yields, List.filter_flatMap]
  simp only [s.filter_roundYields hmerge]
  rw [← List.filterMap_eq_flatMap_toList, List.range'_eq_map_range,
    ← filterMap_range_of_le _ (s.numReducers_le mergeIdx)]
  rfl

theorem yields_perm : s.yields.Perm (List.range s.outputNumBlocks) := by
  refine List.Perm.symm (List.Subperm.perm_of_length_le (List.nodup_range.subperm ?_) ?_)
  · intro r hr
    rw [List.mem_range, ← firstReduceIdx_numMergeTasksPerRound] at hr
    obtain ⟨mergeIdx, hmerge, hle, hlt⟩ := s.exists_mergeIdx hr
    rw [firstReduceIdx_succ] at hlt
    have hmem : r ∈ List.range' (s.firstReduceIdx mergeIdx) (s.numReducers mergeIdx) :=
      List.mem_range'_1.mpr ⟨hle, hlt⟩
    rw [← s.filter_yields hmerge] at hmem
    exact List.mem_of_mem_filter hmem
  · rw [length_yields, List.length_range]

theorem init_eq_ok {outputNumBlocks numMergeTasksPerRound : ℕ} (hblocks : 1 ≤ outputNumBlocks)
    (hmergers : 1 ≤ numMergeTasksPerRound) :
    ∃ s, init outputNumBlocks numMergeTasksPerRound = .ok s ∧ s.outputNumBlocks = outputNumBlocks ∧
      0 < s.numMergeTasksPerRound := by
  unfold init
  rw [dif_neg (by omega)]
  by_cases hfew : outputNumBlocks / numMergeTasksPerRound = 0
  · rw [dif_pos hfew]
    have hlt := (Nat.div_eq_zero_iff.mp hfew).resolve_left (by omega)
    refine ⟨_, rfl, rfl, ?_⟩
    simp only
    rw [Nat.mod_eq_of_lt hlt]
    exact hblocks
  · rw [dif_neg hfew]
    exact ⟨_, rfl, rfl, hmergers⟩

/-- Each reducer has one merge task, whose reducers are a range of the length that is given for it;
the iterator ends and yields each reducer once, those of a merge task in increasing order. -/
theorem mergeTaskSchedule_partitions {outputNumBlocks numMergeTasksPerRound : ℕ}
    (hblocks : 1 ≤ outputNumBlocks)
    (hmergers : 1 ≤ numMergeTasksPerRound) :
    ∃ s, init outputNumBlocks numMergeTasksPerRound = .ok s ∧
      (∀ r < outputNumBlocks, ∃ m < s.numMergeTasksPerRound, s.getMergeIdxForReducerIdx r = .ok m) ∧
      (∀ m < s.numMergeTasksPerRound, ∃ first n, s.getNumReducersPerMergeIdx m = .ok n ∧
        first + n ≤ outputNumBlocks ∧
        ∀ r, s.getMergeIdxForReducerIdx r = .ok m ↔ first ≤ r ∧ r < first + n) ∧
      ∃ l, (∀ fuel ≥ s.numReducersPerMerger + 2, s.roundRobinReduceIdxIterator fuel = some l) ∧
        l.Perm (List.range outputNumBlocks) ∧
        ∀ m < s.numMergeTasksPerRound,
          (l.filter (fun r => (s.getMergeIdxForReducerIdx r).toOption = some m)).Pairwise (· < ·) := by
  obtain ⟨s, hinit, rfl, hpos⟩ := init_eq_ok hblocks hmergers
  refine ⟨s, hinit, ?_, ?_, s.yields, fun fuel => s.roundRobinReduceIdxIterator_eq hpos,
    s.yields_perm, ?_⟩
  · intro r hr
    rw [← firstReduceIdx_numMergeTasksPerRound] at hr
    obtain ⟨m, hm, hle, hlt⟩ := s.exists_mergeIdx hr
    rw [firstReduceIdx_succ] at hlt
    exact ⟨m, hm, s.getMergeIdxForReducerIdx_eq_ok.mpr ⟨hm, hle, hlt⟩⟩
  · intro m hm
    refine ⟨s.firstReduceIdx m, s.numReducers m, s.getNumReducersPerMergeIdx_eq_ok.mpr ⟨hm, rfl⟩,
      ?_, fun r => ?_⟩
    · rw [← firstReduceIdx_succ, ← firstReduceIdx_numMergeTasksPerRound]
      exact s.firstReduceIdx_le hm
    · rw [getMergeIdxForReducerIdx_eq_ok, and_iff_right hm]
  · intro m hm
    rw [s.filter_yields hm]
    exact List.pairwise_lt_range'

/-- Seven reducers of three merge tasks, of which the first has one more. -/
theorem mergeTaskSchedule_partitions_seven :
    ∃ s, init 7 3 = .ok s ∧ s.roundRobinReduceIdxIterator 4 = some [0, 3, 5, 1, 4, 6, 2] ∧
      ∀ r < 7, ∃ m < 3, s.getMergeIdxForReducerIdx r = .ok m := by
  obtain ⟨s, hinit, hlookup, -⟩ := mergeTaskSchedule_partitions (by decide : 1 ≤ 7) (by decide : 1 ≤ 3)
  cases hinit
  exact ⟨_, rfl, rfl, hlookup⟩

end MergeTaskSchedule

end RayTfm.Data
