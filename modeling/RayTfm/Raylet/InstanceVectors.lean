import RayTfm.Raylet.ResourceSet

/-! # Instances of a resource

A resource of a node is a vector of amounts, one for each instance (each GPU, or one for all CPUs).
An allocation takes an amount from each instance.  A resource with several instances gives a demand
as many full instances as go into it and the fractional rest from one more, the one that is left
with the least (`tryAllocateInstances`); it gives nothing only if the demand cannot be met in this
way (`not_hasChoice_of_eq_none`). -/

namespace RayTfm.Raylet

/-- The amount of an instance; an instance that is not there has none. -/
def amountAt (v : List ℤ) (i : ℕ) : ℤ := v.getD i 0

variable {v : List ℤ} {i : ℕ}

theorem amountAt_eq_getElem (h : i < v.length) : amountAt v i = v[i] := List.getD_eq_getElem v 0 h

@[simp] theorem amountAt_nil (i : ℕ) : amountAt [] i = 0 := rfl

@[simp] theorem amountAt_cons_zero (a : ℤ) (v : List ℤ) : amountAt (a :: v) 0 = a := rfl

@[simp] theorem amountAt_cons_succ (a : ℤ) (v : List ℤ) (i : ℕ) :
    amountAt (a :: v) (i + 1) = amountAt v i := rfl

theorem amountAt_of_length_le (h : v.length ≤ i) : amountAt v i = 0 := by
  rw [amountAt, List.getD_eq_getElem?_getD, List.getElem?_eq_none h, Option.getD_none]

variable {w : List ℤ}

theorem eq_of_amountAt (hlength : v.length = w.length) (h : ∀ i, amountAt v i = amountAt w i) :
    v = w := by
  apply List.ext_getElem hlength
  intro i hv hw
  rw [← amountAt_eq_getElem hv, ← amountAt_eq_getElem hw]
  exact h i

/-- Nothing of each instance. -/
def zeros (v : List ℤ) : List ℤ := v.map (fun _ => 0)

@[simp] theorem length_zeros (v : List ℤ) : (zeros v).length = v.length := List.length_map _

@[simp] theorem amountAt_zeros (v : List ℤ) (i : ℕ) : amountAt (zeros v) i = 0 := by
  induction v generalizing i with
  | nil => rfl
  | cons a v ih =>
    cases i with
    | zero => rfl
    | succ i => exact ih i

@[simp] theorem sum_zeros (v : List ℤ) : (zeros v).sum = 0 := by
  induction v with
  | nil => rfl
  | cons a v ih =>
    rw [zeros, List.map_cons, List.sum_cons, zero_add]
    exact ih

/-- Instance by instance. -/
def addInstances (v w : List ℤ) : List ℤ := List.zipWith (· + ·) v w

/-- Instance by instance. -/
def subInstances (v w : List ℤ) : List ℤ := List.zipWith (· - ·) v w

theorem length_addInstances (h : v.length = w.length) : (addInstances v w).length = v.length := by
  rw [addInstances, List.length_zipWith, h, min_self]

theorem length_subInstances (h : v.length = w.length) : (subInstances v w).length = v.length := by
  rw [subInstances, List.length_zipWith, h, min_self]

theorem amountAt_zipWith {f : ℤ → ℤ → ℤ} (hf : f 0 0 = 0) (h : v.length = w.length) (i : ℕ) :
    amountAt (List.zipWith f v w) i = f (amountAt v i) (amountAt w i) := by
  induction v generalizing w i with
  | nil =>
    rw [List.length_eq_zero_iff.mp h.symm]
    exact hf.symm
  | cons a v ih =>
    cases w with
    | nil => cases h
    | cons b w =>
      cases i with
      | zero => rfl
      | succ i => exact ih (Nat.succ.inj h) i

theorem amountAt_addInstances (h : v.length = w.length) (i : ℕ) :
    amountAt (addInstances v w) i = amountAt v i + amountAt w i := amountAt_zipWith (add_zero 0) h i

theorem amountAt_subInstances (h : v.length = w.length) (i : ℕ) :
    amountAt (subInstances v w) i = amountAt v i - amountAt w i := amountAt_zipWith (sub_zero 0) h i

theorem amountAt_set (hi : i < v.length) (a : ℤ) (j : ℕ) :
    amountAt (v.set i a) j = if j = i then a else amountAt v j := by
  unfold amountAt
  rw [List.getD_eq_getElem?_getD, List.getD_eq_getElem?_getD]
  split_ifs with h
  · rw [h, List.getElem?_set_self hi, Option.getD_some]
  · rw [List.getElem?_set_ne (Ne.symm h)]

theorem sum_set (hi : i < v.length) (a : ℤ) : (v.set i a).sum = v.sum - amountAt v i + a := by
  induction v generalizing i with
  | nil => cases hi
  | cons b v ih =>
    cases i with
    | zero =>
      rw [List.set_cons_zero, List.sum_cons, List.sum_cons, amountAt_cons_zero]
      omega
    | succ i =>
      rw [List.set_cons_succ, List.sum_cons, List.sum_cons, amountAt_cons_succ,
        ih (Nat.lt_of_succ_lt_succ hi)]
      omega

/-! ### Allocation from one resource -/

/-- The loop that takes full instances while the demand is not fractional: the allocation, what is
left of the instances, and what is left of the demand. -/
def allocateFull : List ℤ → ℤ → List ℤ × List ℤ × ℤ
  | [], remainingDemand => ([], [], remainingDemand)
  | available :: rest, remainingDemand =>
    let taken := if available = kResourceUnitScaling then kResourceUnitScaling else 0
    if remainingDemand - taken < kResourceUnitScaling then
      (taken :: zeros rest, (available - taken) :: rest, remainingDemand - taken)
    else
      let more := allocateFull rest (remainingDemand - taken)
      (taken :: more.1, (available - taken) :: more.2.1, more.2.2)

/-- The full instances of a demand: the first stage of the allocation. -/
def fullInstances (available : List ℤ) (demand : ℤ) : List ℤ × List ℤ × ℤ :=
  if kResourceUnitScaling ≤ demand then allocateFull available demand
  else (zeros available, available, demand)

/-- One round of the loop that looks for the instance with the least left over: its index and what
is left of it. -/
def betterFit (remainingDemand : ℤ) (best : Option (ℕ × ℤ)) (instanceAt : ℤ × ℕ) : Option (ℕ × ℤ) :=
  if remainingDemand ≤ instanceAt.1 ∧ best.all (fun b => instanceAt.1 - remainingDemand < b.2) then
    some (instanceAt.2, instanceAt.1 - remainingDemand)
  else best

/-- The instance that is left with the least. -/
def bestFit (available : List ℤ) (remainingDemand : ℤ) : Option ℕ :=
  (available.zipIdx.foldl (betterFit remainingDemand) none).map Prod.fst

/-- `NodeResourceInstanceSet::TryAllocate` for one resource, on its instances: the allocation and
what is left. -/
def tryAllocateInstances (available : List ℤ) (demand : ℤ) : Option (List ℤ × List ℤ) :=
  match available with
  | [] => none
  | [single] => if demand ≤ single then some ([demand], [single - demand]) else none
  | _ =>
    let full := fullInstances available demand
    if kResourceUnitScaling ≤ full.2.2 then none
    else if 0 < full.2.2 then
      match bestFit full.2.1 full.2.2 with
      | none => none
      | some i => some (full.1.set i full.2.2, full.2.1.set i (amountAt full.2.1 i - full.2.2))
    else some (full.1, full.2.1)

/-- The allocation was taken from the instances: nothing is lost or made, and it is as much as
demanded. -/
structure Taken (available allocation left : List ℤ) (demand : ℤ) : Prop where
  length : allocation.length = available.length
  length_left : left.length = available.length
  conserved : ∀ i, amountAt left i + amountAt allocation i = amountAt available i
  nonneg : ∀ i, 0 ≤ amountAt allocation i
  left_nonneg : (∀ i, 0 ≤ amountAt available i) → ∀ i, 0 ≤ amountAt left i
  sum : allocation.sum = demand

/-- What the loop over the full instances does: each instance is left alone or was full and is taken
whole, and it stops only when the demand is fractional or no full instance is left. -/
structure TakenFull (available allocation left : List ℤ) (demand remaining : ℤ) : Prop where
  length : allocation.length = available.length
  length_left : left.length = available.length
  instances : ∀ i, (amountAt allocation i = 0 ∧ amountAt left i = amountAt available i) ∨
    (amountAt allocation i = kResourceUnitScaling ∧ amountAt left i = 0 ∧ amountAt available i =
      kResourceUnitScaling)
  sum : allocation.sum + remaining = demand
  stopped : remaining < kResourceUnitScaling ∨ ∀ i, amountAt left i ≠ kResourceUnitScaling

variable {demand : ℤ}

theorem takenFull_zeros (available : List ℤ) (h : demand < kResourceUnitScaling) :
    TakenFull available (zeros available) available demand demand :=
  ⟨length_zeros available, rfl, fun i => .inl ⟨amountAt_zeros available i, rfl⟩,
    by rw [sum_zeros available, zero_add], .inl h⟩

theorem takenFull_allocateFull (available : List ℤ) (demand : ℤ) :
    TakenFull available (allocateFull available demand).1 (allocateFull available demand).2.1 demand
      (allocateFull available demand).2.2 := by
  induction available generalizing demand with
  | nil =>
    refine ⟨rfl, rfl, fun i => .inl ⟨rfl, rfl⟩, zero_add _, .inr fun i => ?_⟩
    show amountAt [] i ≠ kResourceUnitScaling
    rw [amountAt_nil]
    decide
  | cons a rest ih =>
    unfold allocateFull
    dsimp only
    set taken := if a = kResourceUnitScaling then kResourceUnitScaling else 0 with htaken
    have hhead : (taken = 0 ∧ a - taken = a) ∨
        (taken = kResourceUnitScaling ∧ a - taken = 0 ∧ a = kResourceUnitScaling) := by
      rw [htaken]
      split_ifs with ha
      · exact .inr ⟨rfl, by omega, ha⟩
      · exact .inl ⟨rfl, by omega⟩
    split_ifs with hstop
    · refine ⟨by simp, by simp, fun i => ?_, ?_, .inl hstop⟩
      · cases i with
        | zero => exact hhead
        | succ i => exact .inl ⟨amountAt_zeros rest i, rfl⟩
      · show (taken :: zeros rest).sum + (demand - taken) = demand
        rw [List.sum_cons, sum_zeros rest]
        omega
    · have h := ih (demand - taken)
      refine ⟨by simp [h.length], by simp [h.length_left], fun i => ?_, ?_, ?_⟩
      · cases i with
        | zero => exact hhead
        | succ i => exact h.instances i
      · have hsum := h.sum
        show (taken :: _).sum + (allocateFull rest (demand - taken)).2.2 = demand
        rw [List.sum_cons]
        omega
      · refine h.stopped.imp_right fun hnone i => ?_
        cases i with
        | zero =>
          rw [amountAt_cons_zero]
          rcases hhead with ⟨hzero, heq⟩ | ⟨_, heq, _⟩
          · rw [heq]
            intro ha
            rw [htaken, if_pos ha] at hzero
            cases hzero
          · rw [heq]
            decide
        | succ i => exact hnone i

theorem foldl_betterFit {remaining : ℤ} {l : List (ℤ × ℕ)} {best : Option (ℕ × ℤ)} :
    (∀ b, l.foldl (betterFit remaining) best = some b →
      best = some b ∨ ∃ e ∈ l, remaining ≤ e.1 ∧ b.1 = e.2) ∧
    (l.foldl (betterFit remaining) best = none → best = none ∧ ∀ e ∈ l, e.1 < remaining) := by
  induction l generalizing best with
  | nil => exact ⟨fun b hb => .inl hb, fun h => ⟨h, nofun⟩⟩
  | cons e l ih =>
    rw [List.foldl_cons]
    by_cases hbetter : remaining ≤ e.1 ∧ best.all (fun b => e.1 - remaining < b.2)
    · have hround : betterFit remaining best e = some (e.2, e.1 - remaining) := if_pos hbetter
      rw [hround]
      constructor
      · intro b hb
        rcases ih.1 b hb with heq | ⟨e', he', hle, hb'⟩
        · cases heq
          exact .inr ⟨e, .head _, hbetter.1, rfl⟩
        · exact .inr ⟨e', .tail _ he', hle, hb'⟩
      · intro hnone
        exact absurd (ih.2 hnone).1 (by simp)
    · have hround : betterFit remaining best e = best := if_neg hbetter
      rw [hround]
      constructor
      · intro b hb
        exact (ih.1 b hb).imp_right fun ⟨e', he', h⟩ => ⟨e', .tail _ he', h⟩
      · intro hnone
        obtain ⟨hbest, hall⟩ := ih.2 hnone
        refine ⟨hbest, fun e' he' => ?_⟩
        obtain rfl | he' := List.mem_cons.mp he'
        · by_contra hle
          exact hbetter ⟨not_lt.mp hle, by rw [hbest]; rfl⟩
        · exact hall e' he'

variable {available : List ℤ}

theorem bestFit_spec {remaining : ℤ} (h : bestFit available remaining = some i) :
    i < available.length ∧ remaining ≤ amountAt available i := by
  obtain ⟨b, hb, rfl⟩ := Option.map_eq_some_iff.mp h
  rcases foldl_betterFit.1 b hb with hnone | ⟨⟨a, j⟩, he, hle, heq⟩
  · cases hnone
  · have hj := List.mem_zipIdx' he
    rw [heq]
    exact ⟨hj.1, by rw [amountAt_eq_getElem hj.1, ← hj.2]; exact hle⟩

theorem bestFit_none {remaining : ℤ} (h : bestFit available remaining = none)
    (hi : i < available.length) : amountAt available i < remaining := by
  have hall := (foldl_betterFit.2 (Option.map_eq_none_iff.mp h)).2 (available[i], i)
    (List.mem_zipIdx_iff_getElem?.mpr (List.getElem?_eq_getElem hi))
  rw [amountAt_eq_getElem hi]
  exact hall

theorem takenFull_fullInstances (available : List ℤ) (demand : ℤ) :
    TakenFull available (fullInstances available demand).1 (fullInstances available demand).2.1 demand
      (fullInstances available demand).2.2 := by
  unfold fullInstances
  split_ifs with h
  · exact takenFull_allocateFull available demand
  · exact takenFull_zeros available (not_le.mp h)

variable {allocation left : List ℤ}

theorem TakenFull.nonneg {remaining : ℤ}
    (h : TakenFull available allocation left demand remaining) (i : ℕ) : 0 ≤ amountAt allocation i := by
  rcases h.instances i with ⟨h, _⟩ | ⟨h, _⟩
  · rw [h]
  · rw [h]
    decide

theorem fullInstances_remaining_nonneg (available : List ℤ) (h : 0 ≤ demand) :
    0 ≤ (fullInstances available demand).2.2 := by
  have hloop : ∀ (available : List ℤ) (demand : ℤ), kResourceUnitScaling ≤ demand →
      0 ≤ (allocateFull available demand).2.2 := by
    intro available
    induction available with
    | nil => exact fun demand hdemand => le_trans (by decide) hdemand
    | cons a rest ih =>
      intro demand hdemand
      unfold allocateFull
      dsimp only
      split_ifs with _ hstop hstop
      · show 0 ≤ demand - kResourceUnitScaling
        omega
      · exact ih _ (not_lt.mp hstop)
      · show 0 ≤ demand - 0
        omega
      · exact ih _ (not_lt.mp hstop)
  unfold fullInstances
  split_ifs with hfull
  · exact hloop available demand hfull
  · exact h

theorem tryAllocateInstances_single (single demand : ℤ) : tryAllocateInstances [single] demand =
    if demand ≤ single then some ([demand], [single - demand]) else none := rfl

theorem tryAllocateInstances_of_two (a b : ℤ) (rest : List ℤ) (demand : ℤ) :
    tryAllocateInstances (a :: b :: rest) demand =
      (let full := fullInstances (a :: b :: rest) demand
      if kResourceUnitScaling ≤ full.2.2 then none
      else if 0 < full.2.2 then
        match bestFit full.2.1 full.2.2 with
        | none => none
        | some i => some (full.1.set i full.2.2, full.2.1.set i (amountAt full.2.1 i - full.2.2))
      else some (full.1, full.2.1)) := rfl

theorem taken_of_eq_some (hdemand : 0 ≤ demand)
    (h : tryAllocateInstances available demand = some (allocation, left)) :
    Taken available allocation left demand := by
  match available, h with
  | [single], h =>
    rw [tryAllocateInstances_single] at h
    split_ifs at h with hle
    cases h
    refine ⟨rfl, rfl, fun i => ?_, fun i => ?_, fun hnonneg i => ?_, by simp⟩
    · cases i with
      | zero => exact sub_add_cancel single demand
      | succ i => rfl
    · cases i with
      | zero => exact hdemand
      | succ i => exact le_refl 0
    · cases i with
      | zero => exact sub_nonneg.mpr hle
      | succ i => exact le_refl 0
  | a :: b :: rest, h =>
    rw [tryAllocateInstances_of_two] at h
    have hfull := takenFull_fullInstances (a :: b :: rest) demand
    have hremaining := fullInstances_remaining_nonneg (a :: b :: rest) hdemand
    generalize fullInstances (a :: b :: rest) demand = full at h hfull hremaining
    obtain ⟨taken, left', remaining⟩ := full
    dsimp only at h hfull hremaining
    split_ifs at h with htoomuch hrest
    · cases hbest : bestFit left' remaining with
      | none =>
        rw [hbest] at h
        cases h
      | some j =>
        rw [hbest] at h
        cases h
        obtain ⟨hj, hle⟩ := bestFit_spec hbest
        have hj' : j < taken.length := by rw [hfull.length, ← hfull.length_left]; exact hj
        -- an instance with something left was not taken as a full one
        have hjzero : amountAt taken j = 0 ∧ amountAt left' j = amountAt (a :: b :: rest) j := by
          rcases hfull.instances j with hkept | ⟨_, hzero, _⟩
          · exact hkept
          · omega
        refine ⟨by rw [List.length_set, hfull.length], by rw [List.length_set, hfull.length_left],
          fun i => ?_,
          fun i => ?_, fun hnonneg i => ?_, ?_⟩
        · rw [amountAt_set hj, amountAt_set hj']
          split_ifs with hij
          · rw [hij, hjzero.2]
            omega
          · rcases hfull.instances i with ⟨hzero, hsame⟩ | ⟨hone, hzero, hwas⟩ <;> omega
        · rw [amountAt_set hj']
          split_ifs
          · exact hremaining
          · exact hfull.nonneg i
        · rw [amountAt_set hj]
          split_ifs
          · omega
          · have hi := hnonneg i
            rcases hfull.instances i with ⟨_, hsame⟩ | ⟨_, hzero, _⟩ <;> omega
        · have hsum := hfull.sum
          rw [sum_set hj', hjzero.1]
          omega
    · cases h
      refine ⟨hfull.length, hfull.length_left, fun i => ?_, hfull.nonneg, fun hnonneg i => ?_, ?_⟩
      · rcases hfull.instances i with ⟨hzero, hsame⟩ | ⟨hone, hzero, hwas⟩ <;> omega
      · have hi := hnonneg i
        rcases hfull.instances i with ⟨_, hsame⟩ | ⟨_, hzero, _⟩ <;> omega
      · have hsum := hfull.sum
        omega

/-! ### When there is no allocation -/

/-- As many full instances as go into the demand, and one further instance with the fractional rest,
if there is a rest. -/
def HasChoice (available : List ℤ) (demand : ℤ) : Prop :=
  ∃ full : Finset ℕ, (full.card : ℤ) = demand / kResourceUnitScaling ∧
    (∀ i ∈ full, amountAt available i = kResourceUnitScaling) ∧
    (demand % kResourceUnitScaling = 0 ∨
      ∃ j ∉ full, j < available.length ∧ demand % kResourceUnitScaling ≤ amountAt available j)

theorem sum_eq_sum_range (v : List ℤ) : v.sum = ∑ i ∈ Finset.range v.length, amountAt v i := by
  induction v with
  | nil => rfl
  | cons a v ih =>
    rw [List.sum_cons, List.length_cons, Finset.sum_range_succ', ih, add_comm]
    rfl

/-- The instances that are full. -/
def fullIndices (v : List ℤ) : Finset ℕ :=
  (Finset.range v.length).filter (fun i => amountAt v i = kResourceUnitScaling)

theorem mem_fullIndices : i ∈ fullIndices v ↔ amountAt v i = kResourceUnitScaling := by
  rw [fullIndices, Finset.mem_filter, Finset.mem_range]
  refine ⟨And.right, fun h => ⟨?_, h⟩⟩
  by_contra hi
  rw [amountAt_of_length_le (not_lt.mp hi)] at h
  cases h

theorem sum_eq_card_fullIndices (h : ∀ i, amountAt v i = 0 ∨ amountAt v i = kResourceUnitScaling) :
    v.sum = kResourceUnitScaling * ((fullIndices v).card : ℤ) := by
  have hterm : ∀ i ∈ Finset.range v.length,
      amountAt v i = if amountAt v i = kResourceUnitScaling then kResourceUnitScaling else 0 := by
    intro i _
    split_ifs with hi
    · exact hi
    · exact (h i).resolve_right hi
  rw [sum_eq_sum_range, Finset.sum_congr rfl hterm, ← Finset.sum_filter, Finset.sum_const,
    nsmul_eq_mul, mul_comm]
  rfl

theorem TakenFull.remaining {remaining : ℤ} (h : TakenFull available allocation left demand remaining) :
    remaining = demand - kResourceUnitScaling * ((fullIndices allocation).card : ℤ) := by
  have hall : ∀ i, amountAt allocation i = 0 ∨ amountAt allocation i = kResourceUnitScaling :=
    fun i => (h.instances i).imp And.left And.left
  rw [← sum_eq_card_fullIndices hall]
  have hsum := h.sum
  omega

/-- When no full instance is left, the full ones are those that were taken. -/
theorem TakenFull.fullIndices_subset {remaining : ℤ}
    (h : TakenFull available allocation left demand remaining)
    (hnone : ∀ i, amountAt left i ≠ kResourceUnitScaling) :
    fullIndices available ⊆ fullIndices allocation := by
  intro i hi
  rw [mem_fullIndices] at hi ⊢
  rcases h.instances i with ⟨_, hsame⟩ | ⟨htaken, _⟩
  · exact absurd (hsame.trans hi) (hnone i)
  · exact htaken

/-- There is no allocation from one resource only if there is no choice of full instances and a
further one. -/
theorem not_hasChoice_of_eq_none (hdemand : 0 < demand)
    (h : tryAllocateInstances available demand = none) : ¬ HasChoice available demand := by
  rintro ⟨full, hcard, hfull, hrest⟩
  have hsub : full ⊆ fullIndices available := fun i hi => mem_fullIndices.mpr (hfull i hi)
  have hle : full.card ≤ (fullIndices available).card := Finset.card_le_card hsub
  have hunit : kResourceUnitScaling = 10000 := rfl
  match available, h with
  | [], _ =>
    have hzero : (fullIndices []).card = 0 := rfl
    rw [hunit] at hcard hrest
    rcases hrest with hrest | ⟨j, _, hj, _⟩
    · omega
    · exact absurd hj (Nat.not_lt_zero j)
  | [single], h =>
    rw [tryAllocateInstances_single] at h
    split_ifs at h with hnot
    by_cases hzero : 0 ∈ full
    · have hsingle : single = kResourceUnitScaling := hfull 0 hzero
      have hone : (fullIndices [single]).card ≤ 1 :=
        le_trans (Finset.card_filter_le _ _) (le_of_eq (Finset.card_range 1))
      rw [hunit] at hcard hrest hsingle
      rcases hrest with hrest | ⟨j, hj, hjlt, _⟩
      · omega
      · rw [List.length_singleton, Nat.lt_one_iff] at hjlt
        exact hj (hjlt ▸ hzero)
    · have hempty : full = ∅ := by
        rw [Finset.eq_empty_iff_forall_notMem]
        intro i hi
        cases i with
        | zero => exact hzero hi
        | succ i =>
          have habsurd := hfull (i + 1) hi
          rw [amountAt_cons_succ, amountAt_nil] at habsurd
          cases habsurd
      rw [hempty, Finset.card_empty] at hcard
      rw [hunit] at hcard hrest
      rcases hrest with hrest | ⟨j, _, hj, hjle⟩
      · omega
      · rw [List.length_singleton, Nat.lt_one_iff] at hj
        rw [hj, amountAt_cons_zero] at hjle
        omega
  | a :: b :: rest, h =>
    rw [tryAllocateInstances_of_two] at h
    have htaken := takenFull_fullInstances (a :: b :: rest) demand
    generalize fullInstances (a :: b :: rest) demand = stage at h htaken
    obtain ⟨taken, left, remaining⟩ := stage
    dsimp only at h htaken
    have hremaining := htaken.remaining
    split_ifs at h with htoomuch hpos
    · -- a demand of a full instance remains, but every full instance is taken
      have hnone := htaken.stopped.resolve_left (not_lt.mpr htoomuch)
      have hcardle := Finset.card_le_card (htaken.fullIndices_subset hnone)
      rw [hunit] at hcard htoomuch hremaining
      omega
    · cases hbest : bestFit left remaining with
      | some j =>
        rw [hbest] at h
        cases h
      | none =>
        have hsmall : ∀ i, amountAt left i < remaining := by
          intro i
          rcases Nat.lt_or_ge i left.length with hi | hi
          · exact bestFit_none hbest hi
          · rw [amountAt_of_length_le hi]
            exact hpos
        have hnone : ∀ i, amountAt left i ≠ kResourceUnitScaling := by
          intro i hi
          have := hsmall i
          omega
        have hsubset := htaken.fullIndices_subset hnone
        have heq : full = fullIndices taken := by
          apply Finset.eq_of_subset_of_card_le (hsub.trans hsubset)
          rw [hunit] at hcard htoomuch hremaining
          omega
        rw [hunit] at htoomuch hremaining hrest
        rcases hrest with hrest | ⟨j, hj, _, hjle⟩
        · omega
        · rcases htaken.instances j with ⟨_, hsame⟩ | ⟨hone, _⟩
          · have := hsmall j
            omega
          · exact hj (heq ▸ mem_fullIndices.mpr hone)

end RayTfm.Raylet
