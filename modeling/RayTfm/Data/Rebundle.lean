import RayTfm.Lib.Runs
import RayTfm.Data.BundleQueue

/-! # Rebundling

The model of `execution/bundle_queue/bundler.py`: a queue that gathers pending bundles until a
strategy lets it build a ready bundle out of them.  For `ExactMultipleSize` a ready bundle has a
multiple of the target rows, and the rest of the last pending bundle is carried over. -/

namespace RayTfm.Data

variable {ρ α : Type}

/-- When to build a ready bundle, and how much of the last pending bundle it takes. -/
inductive RebundlingStrategy where
  | estimateSize (minRowsPerBundle : Option ℕ)
  | exactMultipleSize (targetNumRows : ℕ)
deriving DecidableEq, Repr

namespace RebundlingStrategy

def canBuildReadyBundle (numPendingRows : ℕ) : RebundlingStrategy → Bool
  | .estimateSize none => 0 < numPendingRows
  | .estimateSize (some minRows) => 0 < numPendingRows && minRows ≤ numPendingRows
  | .exactMultipleSize target => target ≤ numPendingRows

def rowsNeededFromLastPendingBundle (totalPendingRows : ℕ) (last : RefBundle ρ) :
    RebundlingStrategy → Except PyError ℤ
  | .estimateSize _ => .ok last.rowsOrZero
  | .exactMultipleSize target => do
      let pendingRows : ℤ := last.rowsOrZero
      pyAssert (totalPendingRows - pendingRows < target)
      let extraRows : ℤ := totalPendingRows % target
      pyAssert (extraRows < pendingRows)
      .ok (pendingRows - extraRows)

end RebundlingStrategy

structure RebundleQueue (ρ : Type) where
  metrics : QueueMetrics
  strategy : RebundlingStrategy
  pendingBundles : List (RefBundle ρ)
  readyBundles : List (RefBundle ρ)
  currConsumedBundles : List (RefBundle ρ)
  consumedBundlesList : List (List (RefBundle ρ))
  totalPendingRows : ℕ

namespace RebundleQueue

def init (strategy : RebundlingStrategy) : RebundleQueue ρ := ⟨.reset, strategy, [], [], [], [], 0⟩

/-- `_merge_bundles`: all pending bundles become one ready bundle. -/
def mergeBundles (q : RebundleQueue ρ) : Except PyError (RebundleQueue ρ) := do
  let merged ← RefBundle.mergeRefBundles q.pendingBundles
  .ok { q with
    readyBundles := q.readyBundles ++ [merged]
    metrics := q.pendingBundles.foldl QueueMetrics.onDequeueBundle (q.metrics.onEnqueueBundle merged)
    pendingBundles := []
    totalPendingRows := 0 }

/-- The part of the last pending bundle that goes into the ready bundle, and what remains of it. -/
def cutLast (q : RebundleQueue ρ) (last : RefBundle ρ) (rowsNeeded : ℤ) :
    Except PyError (RebundleQueue ρ × Option (RefBundle ρ)) :=
  if rowsNeeded < last.rowsOrZero then do
    let r ← last.slice rowsNeeded.toNat
    .ok ({ q with
      metrics := (q.metrics.onDequeueBundle last).onEnqueueBundle r.1
      pendingBundles := q.pendingBundles.dropLast ++ [r.1] }, some r.2)
  else do
    pyAssert (rowsNeeded = last.rowsOrZero)
    .ok (q, none)

/-- What remains is pending again. -/
def carryOver (q : RebundleQueue ρ) : Option (RefBundle ρ) → RebundleQueue ρ
  | none => q
  | some remaining =>
    { q with
      pendingBundles := remaining :: q.pendingBundles
      totalPendingRows := q.totalPendingRows + remaining.rowsOrZero
      metrics := q.metrics.onEnqueueBundle remaining }

/-- The first half of `_try_build_ready_bundle`, once the strategy agrees. -/
def buildReadyBundle (q : RebundleQueue ρ) (last : RefBundle ρ) :
    Except PyError (RebundleQueue ρ) := do
  let rowsNeeded ← q.strategy.rowsNeededFromLastPendingBundle q.totalPendingRows last
  pyAssert (0 < rowsNeeded)
  let r ← q.cutLast last rowsNeeded
  let q ← r.1.mergeBundles
  .ok (q.carryOver r.2)

/-- The second half of `_try_build_ready_bundle`. -/
def flush (q : RebundleQueue ρ) (flushRemaining : Bool) (built : ℕ) :
    Except PyError (ℕ × RebundleQueue ρ) :=
  if flushRemaining && !q.pendingBundles.isEmpty then do
    let q ← q.mergeBundles
    .ok (built + 1, q)
  else .ok (built, q)

/-- `_try_build_ready_bundle`: the number of ready bundles built. -/
def tryBuildReadyBundle (q : RebundleQueue ρ) (flushRemaining : Bool) :
    Except PyError (ℕ × RebundleQueue ρ) :=
  match q.pendingBundles.getLast? with
  | some last =>
    if q.strategy.canBuildReadyBundle q.totalPendingRows then do
      let q ← q.buildReadyBundle last
      q.flush flushRemaining 1
    else q.flush flushRemaining 0
  | none => q.flush flushRemaining 0

/-- A bundle without rows goes to the last pending one. -/
def addEmpty (q : RebundleQueue ρ) (bundle : RefBundle ρ) : Except PyError (RebundleQueue ρ) :=
  match q.pendingBundles.getLast? with
  | some last => do
      let merged ← RefBundle.mergeRefBundles [last, bundle]
      .ok { q with
        pendingBundles := q.pendingBundles.dropLast ++ [merged]
        metrics := (q.metrics.onDequeueBundle last).onEnqueueBundle merged }
  | none =>
    .ok { q with
      pendingBundles := q.pendingBundles ++ [bundle]
      metrics := q.metrics.onEnqueueBundle bundle }

/-- The originals of a ready bundle that was just built. -/
def closeConsumed (q : RebundleQueue ρ) : RebundleQueue ρ :=
  { q with
    consumedBundlesList := q.consumedBundlesList ++ [q.currConsumedBundles]
    currConsumedBundles := [] }

def add (q : RebundleQueue ρ) (bundle : RefBundle ρ) : Except PyError (RebundleQueue ρ) :=
  if bundle.rowsOrZero = 0 then q.addEmpty bundle
  else do
    let r ← tryBuildReadyBundle { q with
      totalPendingRows := q.totalPendingRows + bundle.rowsOrZero
      pendingBundles := q.pendingBundles ++ [bundle]
      metrics := q.metrics.onEnqueueBundle bundle
      currConsumedBundles := q.currConsumedBundles ++ [bundle] } false
    if 0 < r.1 then do
      pyAssert (r.1 = 1)
      .ok r.2.closeConsumed
    else .ok r.2

def hasNext (q : RebundleQueue ρ) : Bool := 0 < q.readyBundles.length

def getNextWithOriginal (q : RebundleQueue ρ) :
    Except PyError ((RefBundle ρ × List (RefBundle ρ)) × RebundleQueue ρ) :=
  match q.readyBundles, q.consumedBundlesList with
  | [], _ => .error (.valueError "You can't pop from empty queue")
  | _ :: _, [] => .error .indexError
  | ready :: readyBundles, consumed :: consumedBundlesList =>
    .ok ((ready, consumed), { q with
      readyBundles, consumedBundlesList, metrics := q.metrics.onDequeueBundle ready })

/-- `get_next` forgets the originals. -/
def getNext (q : RebundleQueue ρ) : Except PyError (RefBundle ρ × RebundleQueue ρ) := do
  let r ← q.getNextWithOriginal
  .ok (r.1.1, r.2)

def finalize (q : RebundleQueue ρ) : Except PyError (RebundleQueue ρ) :=
  if 0 < q.pendingBundles.length then do
    let r ← q.tryBuildReadyBundle true
    pyAssert (r.1 = 1)
    .ok r.2.closeConsumed
  else .ok q

/-! ### Building a ready bundle -/

variable {fetch : ρ → List α}
variable {q : RebundleQueue ρ}

theorem mergeBundles_spec (fetch : ρ → List α) (hne : q.pendingBundles ≠ [])
    (hm : q.metrics = .totals (q.readyBundles ++ q.pendingBundles)) :
    ∃ merged, q.mergeBundles = .ok { q with
        readyBundles := q.readyBundles ++ [merged], pendingBundles := [], totalPendingRows := 0
        metrics := .totals (q.readyBundles ++ [merged]) } ∧
      merged.rows fetch = rowsOf fetch q.pendingBundles ∧
      ((∀ b ∈ q.pendingBundles, b.Counted fetch) → merged.Counted fetch) := by
  obtain ⟨merged, hmerge, hblocks⟩ := RefBundle.mergeRefBundles_eq hne
  refine ⟨merged, ?_, RefBundle.rows_of_blocks hblocks, RefBundle.Counted.of_blocks hblocks⟩
  have hperm : (q.readyBundles ++ [merged] ++ q.pendingBundles).Perm
      (merged :: (q.readyBundles ++ q.pendingBundles)) := by
    rw [List.append_assoc, List.singleton_append]
    exact List.perm_middle
  rw [mergeBundles, hmerge, ok_bind, hm, QueueMetrics.onEnqueueBundle_totals hperm,
    QueueMetrics.foldl_onDequeueBundle]

variable {front : List (RefBundle ρ)}

/-- The last pending bundle is cut so that a multiple of the target stays in front. -/
theorem cutLast_spec {last : RefBundle ρ}
    {n extra : ℕ} (hp : q.pendingBundles = front ++ [last]) (hlast : last.Counted fetch)
    (hn : (last.rows fetch).length = n) (hextra : extra < n)
    (hm : q.metrics = .totals (q.readyBundles ++ q.pendingBundles)) :
    ∃ last' remaining, q.cutLast last ((n : ℤ) - extra) = .ok ({ q with
        pendingBundles := front ++ [last'], metrics := .totals (q.readyBundles ++ (front ++ [last'])) },
        remaining) ∧
      last'.rows fetch ++ rowsOf fetch remaining.toList = last.rows fetch ∧
      (rowsOf fetch remaining.toList).length = extra ∧ last'.Counted fetch ∧
      (∀ b ∈ remaining, b.Counted fetch) ∧ (remaining = none ↔ extra = 0) := by
  have hrows : last.rowsOrZero = n := by rw [hlast.rowsOrZero_eq, hn]
  by_cases hzero : extra = 0
  · refine ⟨last, none, ?_, by simp, by simp [hzero], hlast, nofun, by simp [hzero]⟩
    rw [cutLast, if_neg (by rw [hrows]; omega)]
    simp only [hrows, hzero, Nat.cast_zero, sub_zero, decide_true, pyAssert_true, ok_bind, ← hp, ← hm]
  · obtain ⟨sliced, remaining, hslice, hsliced, hrem, htake, hdrop⟩ :=
      RefBundle.slice_spec hlast (k := n - extra) (by omega) (by omega)
    refine ⟨sliced, some remaining, ?_, ?_, ?_, hsliced, ?_, by simp [hzero]⟩
    · have hcut : ((n : ℤ) - extra).toNat = n - extra := by omega
      have hout : (q.readyBundles ++ q.pendingBundles).Perm (last :: (q.readyBundles ++ front)) := by
        rw [hp, ← List.append_assoc]
        exact List.perm_append_singleton last _
      have hin : (q.readyBundles ++ (front ++ [sliced])).Perm
        (sliced :: (q.readyBundles ++ front)) := by
        rw [← List.append_assoc]
        exact List.perm_append_singleton sliced _
      rw [cutLast, if_pos (by rw [hrows]; omega), hcut, hslice, ok_bind, hm,
        QueueMetrics.onDequeueBundle_totals hout, QueueMetrics.onEnqueueBundle_totals hin, hp,
        List.dropLast_concat]
    · rw [Option.toList_some, rowsOf_singleton, htake, hdrop, List.take_append_drop]
    · rw [Option.toList_some, rowsOf_singleton, hdrop, List.length_drop, hn]
      omega
    · intro b hb
      cases hb
      exact hrem

/-- What is built: a ready bundle with a multiple of the target, and less than the target
pending. -/
theorem buildReadyBundle_spec {t n : ℕ}
    {last : RefBundle ρ} (hs : q.strategy = .exactMultipleSize t)
    (hp : q.pendingBundles = front ++ [last]) (hlast : last.Counted fetch)
    (hn : (last.rows fetch).length = n) (hlt : q.totalPendingRows < t + n)
    (hle : t ≤ q.totalPendingRows) (hm : q.metrics = .totals (q.readyBundles ++ q.pendingBundles)) :
    ∃ ready remaining, q.buildReadyBundle last = .ok { q with
        readyBundles := q.readyBundles ++ [ready], pendingBundles := remaining.toList
        totalPendingRows := q.totalPendingRows % t
        metrics := .totals (q.readyBundles ++ [ready] ++ remaining.toList) } ∧
      ready.rows fetch ++ rowsOf fetch remaining.toList = rowsOf fetch q.pendingBundles ∧
      (rowsOf fetch remaining.toList).length = q.totalPendingRows % t ∧
      (remaining = none ↔ q.totalPendingRows % t = 0) ∧
      ((∀ b ∈ front, b.Counted fetch) → ready.Counted fetch) ∧ ∀ b ∈ remaining, b.Counted fetch := by
  have hrows : last.rowsOrZero = n := by rw [hlast.rowsOrZero_eq, hn]
  have hextra : q.totalPendingRows % t < n := by
    have hmod : q.totalPendingRows % t ≤ q.totalPendingRows - t := by
      rw [Nat.mod_eq_sub_mod hle]
      exact Nat.mod_le _ _
    omega
  obtain ⟨last', remaining, hcut, hsplit, hlen, hlast', hrem, hnone⟩ :=
    cutLast_spec hp hlast hn hextra hm
  obtain ⟨ready, hmerge, hready, hcounted⟩ := mergeBundles_spec fetch (q := { q with
    pendingBundles := front ++ [last'], metrics := .totals (q.readyBundles ++ (front ++ [last'])) })
    (by simp) rfl
  refine ⟨ready, remaining, ?_, ?_, hlen, hnone, fun hfront => hcounted ?_, hrem⟩
  · have hneeded : q.strategy.rowsNeededFromLastPendingBundle q.totalPendingRows last =
        .ok ((n : ℤ) - (q.totalPendingRows % t : ℕ)) := by
      rw [hs, RebundlingStrategy.rowsNeededFromLastPendingBundle, hrows]
      have h₁ : (q.totalPendingRows : ℤ) - n < t := by omega
      have h₂ : (q.totalPendingRows : ℤ) % t < n := by exact_mod_cast hextra
      simp only [decide_eq_true h₁, decide_eq_true h₂, pyAssert_true, ok_bind, Int.natCast_mod]
    have hpos : (0 : ℤ) < (n : ℤ) - (q.totalPendingRows % t : ℕ) := by omega
    rw [buildReadyBundle, hneeded, ok_bind, decide_eq_true hpos, pyAssert_true, ok_bind, hcut,
      ok_bind, hmerge, ok_bind]
    cases remaining with
    | none =>
      have hzero := hnone.mp rfl
      simp only [carryOver, hzero, Option.toList_none, List.append_nil]
    | some r =>
      have hr : r.rowsOrZero = q.totalPendingRows % t := by
        rw [(hrem r rfl).rowsOrZero_eq, ← hlen, Option.toList_some, rowsOf_singleton]
      have hperm : (q.readyBundles ++ [ready] ++ [r]).Perm (r :: (q.readyBundles ++ [ready])) :=
        List.perm_append_singleton r _
      simp only [carryOver, hr, Option.toList_some, Nat.zero_add,
        QueueMetrics.onEnqueueBundle_totals hperm]
  · rw [hready, hp, rowsOf_append, rowsOf_append, rowsOf_singleton, rowsOf_singleton,
      List.append_assoc, hsplit]
  · intro b hb
    obtain hb | hb := List.mem_append.mp hb
    · exact hfront b hb
    · rw [List.mem_singleton.mp hb]
      exact hlast'

/-! ### What the operations keep -/

/-- The bundles that came out, the ready and the pending ones hold the added rows in order; less
than the target is pending, and the counters count ready and pending bundles. -/
structure Inv (fetch : ρ → List α) (t : ℕ) (added : List (RefBundle ρ)) (q : RebundleQueue ρ)
    (out : List (RefBundle ρ)) : Prop where
  strategy : q.strategy = .exactMultipleSize t
  rows : rowsOf fetch (out ++ q.readyBundles ++ q.pendingBundles) = rowsOf fetch added
  total_lt : q.totalPendingRows < t
  metrics : q.metrics = .totals (q.readyBundles ++ q.pendingBundles)
  consumed : q.consumedBundlesList.length = q.readyBundles.length

/-- Where the ready bundles end once `k` bundles are added: what is beyond a multiple of the target
rows is kept back. -/
def readyEnd (fetch : ρ → List α) (t : ℕ) (added : List (RefBundle ρ)) (k : ℕ) : ℕ :=
  (rowsOf fetch (added.take k)).length / t * t

/-- The bundle is what became ready with one of the added bundles. -/
def IsCut (fetch : ρ → List α) (t : ℕ) (added : List (RefBundle ρ)) (b : RefBundle ρ) : Prop :=
  ∃ k < added.length, b.rows fetch =
    segment (rowsOf fetch added) (readyEnd fetch t added k) (readyEnd fetch t added (k + 1))

/-- With known row counts the ready bundles have a multiple of the target rows, and nothing is
pending exactly if the added rows come out even and no bundle without rows came after them.  The row
counts stay known. -/
structure Built (fetch : ρ → List α) (t : ℕ) (added : List (RefBundle ρ)) (q : RebundleQueue ρ)
    (out : List (RefBundle ρ)) : Prop where
  total : q.totalPendingRows = (rowsOf fetch q.pendingBundles).length
  multiple : ∀ b ∈ out ++ q.readyBundles, 0 < (b.rows fetch).length ∧ t ∣ (b.rows fetch).length
  pending_nil : q.pendingBundles = [] ↔
    (rowsOf fetch added).length % t = 0 ∧ ∀ b ∈ added.getLast?, b.rows fetch ≠ []
  counted : ∀ b ∈ out ++ q.readyBundles ++ q.pendingBundles, b.Counted fetch
  cuts : ∀ b ∈ out ++ q.readyBundles, IsCut fetch t added b

theorem inv_init (fetch : ρ → List α) {t : ℕ} (ht : 1 ≤ t) :
    Inv fetch t [] (init (.exactMultipleSize t)) [] := ⟨rfl, rfl, ht, rfl, rfl⟩

theorem built_init (fetch : ρ → List α) (t : ℕ) :
    Built fetch t [] (init (.exactMultipleSize t)) [] :=
  ⟨rfl, by simp [init], by simp [init], by simp [init], by simp [init]⟩

variable {t : ℕ} {added : List (RefBundle ρ)} {q q' : RebundleQueue ρ} {out : List (RefBundle ρ)}

theorem readyEnd_le (fetch : ρ → List α) (t : ℕ) (added : List (RefBundle ρ)) (k : ℕ) :
    readyEnd fetch t added k ≤ (rowsOf fetch added).length := by
  refine (Nat.div_mul_le_self _ t).trans ?_
  conv_rhs => rw [← List.take_append_drop k added, rowsOf_append, List.length_append]
  exact Nat.le_add_right _ _

theorem IsCut.append {b : RefBundle ρ} (h : IsCut fetch t added b) (bundle : RefBundle ρ) :
    IsCut fetch t (added ++ [bundle]) b := by
  obtain ⟨k, hk, hrows⟩ := h
  have hend : ∀ {j}, j ≤ added.length →
      readyEnd fetch t (added ++ [bundle]) j = readyEnd fetch t added j := fun hj => by
    rw [readyEnd, List.take_append_of_le_length hj, readyEnd]
  refine ⟨k, by rw [List.length_append]; omega, ?_⟩
  rw [hrows, hend hk.le, hend hk, rowsOf_append, segment, segment,
    List.take_append_of_le_length (readyEnd_le ..)]

/-- The pending rows are what the added rows leave over. -/
theorem Built.total_mod (hi : Inv fetch t added q out) (h : Built fetch t added q out) :
    q.totalPendingRows = (rowsOf fetch added).length % t := by
  have hdvd : t ∣ (rowsOf fetch (out ++ q.readyBundles)).length := by
    rw [rowsOf, List.length_flatMap]
    apply List.dvd_sum
    intro n hn
    obtain ⟨b, hb, rfl⟩ := List.mem_map.mp hn
    exact (h.multiple b hb).2
  have hlen := congrArg List.length hi.rows
  rw [rowsOf_append, List.length_append, ← h.total] at hlen
  obtain ⟨m, hm⟩ := hdvd
  rw [← hlen, hm, Nat.mul_add_mod, Nat.mod_eq_of_lt hi.total_lt]

/-- The rows that are ready, and those that are pending. -/
theorem Built.split (hi : Inv fetch t added q out) (h : Built fetch t added q out) :
    (rowsOf fetch (out ++ q.readyBundles)).length = (rowsOf fetch added).length / t * t ∧
      rowsOf fetch q.pendingBundles =
        (rowsOf fetch added).drop ((rowsOf fetch added).length / t * t) := by
  have hmod := h.total_mod hi
  have hrows := hi.rows
  rw [rowsOf_append] at hrows
  have hlen := congrArg List.length hrows
  rw [List.length_append, ← h.total, hmod] at hlen
  have hready : (rowsOf fetch (out ++ q.readyBundles)).length =
      (rowsOf fetch added).length / t * t := by
    have := Nat.div_add_mod' (rowsOf fetch added).length t
    omega
  refine ⟨hready, ?_⟩
  rw [← hready]
  conv_rhs => rw [← hrows]
  rw [List.drop_left]

/-- A bundle without a row count of its own goes to the last pending one. -/
theorem Inv.addEmpty (hi : Inv fetch t added q out) (bundle : RefBundle ρ) :
    ∃ q', q.addEmpty bundle = .ok q' ∧ Inv fetch t (added ++ [bundle]) q' out ∧
      (bundle.rows fetch = [] → bundle.Counted fetch → Built fetch t added q out →
        Built fetch t (added ++ [bundle]) q' out) := by
  have hpending : ∃ pending, q.addEmpty bundle = .ok { q with
      pendingBundles := pending, metrics := .totals (q.readyBundles ++ pending) } ∧ pending ≠ [] ∧
        rowsOf fetch pending = rowsOf fetch q.pendingBundles ++ bundle.rows fetch ∧
        (bundle.Counted fetch → (∀ b ∈ q.pendingBundles, b.Counted fetch) →
          ∀ b ∈ pending, b.Counted fetch) := by
    cases hp : q.pendingBundles using List.reverseRecOn with
    | nil =>
      refine ⟨[bundle], ?_, by simp, by simp, fun hc _ b hb => ?_⟩
      · have hm := hi.metrics
        rw [hp, List.append_nil] at hm
        rw [RebundleQueue.addEmpty, hp]
        simp only [List.getLast?_nil, List.nil_append, hm,
          QueueMetrics.onEnqueueBundle_totals (List.perm_append_singleton bundle q.readyBundles)]
      · rw [List.mem_singleton.mp hb]
        exact hc
    | append_singleton front last =>
      obtain ⟨merged, hmerge, hblocks⟩ :=
        RefBundle.mergeRefBundles_eq (show [last, bundle] ≠ [] by simp)
      refine ⟨front ++ [merged], ?_, by simp, ?_, fun hc hall b hb => ?_⟩
      · have hm := hi.metrics
        rw [hp, ← List.append_assoc] at hm
        have hin : (q.readyBundles ++ (front ++ [merged])).Perm
          (merged :: (q.readyBundles ++ front)) := by
          rw [← List.append_assoc]
          exact List.perm_append_singleton merged _
        rw [RebundleQueue.addEmpty, hp, List.getLast?_concat]
        simp only [hmerge, ok_bind, List.dropLast_concat, hm,
          QueueMetrics.onDequeueBundle_totals
            (List.perm_append_singleton last (q.readyBundles ++ front)),
          QueueMetrics.onEnqueueBundle_totals hin]
      · rw [rowsOf_append, rowsOf_append, rowsOf_singleton, rowsOf_singleton,
          RefBundle.rows_of_blocks hblocks, List.append_assoc]
        simp
      · obtain hb | hb := List.mem_append.mp hb
        · exact hall b (List.mem_append_left _ hb)
        · rw [List.mem_singleton.mp hb]
          apply RefBundle.Counted.of_blocks hblocks
          intro b' hb'
          obtain rfl | hb' := List.mem_cons.mp hb'
          · exact hall b' (List.mem_append_right _ (.head _))
          · rw [List.mem_singleton.mp hb']
            exact hc
  obtain ⟨pending, hadd, hne, hrows, hcounted⟩ := hpending
  refine ⟨_, hadd, ⟨hi.strategy, ?_, hi.total_lt, rfl, hi.consumed⟩,
    fun hnil hc hb => ⟨?_, hb.multiple, ?_, fun b hmem => ?_,
      fun b hmem => (hb.cuts b hmem).append bundle⟩⟩
  · rw [rowsOf_append, hrows, ← List.append_assoc, ← rowsOf_append, hi.rows, rowsOf_append,
      rowsOf_singleton]
  · show q.totalPendingRows = _
    rw [hb.total, hrows, hnil, List.append_nil]
  · refine ⟨fun h => absurd h hne, fun h => ?_⟩
    exact absurd hnil (h.2 bundle (by simp))
  · obtain hmem | hmem := List.mem_append.mp hmem
    · exact hb.counted b (List.mem_append_left _ hmem)
    · exact hcounted hc (fun b' hb' => hb.counted b' (List.mem_append_right _ hb')) b hmem

/-- The state in which `add` tries to build a ready bundle. -/
def withPending (q : RebundleQueue ρ) (bundle : RefBundle ρ) : RebundleQueue ρ :=
  { q with
    totalPendingRows := q.totalPendingRows + bundle.rowsOrZero
    pendingBundles := q.pendingBundles ++ [bundle]
    metrics := q.metrics.onEnqueueBundle bundle
    currConsumedBundles := q.currConsumedBundles ++ [bundle] }

theorem Inv.withPending_metrics (hi : Inv fetch t added q out) (bundle : RefBundle ρ) :
    (q.withPending bundle).metrics =
      .totals ((q.withPending bundle).readyBundles ++ (q.withPending bundle).pendingBundles) := by
  have hperm : (q.readyBundles ++ (q.pendingBundles ++ [bundle])).Perm
      (bundle :: (q.readyBundles ++ q.pendingBundles)) := by
    rw [← List.append_assoc]
    exact List.perm_append_singleton bundle _
  show q.metrics.onEnqueueBundle bundle = _
  rw [hi.metrics, QueueMetrics.onEnqueueBundle_totals hperm]
  rfl

variable {bundle : RefBundle ρ}

theorem Inv.add_pending (hi : Inv fetch t added q out)
    (hbundle : bundle.Counted fetch) (hpos : bundle.rowsOrZero ≠ 0)
    (hlt : q.totalPendingRows + bundle.rowsOrZero < t) :
    q.add bundle = .ok (q.withPending bundle) ∧
      Inv fetch t (added ++ [bundle]) (q.withPending bundle) out ∧
      (Built fetch t added q out → Built fetch t (added ++ [bundle]) (q.withPending bundle) out) := by
  have hrows := hbundle.rowsOrZero_eq
  have hinv : Inv fetch t (added ++ [bundle]) (q.withPending bundle) out := by
    refine ⟨hi.strategy, ?_, hlt, hi.withPending_metrics bundle, hi.consumed⟩
    show rowsOf fetch (out ++ q.readyBundles ++ (q.pendingBundles ++ [bundle])) = _
    rw [← List.append_assoc, rowsOf_append, hi.rows, rowsOf_append]
  refine ⟨?_, hinv, fun hb => ⟨?_, hb.multiple, ?_, fun b hmem => ?_,
    fun b hmem => (hb.cuts b hmem).append bundle⟩⟩
  · have hcan : (q.withPending bundle).strategy.canBuildReadyBundle
        (q.withPending bundle).totalPendingRows = false := by
      show q.strategy.canBuildReadyBundle _ = _
      rw [hi.strategy]
      exact decide_eq_false (by show ¬ t ≤ q.totalPendingRows + bundle.rowsOrZero; omega)
    have htry : (q.withPending bundle).tryBuildReadyBundle false = .ok (0, q.withPending bundle) := by
      have hlast : (q.withPending bundle).pendingBundles.getLast? = some bundle :=
        List.getLast?_concat
      rw [tryBuildReadyBundle, hlast]
      simp only [hcan]
      rfl
    rw [add, if_neg hpos]
    show ((q.withPending bundle).tryBuildReadyBundle false >>= _) = _
    rw [htry, ok_bind, if_neg (by simp)]
  · show q.totalPendingRows + _ = (rowsOf fetch (q.pendingBundles ++ [bundle])).length
    rw [hb.total, hrows, rowsOf_append, List.length_append, rowsOf_singleton]
  · have hmod := hb.total_mod hi
    rw [rowsOf_append, List.length_append, rowsOf_singleton, ← hrows]
    refine ⟨fun h => absurd h (by simp [withPending]), fun h => ?_⟩
    have hsum : (rowsOf fetch added).length % t + bundle.rowsOrZero < t := by omega
    have := h.1
    rw [Nat.add_mod, Nat.mod_eq_of_lt (show bundle.rowsOrZero < t by omega),
      Nat.mod_eq_of_lt hsum] at this
    omega
  · have hmem : b ∈ out ++ q.readyBundles ++ (q.pendingBundles ++ [bundle]) := hmem
    rw [← List.append_assoc, List.mem_append, List.mem_singleton] at hmem
    obtain hmem | rfl := hmem
    · exact hb.counted b hmem
    · exact hbundle

theorem Inv.add_ready (hi : Inv fetch t added q out)
    (hbundle : bundle.Counted fetch) (hpos : bundle.rowsOrZero ≠ 0)
    (hle : t ≤ q.totalPendingRows + bundle.rowsOrZero) :
    ∃ q', q.add bundle = .ok q' ∧ Inv fetch t (added ++ [bundle]) q' out ∧
      (Built fetch t added q out → Built fetch t (added ++ [bundle]) q' out) := by
  have hrows := hbundle.rowsOrZero_eq
  have htlt := hi.total_lt
  obtain ⟨ready, remaining, hbuild, hsplit, hlen, hnone, hready, hrem⟩ := buildReadyBundle_spec (t := t)
    (q := q.withPending bundle) hi.strategy rfl hbundle rfl
    (by show q.totalPendingRows + bundle.rowsOrZero < _; omega) hle (hi.withPending_metrics bundle)
  set q₁ : RebundleQueue ρ := { q.withPending bundle with
    readyBundles := q.readyBundles ++ [ready], pendingBundles := remaining.toList
    totalPendingRows := (q.totalPendingRows + bundle.rowsOrZero) % t
    metrics := .totals (q.readyBundles ++ [ready] ++ remaining.toList) } with hq₁
  have hpending : rowsOf fetch (q.withPending bundle).pendingBundles =
      rowsOf fetch q.pendingBundles ++ bundle.rows fetch := by
    show rowsOf fetch (q.pendingBundles ++ [bundle]) = _
    rw [rowsOf_append, rowsOf_singleton]
  rw [hpending] at hsplit
  have htry : (q.withPending bundle).tryBuildReadyBundle false = .ok (1, q₁) := by
    have hlast : (q.withPending bundle).pendingBundles.getLast? = some bundle := List.getLast?_concat
    have hcan : (q.withPending bundle).strategy.canBuildReadyBundle
        (q.withPending bundle).totalPendingRows = true := by
      show q.strategy.canBuildReadyBundle _ = _
      rw [hi.strategy]
      exact decide_eq_true hle
    rw [tryBuildReadyBundle, hlast]
    simp only [hcan, if_true, hbuild, ok_bind]
    rfl
  refine ⟨q₁.closeConsumed, ?_, ⟨hi.strategy, ?_, ?_, rfl, ?_⟩,
    fun hb => ⟨hlen.symm, ?_, ?_, ?_, ?_⟩⟩
  · rw [add, if_neg hpos]
    show ((q.withPending bundle).tryBuildReadyBundle false >>= _) = _
    rw [htry, ok_bind, if_pos (by simp)]
    rfl
  · show rowsOf fetch (out ++ (q.readyBundles ++ [ready]) ++ remaining.toList) = _
    rw [← List.append_assoc, List.append_assoc _ [ready], rowsOf_append, rowsOf_append [ready],
      rowsOf_singleton, hsplit, ← List.append_assoc, ← rowsOf_append, hi.rows, rowsOf_append,
      rowsOf_singleton]
  · exact Nat.mod_lt _ (by omega)
  · show (q.consumedBundlesList ++ [_]).length = (q.readyBundles ++ [ready]).length
    rw [List.length_append, List.length_append, hi.consumed]
    rfl
  · intro b hb'
    have hmem : b ∈ out ++ (q.readyBundles ++ [ready]) := hb'
    rw [← List.append_assoc, List.mem_append, List.mem_singleton] at hmem
    obtain hold | rfl := hmem
    · exact hb.multiple b hold
    · have hcount := congrArg List.length hsplit
      have hlen' : (rowsOf fetch remaining.toList).length =
        (q.totalPendingRows + bundle.rowsOrZero) % t := hlen
      rw [List.length_append, List.length_append, ← hb.total, ← hrows, hlen'] at hcount
      have hlt := Nat.mod_lt (q.totalPendingRows + bundle.rowsOrZero) (show 0 < t by omega)
      have hdvd := Nat.dvd_sub_mod (n := t) (q.totalPendingRows + bundle.rowsOrZero)
      have heq : (b.rows fetch).length = q.totalPendingRows + bundle.rowsOrZero -
        (q.totalPendingRows + bundle.rowsOrZero) % t := by omega
      refine ⟨by omega, ?_⟩
      rw [heq]
      exact hdvd
  · have hne : bundle.rows fetch ≠ [] := List.ne_nil_of_length_pos (by omega)
    have hmod : (rowsOf fetch (added ++ [bundle])).length % t =
        (q.totalPendingRows + bundle.rowsOrZero) % t := by
      rw [rowsOf_append, List.length_append, rowsOf_singleton, ← hrows, Nat.add_mod,
        ← hb.total_mod hi, Nat.add_mod_mod]
    rw [hmod]
    show remaining.toList = [] ↔ _
    rw [Option.toList_eq_nil_iff, hnone]
    simp [withPending, hne]
  · intro b hmem
    have hmem : b ∈ out ++ (q.readyBundles ++ [ready]) ++ remaining.toList := hmem
    rw [← List.append_assoc, List.mem_append, List.mem_append, List.mem_singleton,
      Option.mem_toList] at hmem
    obtain (hold | rfl) | hb' := hmem
    · exact hb.counted b (List.mem_append_left _ hold)
    · exact hready (fun b' hb' => hb.counted b' (List.mem_append_right _ hb'))
    · exact hrem b hb'
  · intro b hb'
    have hmem : b ∈ out ++ (q.readyBundles ++ [ready]) := hb'
    rw [← List.append_assoc, List.mem_append, List.mem_singleton] at hmem
    obtain hold | rfl := hmem
    · exact (hb.cuts b hold).append bundle
    · -- the ready rows so far, this bundle, and what remains are the rows added until now
      have hall : rowsOf fetch (added ++ [bundle]) = rowsOf fetch (out ++ q.readyBundles) ++
          (b.rows fetch ++ rowsOf fetch remaining.toList) := by
        rw [hsplit, ← List.append_assoc, ← rowsOf_append, hi.rows, rowsOf_append, rowsOf_singleton]
      have hrest : (rowsOf fetch remaining.toList).length =
          (rowsOf fetch (added ++ [bundle])).length % t := by
        have hlen' : (rowsOf fetch remaining.toList).length =
          (q.totalPendingRows + bundle.rowsOrZero) % t := hlen
        rw [hlen', hb.total_mod hi, hrows, rowsOf_append, List.length_append, rowsOf_singleton,
          Nat.mod_add_mod]
      have hstart : readyEnd fetch t (added ++ [bundle]) added.length =
          (rowsOf fetch (out ++ q.readyBundles)).length := by
        rw [readyEnd, List.take_left, (hb.split hi).1]
      have hend : readyEnd fetch t (added ++ [bundle]) (added.length + 1) =
          (rowsOf fetch (out ++ q.readyBundles)).length + (b.rows fetch).length := by
        have hcount := congrArg List.length hall
        rw [List.length_append, List.length_append, hrest] at hcount
        have := Nat.div_add_mod' (rowsOf fetch (added ++ [bundle])).length t
        rw [readyEnd, List.take_of_length_le (by simp)]
        omega
      refine ⟨added.length, by simp, ?_⟩
      rw [hstart, hend, hall, segment, ← List.append_assoc,
        List.take_append_of_le_length (le_of_eq List.length_append.symm),
        List.take_of_length_le (le_of_eq List.length_append), List.drop_left]

theorem Inv.add (hi : Inv fetch t added q out) (hbundle : bundle.Sound fetch) :
    ∃ q', q.add bundle = .ok q' ∧ Inv fetch t (added ++ [bundle]) q' out ∧
      (bundle.Counted fetch → Built fetch t added q out →
        Built fetch t (added ++ [bundle]) q' out) := by
  by_cases hzero : bundle.rowsOrZero = 0
  · obtain ⟨q', hadd, hinv, hbuilt⟩ := hi.addEmpty bundle
    refine ⟨q', by rw [RebundleQueue.add, if_pos hzero, hadd], hinv, fun hc => hbuilt ?_ hc⟩
    rw [hc.rowsOrZero_eq] at hzero
    exact List.length_eq_zero_iff.mp hzero
  · have hcounted : bundle.Counted fetch := by
      cases hn : bundle.numRows with
      | none => exact absurd (by rw [RefBundle.rowsOrZero, hn]; rfl) hzero
      | some n => exact hbundle.counted hn
    by_cases hle : t ≤ q.totalPendingRows + bundle.rowsOrZero
    · obtain ⟨q', hadd, hinv, hbuilt⟩ := hi.add_ready hcounted hzero hle
      exact ⟨q', hadd, hinv, fun _ => hbuilt⟩
    · obtain ⟨hadd, hinv, hbuilt⟩ := hi.add_pending hcounted hzero (by omega)
      exact ⟨_, hadd, hinv, fun _ => hbuilt⟩

theorem Inv.getNext (hi : Inv fetch t added q out) (hnext : q.hasNext = true) :
    ∃ b q', q.getNext = .ok (b, q') ∧ Inv fetch t added q' (out ++ [b]) ∧
      q.readyBundles = b :: q'.readyBundles ∧ q'.pendingBundles = q.pendingBundles ∧
      (Built fetch t added q out → Built fetch t added q' (out ++ [b])) := by
  have hlen : 0 < q.readyBundles.length := of_decide_eq_true hnext
  obtain ⟨b, ready, hready⟩ := List.exists_cons_of_length_pos hlen
  obtain ⟨c, consumed, hconsumed⟩ := List.exists_cons_of_length_pos (hi.consumed ▸ hlen)
  have hout : ∀ l : List (RefBundle ρ), out ++ [b] ++ l = out ++ b :: l :=
    fun l => by rw [List.append_assoc, List.singleton_append]
  refine ⟨b, { q with
    readyBundles := ready, consumedBundlesList := consumed
    metrics := q.metrics.onDequeueBundle b }, ?_, ⟨hi.strategy, ?_, hi.total_lt, ?_, ?_⟩, hready, rfl,
    fun hb => ⟨hb.total, ?_, hb.pending_nil, ?_, ?_⟩⟩
  · rw [RebundleQueue.getNext, getNextWithOriginal, hready, hconsumed]
    rfl
  · show rowsOf fetch (out ++ [b] ++ ready ++ q.pendingBundles) = _
    rw [hout, ← hready, hi.rows]
  · show q.metrics.onDequeueBundle b = .totals (ready ++ q.pendingBundles)
    rw [hi.metrics, hready, List.cons_append, QueueMetrics.onDequeueBundle_totals (List.Perm.refl _)]
  · have := hi.consumed
    rw [hready, hconsumed, List.length_cons, List.length_cons] at this
    exact Nat.succ.inj this
  · show ∀ b' ∈ out ++ [b] ++ ready, _
    rw [hout, ← hready]
    exact hb.multiple
  · show ∀ b' ∈ out ++ [b] ++ ready ++ q.pendingBundles, _
    rw [hout, ← hready]
    exact hb.counted
  · show ∀ b' ∈ out ++ [b] ++ ready, _
    rw [hout, ← hready]
    exact hb.cuts

/-- `finalize` makes everything pending one ready bundle. -/
theorem Inv.finalize (hi : Inv fetch t added q out) :
    ∃ q' last, q.finalize = .ok q' ∧ Inv fetch t added q' out ∧ q'.pendingBundles = [] ∧
      q'.readyBundles = q.readyBundles ++ last ∧ rowsOf fetch last = rowsOf fetch q.pendingBundles ∧
      last.length = (if q.pendingBundles = [] then 0 else 1) ∧
      ((∀ b ∈ q.pendingBundles, b.Counted fetch) → ∀ b ∈ last, b.Counted fetch) := by
  by_cases hnil : q.pendingBundles = []
  · refine ⟨q, [], ?_, hi, hnil, by simp, by rw [hnil], by rw [if_pos hnil]; rfl, by simp⟩
    rw [RebundleQueue.finalize, if_neg (by simp [hnil])]
  · obtain ⟨merged, hmerge, hrows, hcounted⟩ := mergeBundles_spec fetch hnil hi.metrics
    set q₁ : RebundleQueue ρ := { q with
      readyBundles := q.readyBundles ++ [merged], pendingBundles := [], totalPendingRows := 0
      metrics := .totals (q.readyBundles ++ [merged]) } with hq₁
    have htry : q.tryBuildReadyBundle true = .ok (1, q₁) := by
      have hflush : q.flush true 0 = .ok (1, q₁) := by
        rw [flush, if_pos (by simp [hnil]), hmerge]
        rfl
      have hcan : q.strategy.canBuildReadyBundle q.totalPendingRows = false := by
        have := hi.total_lt
        rw [hi.strategy]
        exact decide_eq_false (by omega)
      rw [tryBuildReadyBundle]
      cases q.pendingBundles.getLast? with
      | none => exact hflush
      | some last =>
        simp only [hcan]
        exact hflush
    refine ⟨q₁.closeConsumed, [merged], ?_, ⟨hi.strategy, ?_, ?_, ?_, ?_⟩, rfl, rfl, ?_, ?_,
      fun hall b hb => ?_⟩
    · rw [RebundleQueue.finalize, if_pos (List.length_pos_iff.mpr hnil), htry]
      rfl
    · show rowsOf fetch (out ++ (q.readyBundles ++ [merged]) ++ []) = _
      rw [List.append_nil, ← List.append_assoc, rowsOf_append, rowsOf_singleton, hrows,
        ← rowsOf_append, hi.rows]
    · have := hi.total_lt
      show 0 < t
      omega
    · show QueueMetrics.totals (q.readyBundles ++ [merged]) = .totals (q.readyBundles ++ [merged] ++ [])
      rw [List.append_nil]
    · show (q.consumedBundlesList ++ [_]).length = (q.readyBundles ++ [merged]).length
      rw [List.length_append, List.length_append, hi.consumed]
      rfl
    · rw [rowsOf_singleton, hrows]
    · rw [if_neg hnil]
      rfl
    · rw [List.mem_singleton.mp hb]
      exact hcounted hall

end RebundleQueue

/-! ### Runs -/

namespace RebundleQueue

def step (q : RebundleQueue ρ) : BundleOp ρ → Except PyError (RebundleQueue ρ × List (RefBundle ρ))
  | .add bundle => do
      let q ← q.add bundle
      .ok (q, [])
  | .getNext =>
    if q.hasNext then do
      let r ← q.getNext
      .ok (r.2, [r.1])
    else .ok (q, [])

variable {fetch : ρ → List α} {t : ℕ} {q q' : RebundleQueue ρ} {out o : List (RefBundle ρ)}
variable {added : List (RefBundle ρ)}

theorem Inv.step_getNext (hi : Inv fetch t added q out) :
    ∃ q' o, q.step .getNext = .ok (q', o) ∧ Inv fetch t added q' (out ++ o) ∧
      q.readyBundles = o ++ q'.readyBundles ∧ q'.pendingBundles = q.pendingBundles ∧
      (o = [] → q'.readyBundles = []) ∧
      (Built fetch t added q out → Built fetch t added q' (out ++ o)) := by
  by_cases hnext : q.hasNext = true
  · obtain ⟨b, q', hget, hinv, hready, hpending, hbuilt⟩ := hi.getNext hnext
    refine ⟨q', [b], ?_, hinv, hready, hpending, by simp, hbuilt⟩
    rw [step, if_pos hnext, hget]
    rfl
  · refine ⟨q, [], ?_, ?_, rfl, rfl, ?_, ?_⟩
    · rw [step, if_neg hnext]
    · rwa [List.append_nil]
    · intro _
      simpa [hasNext] using hnext
    · rw [List.append_nil]
      exact id

theorem Inv.drain (hi : Inv fetch t added q out) (k : ℕ) :
    ∃ q' o, runSteps step q (List.replicate k .getNext) = .ok (q', o) ∧
    Inv fetch t added q' (out ++ o) ∧
      q.readyBundles = o ++ q'.readyBundles ∧ q'.pendingBundles = q.pendingBundles ∧
      (q.readyBundles.length ≤ k → q'.readyBundles = []) := by
  induction k generalizing q out with
  | zero =>
    refine ⟨q, [], rfl, by rwa [List.append_nil], rfl, rfl, fun h => ?_⟩
    exact List.length_eq_zero_iff.mp (Nat.le_zero.mp h)
  | succ k ih =>
    obtain ⟨q₁, o₁, hstep, hinv, hready, hpending, hempty, -⟩ := hi.step_getNext
    obtain ⟨q', o₂, hrun, hinv', hready', hpending', hdrained⟩ := ih hinv
    rw [List.append_assoc] at hinv'
    refine ⟨q', o₁ ++ o₂, ?_, hinv', ?_, hpending'.trans hpending, fun hk => ?_⟩
    · rw [List.replicate_succ, runSteps_cons_eq_ok]
      exact ⟨q₁, o₁, o₂, hstep, hrun, rfl⟩
    · rw [hready, hready', List.append_assoc]
    · have hlen := congrArg List.length hready
      rw [List.length_append] at hlen
      apply hdrained
      cases o₁ with
      | nil => rw [hempty rfl]; exact Nat.zero_le k
      | cons b o₁ =>
        rw [List.length_cons] at hlen
        omega

theorem run_inv (ht : 1 ≤ t) {ops : List (BundleOp ρ)}
    (hsound : ∀ b ∈ addedBundles ops, b.Sound fetch) :
    ∃ q out, runSteps step (init (.exactMultipleSize t)) ops = .ok (q, out) ∧
      Inv fetch t (addedBundles ops) q out ∧
      ((∀ b ∈ addedBundles ops, b.Counted fetch) → Built fetch t (addedBundles ops) q out) := by
  apply runSteps_ok (P := fun done q out => Inv fetch t (addedBundles done) q out ∧
    ((∀ b ∈ addedBundles ops, b.Counted fetch) → Built fetch t (addedBundles done) q out))
  · exact ⟨inv_init fetch ht, fun _ => built_init fetch t⟩
  · rintro done op rest q out hops ⟨hinv, hbuilt⟩
    cases op with
    | add bundle =>
      have hadded := addedBundles_snoc_add done bundle
      have hmem : bundle ∈ addedBundles ops := by
        rw [hops]
        exact mem_addedBundles done rest bundle
      obtain ⟨q', hadd, hinv', hbuilt'⟩ := hinv.add (hsound bundle hmem)
      refine ⟨q', [], by rw [step, hadd]; rfl, ?_, fun hall => ?_⟩
      · rwa [hadded, List.append_nil]
      · rw [hadded, List.append_nil]
        exact hbuilt' (hall bundle hmem) (hbuilt hall)
    | getNext =>
      have hadded := addedBundles_snoc_getNext done
      obtain ⟨q', o, hstep, hinv', -, -, -, hbuilt'⟩ := hinv.step_getNext
      rw [hadded]
      exact ⟨q', o, hstep, hinv', fun hall => hbuilt' (hbuilt hall)⟩

end RebundleQueue

/-- Every run of `RebundleQueue` with `ExactMultipleSize`: no assert fails, before and after
`finalize` the bundles taken out and those inside hold the added rows in order, the counters count
the ready and the pending bundles, and what becomes ready before `finalize` has a positive multiple
of the target rows (if the row counts are known). -/
theorem rebundleQueue_run (fetch : ρ → List α) {t : ℕ} (ht : 1 ≤ t) (ops : List (BundleOp ρ))
    (hsound : ∀ b ∈ addedBundles ops, b.Sound fetch) :
    ∃ q out, runSteps RebundleQueue.step (.init (.exactMultipleSize t)) ops = .ok (q, out) ∧
      rowsOf fetch (out ++ q.readyBundles ++ q.pendingBundles) = rowsOf fetch (addedBundles ops) ∧
      q.metrics = .totals (q.readyBundles ++ q.pendingBundles) ∧
      ((∀ b ∈ addedBundles ops, b.Counted fetch) → ∀ b ∈ out ++ q.readyBundles,
        0 < (b.rows fetch).length ∧ t ∣ (b.rows fetch).length) ∧
      ∃ q', q.finalize = .ok q' ∧ ∀ k, ∃ q'' out',
        runSteps RebundleQueue.step q' (List.replicate k .getNext) = .ok (q'', out') ∧
        rowsOf fetch (out ++ out' ++ q''.readyBundles) = rowsOf fetch (addedBundles ops) ∧
        q''.pendingBundles = [] ∧ q''.metrics = .totals (q''.readyBundles) ∧
        (q'.readyBundles.length ≤ k → q''.readyBundles = [] ∧
          rowsOf fetch (out ++ out') = rowsOf fetch (addedBundles ops)) := by
  obtain ⟨q, out, hrun, hinv, hbuilt⟩ := RebundleQueue.run_inv ht hsound
  obtain ⟨q', last, hfin, hinv', hpending, -⟩ := hinv.finalize
  refine ⟨q, out, hrun, hinv.rows, hinv.metrics, fun hall => (hbuilt hall).multiple, q', hfin,
    fun k => ?_⟩
  obtain ⟨q'', out', hdrain, hinv'', -, hpending', hempty⟩ := hinv'.drain k
  have hnil := hpending'.trans hpending
  have hrows := hinv''.rows
  have hmetrics := hinv''.metrics
  rw [hnil, List.append_nil] at hrows hmetrics
  refine ⟨q'', out', hdrain, hrows, hnil, hmetrics, fun hk => ⟨hempty hk, ?_⟩⟩
  rwa [hempty hk, List.append_nil] at hrows

/-- Bundles of three, no and two rows in blocks, for a target of two. -/
theorem rebundleQueue_run_two :
    ∃ q out, runSteps RebundleQueue.step (.init (.exactMultipleSize 2))
      [.add (.ofBlocks [⟨.arrow, [1]⟩, ⟨.arrow, [2, 3]⟩]), .getNext, .add (.ofBlocks [⟨.arrow, []⟩]),
        .add (.ofBlocks [⟨.arrow, [4, 5]⟩])] = .ok (q, out) ∧
      rowsOf Block.rows (out ++ q.readyBundles ++ q.pendingBundles) = [1, 2, 3, 4, 5] ∧
      ∀ b ∈ out ++ q.readyBundles, 0 < (b.rows Block.rows).length ∧ 2 ∣ (b.rows Block.rows).length := by
  have hcounted : ∀ b ∈ addedBundles [.add (.ofBlocks [⟨.arrow, [1]⟩, ⟨.arrow, [2, 3]⟩]), .getNext,
      .add (.ofBlocks [⟨.arrow, []⟩]), .add (.ofBlocks [⟨.arrow, [4, 5]⟩])],
      b.Counted (Block.rows : Block ℕ → List ℕ) := by
    intro b hb
    simp only [addedBundles, List.filterMap_cons, List.filterMap_nil, List.mem_cons,
      List.not_mem_nil, or_false] at hb
    obtain rfl | rfl | rfl := hb <;> exact RefBundle.counted_ofBlocks _
  obtain ⟨q, out, hrun, hrows, -, hmultiple, -⟩ := rebundleQueue_run Block.rows (t := 2) (by decide) _
    (fun b hb => (hcounted b hb).sound)
  exact ⟨q, out, hrun, hrows, hmultiple hcounted⟩

end RayTfm.Data
