import RayTfm.Data.RefBundle

/-! # Bundle queues

The model of `execution/bundle_queue/base.py` and `fifo.py`: the counters that every queue of
bundles keeps, and the queue in order of arrival.  `totals` is what the counters are meant to be. -/

namespace RayTfm.Data

variable {ρ : Type}

section rows
variable {α : Type} (fetch : ρ → List α)

/-- The rows of a list of bundles, in order. -/
def rowsOf (l : List (RefBundle ρ)) : List α := l.flatMap (RefBundle.rows fetch)

variable {fetch}

@[simp] theorem rowsOf_nil : rowsOf fetch [] = [] := rfl

@[simp] theorem rowsOf_cons (b : RefBundle ρ) (l : List (RefBundle ρ)) :
    rowsOf fetch (b :: l) = b.rows fetch ++ rowsOf fetch l := List.flatMap_cons

@[simp] theorem rowsOf_append (l l' : List (RefBundle ρ)) :
    rowsOf fetch (l ++ l') = rowsOf fetch l ++ rowsOf fetch l' := List.flatMap_append

@[simp] theorem rowsOf_singleton (b : RefBundle ρ) : rowsOf fetch [b] = b.rows fetch := by
  simp [rowsOf]

end rows

/-- The counters of `BaseBundleQueue`. -/
structure QueueMetrics where
  nbytes : ℤ
  numBlocks : ℤ
  numBundles : ℤ
  numRows : ℤ
deriving DecidableEq, Repr

/-- `bundle.num_rows() or 0`. -/
def RefBundle.rowsOrZero (b : RefBundle ρ) : ℕ := b.numRows.getD 0

theorem RefBundle.Counted.rowsOrZero_eq {α : Type} {fetch : ρ → List α} {b : RefBundle ρ}
    (h : b.Counted fetch) : b.rowsOrZero = (b.rows fetch).length := by
  rw [rowsOrZero, h.numRows_eq]
  rfl

theorem sum_rowsOrZero {α : Type} {fetch : ρ → List α} {l : List (RefBundle ρ)}
    (h : ∀ b ∈ l, b.Counted fetch) : (l.map RefBundle.rowsOrZero).sum = (rowsOf fetch l).length := by
  rw [rowsOf, List.length_flatMap]
  congr 1
  exact List.map_congr_left (fun b hb => (h b hb).rowsOrZero_eq)

namespace QueueMetrics

/-- The counters of a new queue, also what `_reset_metrics` sets. -/
def reset : QueueMetrics := ⟨0, 0, 0, 0⟩

def onEnqueueBundle (m : QueueMetrics) (b : RefBundle ρ) : QueueMetrics :=
  ⟨m.nbytes + b.sizeBytes, m.numBlocks + b.blocks.length, m.numBundles + 1, m.numRows + b.rowsOrZero⟩

def onDequeueBundle (m : QueueMetrics) (b : RefBundle ρ) : QueueMetrics :=
  ⟨m.nbytes - b.sizeBytes, m.numBlocks - b.blocks.length, m.numBundles - 1, m.numRows - b.rowsOrZero⟩

/-- What the bundles of a list count together. -/
def totals (l : List (RefBundle ρ)) : QueueMetrics :=
  ⟨(l.map RefBundle.sizeBytes).sum, (l.map (fun b => (b.blocks.length : ℤ))).sum, l.length,
    (l.map (fun b => (b.rowsOrZero : ℤ))).sum⟩

@[simp] theorem totals_nil : totals ([] : List (RefBundle ρ)) = reset := rfl

variable {l l' : List (RefBundle ρ)}

theorem totals_perm (h : l.Perm l') : totals l = totals l' := by
  unfold totals
  rw [(h.map _).sum_eq, (h.map _).sum_eq, (h.map _).sum_eq, h.length_eq]

theorem onEnqueueBundle_totals {b : RefBundle ρ} (h : l'.Perm (b :: l)) :
    (totals l).onEnqueueBundle b = totals l' := by
  rw [totals_perm h]
  simp [totals, onEnqueueBundle, add_comm]

theorem onDequeueBundle_totals {b : RefBundle ρ} (h : l'.Perm (b :: l)) :
    (totals l').onDequeueBundle b = totals l := by
  rw [totals_perm h]
  simp [totals, onDequeueBundle]

theorem foldl_onDequeueBundle (l p : List (RefBundle ρ)) :
    p.foldl onDequeueBundle (totals (l ++ p)) = totals l := by
  induction p with
  | nil => rw [List.append_nil, List.foldl_nil]
  | cons b p ih => rw [List.foldl_cons, onDequeueBundle_totals List.perm_middle, ih]

theorem totals_numRows {α : Type} {fetch : ρ → List α}
    (h : ∀ b ∈ l, b.Counted fetch) : (totals l).numRows = (rowsOf fetch l).length := by
  rw [← sum_rowsOrZero h, Nat.cast_list_sum, List.map_map]
  rfl

theorem totals_numBundles (l : List (RefBundle ρ)) : (totals l).numBundles = l.length := rfl

end QueueMetrics

/-- What happens to a component that takes bundles in and puts bundles out, until its input is
complete; `getNext` is guarded by `has_next`. -/
inductive BundleOp (ρ : Type) where
  | add (bundle : RefBundle ρ)
  | getNext

/-- The added bundles, in order. -/
def addedBundles (ops : List (BundleOp ρ)) : List (RefBundle ρ) :=
  ops.filterMap (fun op =>
    match op with
    | .add bundle => some bundle
    | .getNext => none)

theorem addedBundles_snoc_add (ops : List (BundleOp ρ)) (bundle : RefBundle ρ) :
    addedBundles (ops ++ [.add bundle]) = addedBundles ops ++ [bundle] := List.filterMap_append

theorem addedBundles_snoc_getNext (ops : List (BundleOp ρ)) :
    addedBundles (ops ++ [.getNext]) = addedBundles ops :=
  List.filterMap_append.trans (List.append_nil _)

theorem mem_addedBundles (ops ops' : List (BundleOp ρ)) (bundle : RefBundle ρ) :
    bundle ∈ addedBundles (ops ++ .add bundle :: ops') := by
  rw [addedBundles, List.filterMap_append, List.mem_append]
  exact .inr (.head _)

/-- `FIFOBundleQueue`. -/
structure FIFOBundleQueue (ρ : Type) where
  metrics : QueueMetrics
  inner : List (RefBundle ρ)
deriving DecidableEq

namespace FIFOBundleQueue

def init : FIFOBundleQueue ρ := ⟨.reset, []⟩

def hasNext (q : FIFOBundleQueue ρ) : Bool := 0 < q.metrics.numBundles

def add (q : FIFOBundleQueue ρ) (b : RefBundle ρ) : FIFOBundleQueue ρ :=
  ⟨q.metrics.onEnqueueBundle b, q.inner ++ [b]⟩

def getNext (q : FIFOBundleQueue ρ) : Except PyError (RefBundle ρ × FIFOBundleQueue ρ) :=
  if q.hasNext then
    match q.inner with
    | [] => .error .indexError
    | b :: inner => .ok (b, ⟨q.metrics.onDequeueBundle b, inner⟩)
  else .error (.valueError "Popping from empty FIFOBundleQueue is prohibited")

/-- The counters count the bundles inside. -/
def Valid (q : FIFOBundleQueue ρ) : Prop := q.metrics = .totals q.inner

theorem valid_init : (init : FIFOBundleQueue ρ).Valid := rfl

variable {q : FIFOBundleQueue ρ}

theorem Valid.add (h : q.Valid) (b : RefBundle ρ) : (q.add b).Valid := by
  have hperm : (q.inner ++ [b]).Perm (b :: q.inner) := List.perm_append_singleton b q.inner
  show q.metrics.onEnqueueBundle b = _
  rw [h, QueueMetrics.onEnqueueBundle_totals hperm]
  rfl

theorem Valid.hasNext (h : q.Valid) : q.hasNext = true ↔ q.inner ≠ [] := by
  rw [FIFOBundleQueue.hasNext, h, QueueMetrics.totals_numBundles, decide_eq_true_eq,
    Int.natCast_pos, List.length_pos_iff]

theorem Valid.getNext (h : q.Valid) {b : RefBundle ρ} {l : List (RefBundle ρ)}
    (hq : q.inner = b :: l) : ∃ q', q.getNext = .ok (b, q') ∧ q'.inner = l ∧ q'.Valid := by
  have hnext : q.hasNext = true := h.hasNext.mpr (by rw [hq]; exact List.cons_ne_nil b l)
  refine ⟨⟨q.metrics.onDequeueBundle b, l⟩, ?_, rfl, ?_⟩
  · rw [FIFOBundleQueue.getNext, if_pos hnext, hq]
  · show q.metrics.onDequeueBundle b = _
    rw [h, hq, QueueMetrics.onDequeueBundle_totals (List.Perm.refl _)]

end FIFOBundleQueue
end RayTfm.Data
