import Mathlib
import RayTfm.Lib.Binary64
import RayTfm.Lib.Runs
import RayTfm.Py

/-! # Weighted round-robin partitions

The model of `data/_internal/weighted_round_robin.py`.  Items go into the current bucket; a bucket
that has reached the maximum weight is put out as a partition, and one that has reached the minimum
weight hands over to the next bucket.  With `emitBeforeOverflow` a bucket is also put out when the
next item would take it over the maximum.  An item without a weight adds nothing to its bucket.
Weights are floats in the source: here they are of any ordered type with a sum that need not be
exact, of which only `x + 0 = x` is used; the weight of a list of items is their sum in this order.

The loop that looks for a bucket with room empties a bucket in each round, so it ends
(`emitWhileOverflowing`).  `Holds` says what is in the buckets and in the partitions; every
operation keeps it, and `partitions_exact` is what follows for a run. -/

namespace RayTfm.Data

variable {T W : Type} [LinearOrder W] [AddZeroClass W]

/-- `_WeightedBucket`. -/
structure WeightedBucket (T W : Type) where
  items : List T
  weight : W
deriving DecidableEq

namespace WeightedBucket

def empty : WeightedBucket T W := ⟨[], 0⟩

def add (b : WeightedBucket T W) (item : T) (weight : W) : WeightedBucket T W where
  items := b.items ++ [item]
  weight := b.weight + weight

end WeightedBucket

structure WeightedRoundRobinPartitioner (T W : Type) where
  numBuckets : ℕ
  minBucketSize : W
  maxBucketSize : W
  emitBeforeOverflow : Bool
  buckets : List (WeightedBucket T W)
  currentBucketIndex : ℕ
  outputQueue : List (List T)
deriving DecidableEq

inductive PartitionerOp (T W : Type) where
  | addItem (item : T) (weight : Option W)
  | nextPartition
  | finalize

namespace WeightedRoundRobinPartitioner

def init (minBucketSize maxBucketSize : W) (numBuckets : ℤ) (emitBeforeOverflow : Bool) :
    WeightedRoundRobinPartitioner T W where
  numBuckets := (max 1 numBuckets).toNat
  minBucketSize := minBucketSize
  maxBucketSize := maxBucketSize
  emitBeforeOverflow := emitBeforeOverflow
  buckets := List.replicate (max 1 numBuckets).toNat .empty
  currentBucketIndex := 0
  outputQueue := []

/-- `_current_bucket`. -/
def currentBucket (p : WeightedRoundRobinPartitioner T W) : Except PyError (WeightedBucket T W) :=
  match p.buckets[p.currentBucketIndex]? with
  | none => .error .indexError
  | some b => .ok b

/-- `_advance_bucket`. -/
def advanceBucket (p : WeightedRoundRobinPartitioner T W) : WeightedRoundRobinPartitioner T W :=
  { p with currentBucketIndex := (p.currentBucketIndex + 1) % p.numBuckets }

/-- The current bucket has changed. -/
def storeBucket (p : WeightedRoundRobinPartitioner T W) (b : WeightedBucket T W) :
    WeightedRoundRobinPartitioner T W :=
  { p with buckets := p.buckets.set p.currentBucketIndex b }

/-- `_emit_current_bucket`, where the current bucket is `b`. -/
def emitCurrentBucket (p : WeightedRoundRobinPartitioner T W) (b : WeightedBucket T W) :
    WeightedRoundRobinPartitioner T W :=
  (({ p with outputQueue := p.outputQueue ++ [b.items] } : WeightedRoundRobinPartitioner T
    W).storeBucket .empty).advanceBucket

/-- The number of buckets with items. -/
def numFilled (p : WeightedRoundRobinPartitioner T W) : ℕ :=
  p.buckets.countP (fun b => !b.items.isEmpty)

omit [LinearOrder W] in
theorem numFilled_emitCurrentBucket {p : WeightedRoundRobinPartitioner T W} {b : WeightedBucket T W}
    (h : p.buckets[p.currentBucketIndex]? = some b) (hb : b.items.isEmpty = false) :
    (p.emitCurrentBucket b).numFilled < p.numFilled := by
  obtain ⟨hlt, hget⟩ := List.getElem?_eq_some_iff.mp h
  have hpos : 0 < p.buckets.countP (fun b => !b.items.isEmpty) := by
    rw [List.countP_pos_iff]
    exact ⟨b, List.mem_of_getElem? h, by simp [hb]⟩
  show (p.buckets.set p.currentBucketIndex .empty).countP _ < p.buckets.countP _
  rw [List.countP_set hlt, hget]
  simp only [hb, WeightedBucket.empty, Bool.not_false, if_true, List.isEmpty_nil, Bool.not_true,
    Bool.false_eq_true, if_false]
  omega

/-- The loop of `add_item` over buckets that an item of this weight would take over the maximum. -/
def emitWhileOverflowing (p : WeightedRoundRobinPartitioner T W) (weight : W) :
    Except PyError (WeightedRoundRobinPartitioner T W) :=
  match _h : p.buckets[p.currentBucketIndex]? with
  | none => .error .indexError
  | some b =>
    if _hover : p.emitBeforeOverflow = true ∧ b.items.isEmpty = false ∧
      p.maxBucketSize < b.weight + weight then
      (p.emitCurrentBucket b).emitWhileOverflowing weight
    else .ok p
termination_by p.numFilled
decreasing_by exact numFilled_emitCurrentBucket _h _hover.2.1

def addItem (p : WeightedRoundRobinPartitioner T W) (item : T) (weight : Option W) :
    Except PyError (WeightedRoundRobinPartitioner T W) :=
  match weight with
  | none => do
      let b ← p.currentBucket
      .ok (p.storeBucket (b.add item 0)).advanceBucket
  | some weight => do
      let weight := max 0 weight
      let p ← p.emitWhileOverflowing weight
      let b ← p.currentBucket
      let b := b.add item weight
      if p.maxBucketSize ≤ b.weight then .ok ((p.storeBucket b).emitCurrentBucket b)
      else if p.minBucketSize ≤ b.weight then .ok (p.storeBucket b).advanceBucket
      else .ok (p.storeBucket b)

/-- `next_partition`. -/
def nextPartition (p : WeightedRoundRobinPartitioner T W) :
    Except PyError (WeightedRoundRobinPartitioner T W × List T) :=
  match p.outputQueue with
  | [] => .error .indexError
  | partition :: rest => .ok ({ p with outputQueue := rest }, partition)

def finalize (p : WeightedRoundRobinPartitioner T W) : WeightedRoundRobinPartitioner T W :=
  { p with
    outputQueue := p.outputQueue ++ (p.buckets.filter (fun b => !b.items.isEmpty)).map
      WeightedBucket.items
    buckets := p.buckets.map (fun b => if b.items.isEmpty then b else .empty) }

/-- An operation of the caller, and the partition it gets. -/
def step (p : WeightedRoundRobinPartitioner T W) :
    PartitionerOp T W → Except PyError (WeightedRoundRobinPartitioner T W × List (List T))
  | .addItem item weight => do
      let p ← p.addItem item weight
      .ok (p, [])
  | .nextPartition => do
      let r ← p.nextPartition
      .ok (r.1, [r.2])
  | .finalize => .ok (p.finalize, [])

end WeightedRoundRobinPartitioner

/-- The items that have been added, with their weights. -/
def addedItems (ops : List (PartitionerOp T W)) : List (T × Option W) :=
  ops.filterMap (fun op => match op with
    | .addItem item weight => some (item, weight)
    | _ => none)

/-- What an item adds to the weight of its bucket. -/
def itemWeight (weight : Option W) : W := weight.elim 0 (max 0)

def totalWeight (l : List (T × Option W)) : W :=
  l.foldl (fun total e => total + itemWeight e.2) 0

/-- A partition does not exceed the bound, or is one item. -/
def Fits (bound : W) (l : List (T × Option W)) : Prop := totalWeight l ≤ bound ∨ l.length = 1

/-- The bucket with some items. -/
def bucketOf (l : List (T × Option W)) : WeightedBucket T W where
  items := l.map Prod.fst
  weight := totalWeight l

@[simp] theorem totalWeight_nil : totalWeight ([] : List (T × Option W)) = 0 := rfl

theorem totalWeight_append_singleton (l : List (T × Option W)) (item : T) (weight : Option W) :
    totalWeight (l ++ [(item, weight)]) = totalWeight l + itemWeight weight := by
  rw [totalWeight, List.foldl_append]
  rfl

theorem bucketOf_add (l : List (T × Option W)) (item : T) (weight : Option W) :
    (bucketOf l).add item (itemWeight weight) = bucketOf (l ++ [(item, weight)]) := by
  rw [bucketOf, WeightedBucket.add, bucketOf, totalWeight_append_singleton, List.map_append]
  rfl

theorem bucketOf_isEmpty (l : List (T × Option W)) : (bucketOf l).items.isEmpty = l.isEmpty := by
  cases l <;> rfl

theorem flatten_perm_eraseIdx {A : Type} {l : List (List A)} {i : ℕ} {a : List A} (h : l[i]? = some a) :
    l.flatten.Perm (a ++ (l.eraseIdx i).flatten) := by
  obtain ⟨hlt, rfl⟩ := List.getElem?_eq_some_iff.mp h
  exact (List.getElem_cons_eraseIdx_perm hlt).symm.flatten

theorem flatten_set_perm {A : Type} {l : List (List A)} {i : ℕ} (h : i < l.length) (b : List A) :
    (l.set i b).flatten.Perm (b ++ (l.eraseIdx i).flatten) := by
  have hget : (l.set i b)[i]? = some b := List.getElem?_set_self h
  have hperm := flatten_perm_eraseIdx hget
  rwa [List.eraseIdx_set_eq] at hperm

namespace WeightedRoundRobinPartitioner

variable {p : WeightedRoundRobinPartitioner T W} {added : List (T × Option W)} {out : List (List T)}
  {held parts : List (List (T × Option W))} {l : List (T × Option W)}

/-- `held` are the items in the buckets, `parts` those of the partitions put out so far: together
they are the items added, each list in the order in which they were added. -/
structure Holds (added : List (T × Option W)) (p : WeightedRoundRobinPartitioner T W)
    (out : List (List T))
    (held parts : List (List (T × Option W))) : Prop where
  buckets : p.buckets = held.map bucketOf
  emitted : out ++ p.outputQueue = parts.map (fun l => l.map Prod.fst)
  perm : (parts.flatten ++ held.flatten).Perm added
  sublist : ∀ l ∈ parts ++ held, l.Sublist added
  index : p.currentBucketIndex < held.length
  numBuckets : p.numBuckets = held.length
  light : p.emitBeforeOverflow = true → ∀ l ∈ held, totalWeight l ≤ max 0 p.maxBucketSize
  fits : p.emitBeforeOverflow = true → ∀ l ∈ parts, Fits (max 0 p.maxBucketSize) l

theorem init_holds (minBucketSize maxBucketSize : W) (numBuckets : ℤ) (emitBeforeOverflow : Bool) :
    Holds ([] : List (T × Option W)) (init minBucketSize maxBucketSize numBuckets emitBeforeOverflow) []
      (List.replicate (max 1 numBuckets).toNat []) [] where
  buckets := by
    rw [List.map_replicate]
    rfl
  emitted := rfl
  perm := by rw [List.flatten_nil, List.flatten_replicate_nil]; rfl
  sublist := fun l hl => by rw [List.eq_of_mem_replicate hl]
  index := by
    rw [List.length_replicate]
    show 0 < _
    omega
  numBuckets := by rw [List.length_replicate]; rfl
  light := fun _ l hl => by
    rw [List.eq_of_mem_replicate hl, totalWeight_nil]
    exact le_max_left _ _
  fits := nofun

theorem Holds.current (h : Holds added p out held parts) :
    ∃ l, held[p.currentBucketIndex]? = some l ∧ l ∈ held ∧
      p.buckets[p.currentBucketIndex]? = some (bucketOf l) ∧ p.currentBucket = .ok (bucketOf l) := by
  obtain ⟨l, hget⟩ : ∃ l, held[p.currentBucketIndex]? = some l := ⟨_, List.getElem?_eq_getElem h.index⟩
  have hbucket : p.buckets[p.currentBucketIndex]? = some (bucketOf l) := by
    rw [h.buckets, List.getElem?_map, hget]
    rfl
  refine ⟨l, hget, List.mem_of_getElem? hget, hbucket, ?_⟩
  rw [currentBucket, hbucket]

theorem Holds.advanceBucket (h : Holds added p out held parts) :
    Holds added p.advanceBucket out held parts :=
  { h with
    index := by
      show (p.currentBucketIndex + 1) % p.numBuckets < held.length
      rw [h.numBuckets]
      exact Nat.mod_lt _ (Nat.zero_lt_of_lt h.index) }

theorem buckets_set (hbuckets : p.buckets = held.map bucketOf) (l : List (T × Option W)) :
    p.buckets.set p.currentBucketIndex (bucketOf l) = (held.set p.currentBucketIndex l).map
      bucketOf := by
  rw [hbuckets, List.map_set]

/-- An item goes into the current bucket, which does not become too heavy. -/
theorem Holds.store (h : Holds added p out held parts) (hl : held[p.currentBucketIndex]? = some l)
    (item : T) (weight : Option W)
    (hlight : p.emitBeforeOverflow = true → totalWeight (l ++ [(item, weight)]) ≤
      max 0 p.maxBucketSize) :
    Holds (added ++ [(item, weight)]) (p.storeBucket (bucketOf (l ++ [(item, weight)]))) out
      (held.set p.currentBucketIndex (l ++ [(item, weight)])) parts where
  buckets := buckets_set h.buckets _
  emitted := h.emitted
  perm := by
    have hset := flatten_set_perm h.index (l ++ [(item, weight)])
    have hget := flatten_perm_eraseIdx hl
    have hmove : (l ++ [(item, weight)] ++ (held.eraseIdx p.currentBucketIndex).flatten).Perm
        (held.flatten ++ [(item, weight)]) := by
      rw [List.append_assoc]
      refine (List.perm_append_comm.append_left l).trans ?_
      rw [← List.append_assoc]
      exact hget.symm.append_right _
    refine ((hset.trans hmove).append_left parts.flatten).trans ?_
    rw [← List.append_assoc]
    exact h.perm.append_right _
  sublist := by
    intro l' hl'
    obtain hl' | hl' := List.mem_append.mp hl'
    · exact (h.sublist l' (List.mem_append_left _ hl')).trans (List.sublist_append_left _ _)
    · obtain hl' | rfl := List.mem_or_eq_of_mem_set hl'
      · exact (h.sublist l' (List.mem_append_right _ hl')).trans (List.sublist_append_left _ _)
      · exact (h.sublist l (List.mem_append_right _ (List.mem_of_getElem? hl))).append_right _
  index := by rw [List.length_set]; exact h.index
  numBuckets := by rw [List.length_set]; exact h.numBuckets
  light := by
    intro hmode l' hl'
    obtain hl' | rfl := List.mem_or_eq_of_mem_set hl'
    · exact h.light hmode l' hl'
    · exact hlight hmode
  fits := h.fits

/-- The current bucket is put out with items that come to the end of what has been added. -/
theorem Holds.storeEmit (h : Holds added p out held parts) (hl : held[p.currentBucketIndex]? = some l)
    (new : List (T × Option W))
    (hfits : p.emitBeforeOverflow = true → Fits (max 0 p.maxBucketSize) (l ++ new)) :
    Holds (added ++ new) ((p.storeBucket (bucketOf (l ++ new))).emitCurrentBucket (bucketOf (l ++ new)))
      out (held.set p.currentBucketIndex []) (parts ++ [l ++ new]) := by
  refine Holds.advanceBucket ?_
  constructor
  · show (p.buckets.set p.currentBucketIndex (bucketOf (l ++ new))).set p.currentBucketIndex
      (bucketOf []) = _
    rw [List.set_set]
    exact buckets_set h.buckets []
  · show out ++ (p.outputQueue ++ [(l ++ new).map Prod.fst]) = _
    rw [← List.append_assoc, h.emitted]
    simp only [List.map_append, List.map_cons, List.map_nil]
  · have hset := flatten_set_perm h.index ([] : List (T × Option W))
    have hget := flatten_perm_eraseIdx hl
    rw [List.flatten_append, List.flatten_singleton, List.append_assoc]
    have hmove : (l ++ new ++ (held.set p.currentBucketIndex []).flatten).Perm
      (held.flatten ++ new) := by
      refine (hset.append_left _).trans ?_
      rw [List.nil_append, List.append_assoc]
      refine (List.perm_append_comm.append_left l).trans ?_
      rw [← List.append_assoc]
      exact hget.symm.append_right _
    refine (hmove.append_left parts.flatten).trans ?_
    rw [← List.append_assoc]
    exact h.perm.append_right _
  · intro l' hl'
    rw [List.append_assoc] at hl'
    obtain hl' | hl' := List.mem_append.mp hl'
    · exact (h.sublist l' (List.mem_append_left _ hl')).trans (List.sublist_append_left _ _)
    · obtain rfl | hl' := List.mem_cons.mp hl'
      · exact (h.sublist l (List.mem_append_right _ (List.mem_of_getElem? hl))).append_right _
      · obtain hl' | rfl := List.mem_or_eq_of_mem_set hl'
        · exact (h.sublist l' (List.mem_append_right _ hl')).trans (List.sublist_append_left _ _)
        · exact List.nil_sublist _
  · rw [List.length_set]
    exact h.index
  · rw [List.length_set]
    exact h.numBuckets
  · intro hmode l' hl'
    obtain hl' | rfl := List.mem_or_eq_of_mem_set hl'
    · exact h.light hmode l' hl'
    · exact le_max_left _ _
  · intro hmode l' hl'
    obtain hl' | hl' := List.mem_append.mp hl'
    · exact h.fits hmode l' hl'
    · rw [List.mem_singleton.mp hl']
      exact hfits hmode

omit [LinearOrder W] in
theorem emitCurrentBucket_storeBucket_self {b : WeightedBucket T W}
    (h : p.buckets[p.currentBucketIndex]? = some b) :
    (p.storeBucket b).emitCurrentBucket b = p.emitCurrentBucket b := by
  obtain ⟨hlt, rfl⟩ := List.getElem?_eq_some_iff.mp h
  rw [storeBucket, List.set_getElem_self]

/-- The loop puts out buckets, and ends at one that has room for the item. -/
theorem Holds.emitWhileOverflowing (h : Holds added p out held parts) (weight : W) :
    ∃ p' held' parts', p.emitWhileOverflowing weight = .ok p' ∧ Holds added p' out held' parts' ∧
      p'.emitBeforeOverflow = p.emitBeforeOverflow ∧ p'.maxBucketSize = p.maxBucketSize ∧
      ∀ l, held'[p'.currentBucketIndex]? = some l → p.emitBeforeOverflow = true →
        l = [] ∨ totalWeight l + weight ≤ p.maxBucketSize := by
  induction hn : p.numFilled using Nat.strong_induction_on generalizing p held parts with
  | h n ih =>
    obtain ⟨l, hl, hmem, hbucket, -⟩ := h.current
    rw [WeightedRoundRobinPartitioner.emitWhileOverflowing]
    split
    · rename_i hnone
      rw [hbucket] at hnone
      cases hnone
    · rename_i b hb
      rw [hbucket] at hb
      cases hb
      split_ifs with hover
      · have hemit := h.storeEmit hl [] (by
          intro hmode
          rw [List.append_nil]
          exact .inl (h.light hmode l hmem))
        rw [List.append_nil, List.append_nil, emitCurrentBucket_storeBucket_self hbucket] at hemit
        obtain ⟨p', held', parts', hrun, hholds, hmode, hmax, hroom⟩ :=
          ih _ (hn ▸ numFilled_emitCurrentBucket hbucket hover.2.1) hemit rfl
        exact ⟨p', held', parts', hrun, hholds, hmode, hmax, hroom⟩
      · refine ⟨p, held, parts, rfl, h, rfl, rfl, ?_⟩
        intro l' hl' hmode
        rw [hl] at hl'
        cases hl'
        rw [bucketOf_isEmpty] at hover
        by_cases hnil : l = []
        · exact .inl hnil
        · refine .inr (not_lt.mp (fun hlt => hover ⟨hmode, ?_, hlt⟩))
          rw [List.isEmpty_eq_false_iff]
          exact hnil

/-- An item that is added goes into a bucket or with one into a partition. -/
theorem Holds.addItem (h : Holds added p out held parts) (item : T) (weight : Option W) :
    ∃ p' held' parts', p.addItem item weight = .ok p' ∧
    Holds (added ++ [(item, weight)]) p' out held' parts' ∧
      p'.emitBeforeOverflow = p.emitBeforeOverflow ∧ p'.maxBucketSize = p.maxBucketSize := by
  cases weight with
  | none =>
    obtain ⟨l, hl, hmem, -, hcurrent⟩ := h.current
    have hstore := h.store hl item none (by
      intro hmode
      rw [totalWeight_append_singleton, itemWeight, Option.elim_none, add_zero]
      exact h.light hmode l hmem)
    refine ⟨_, _, _, ?_, hstore.advanceBucket, rfl, rfl⟩
    rw [WeightedRoundRobinPartitioner.addItem, hcurrent]
    rw [← bucketOf_add]
    rfl
  | some weight =>
    obtain ⟨p₁, held₁, parts₁, hrun, hholds, hmode₁, hmax₁, hroom⟩ :=
      h.emitWhileOverflowing (max 0 weight)
    obtain ⟨l, hl, hmem, -, hcurrent⟩ := hholds.current
    have hsum : totalWeight (l ++ [(item, some weight)]) = totalWeight l + max 0 weight :=
      totalWeight_append_singleton l item (some weight)
    have hadd : (bucketOf l).add item (max 0 weight) = bucketOf (l ++ [(item, some weight)]) :=
      bucketOf_add l item (some weight)
    have heq : p.addItem item (some weight) =
        if p₁.maxBucketSize ≤ totalWeight (l ++ [(item, some weight)]) then
          .ok ((p₁.storeBucket (bucketOf (l ++ [(item, some weight)]))).emitCurrentBucket
            (bucketOf (l ++ [(item, some weight)])))
        else if p₁.minBucketSize ≤ totalWeight (l ++ [(item, some weight)]) then
          .ok (p₁.storeBucket (bucketOf (l ++ [(item, some weight)]))).advanceBucket
        else .ok (p₁.storeBucket (bucketOf (l ++ [(item, some weight)]))) := by
      rw [WeightedRoundRobinPartitioner.addItem, hrun]
      simp only [bind, Except.bind]
      rw [hcurrent]
      simp only
      rw [hadd]
      rfl
    rw [heq]
    by_cases hfull : p₁.maxBucketSize ≤ totalWeight (l ++ [(item, some weight)])
    · rw [if_pos hfull]
      refine ⟨_, _, _, rfl, hholds.storeEmit hl [(item, some weight)] ?_, hmode₁, hmax₁⟩
      intro hmode
      obtain rfl | hle := hroom l hl (hmode₁ ▸ hmode)
      · exact .inr rfl
      · left
        rw [hsum, hmax₁]
        exact hle.trans (le_max_right _ _)
    · rw [if_neg hfull]
      have hstore := hholds.store hl item (some weight)
        (fun _ => (not_le.mp hfull).le.trans (le_max_right _ _))
      split_ifs
      · exact ⟨_, _, _, rfl, hstore.advanceBucket, hmode₁, hmax₁⟩
      · exact ⟨_, _, _, rfl, hstore, hmode₁, hmax₁⟩

theorem Holds.finalize (h : Holds added p out held parts) :
    ∃ parts', Holds added p.finalize out (List.replicate held.length []) parts' := by
  have hqueue : (p.buckets.filter (fun b => !b.items.isEmpty)).map WeightedBucket.items =
      (held.filter (fun l => !l.isEmpty)).map (fun l => l.map Prod.fst) := by
    rw [h.buckets, List.filter_map, List.map_map]
    congr 1
    apply List.filter_congr
    intro l _
    rw [Function.comp_apply, bucketOf_isEmpty]
  have hflatten : (held.filter (fun l => !l.isEmpty)).flatten = held.flatten :=
    List.flatten_filter_not_isEmpty
  refine ⟨parts ++ held.filter (fun l => !l.isEmpty), ?_⟩
  constructor
  · show p.buckets.map _ = _
    rw [h.buckets, List.map_map, List.map_replicate, ← List.map_const']
    apply List.map_congr_left
    intro l _
    rw [Function.comp_apply, bucketOf_isEmpty]
    cases l <;> rfl
  · show out ++ (p.outputQueue ++ _) = _
    rw [← List.append_assoc, h.emitted, hqueue, List.map_append]
  · rw [List.flatten_append, hflatten, List.flatten_replicate_nil, List.append_nil]
    exact h.perm
  · intro l hl
    obtain hl | hl := List.mem_append.mp hl
    · obtain hl | hl := List.mem_append.mp hl
      · exact h.sublist l (List.mem_append_left _ hl)
      · exact h.sublist l (List.mem_append_right _ (List.mem_of_mem_filter hl))
    · rw [List.eq_of_mem_replicate hl]
      exact List.nil_sublist _
  · rw [List.length_replicate]
    exact h.index
  · rw [List.length_replicate]
    exact h.numBuckets
  · intro _ l hl
    rw [List.eq_of_mem_replicate hl]
    exact le_max_left _ _
  · intro hmode l hl
    obtain hl | hl := List.mem_append.mp hl
    · exact h.fits hmode l hl
    · exact .inl (h.light hmode l (List.mem_of_mem_filter hl))

theorem Holds.nextPartition (h : Holds added p out held parts)
    {r : WeightedRoundRobinPartitioner T W × List T}
    (hnext : p.nextPartition = .ok r) :
    Holds added r.1 (out ++ [r.2]) held parts ∧ r.1.emitBeforeOverflow = p.emitBeforeOverflow ∧
      r.1.maxBucketSize = p.maxBucketSize := by
  unfold WeightedRoundRobinPartitioner.nextPartition at hnext
  cases hq : p.outputQueue with
  | nil =>
    rw [hq] at hnext
    cases hnext
  | cons partition rest =>
    rw [hq] at hnext
    cases hnext
    refine ⟨{ h with emitted := ?_ }, rfl, rfl⟩
    rw [List.append_assoc, List.singleton_append, ← hq]
    exact h.emitted

/-! ### Runs -/

variable {minBucketSize maxBucketSize : W} {numBuckets : ℤ} {emitBeforeOverflow : Bool}
  {ops : List (PartitionerOp T W)}

/-- What is held after a run. -/
def RunHolds (maxBucketSize : W) (emitBeforeOverflow : Bool) (ops : List (PartitionerOp T W))
    (p : WeightedRoundRobinPartitioner T W) (out : List (List T)) : Prop :=
  p.maxBucketSize = maxBucketSize ∧ p.emitBeforeOverflow = emitBeforeOverflow ∧
    ∃ held parts, Holds (addedItems ops) p out held parts

theorem RunHolds.step {p' : WeightedRoundRobinPartitioner T W} {op : PartitionerOp T W}
    {o : List (List T)}
    (h : RunHolds maxBucketSize emitBeforeOverflow ops p out) (hstep : p.step op = .ok (p', o)) :
    RunHolds maxBucketSize emitBeforeOverflow (ops ++ [op]) p' (out ++ o) := by
  obtain ⟨hmax, hmode, held, parts, hholds⟩ := h
  have hadded : addedItems (ops ++ [op]) = addedItems ops ++ addedItems [op] := List.filterMap_append
  unfold RunHolds
  rw [hadded]
  cases op with
  | addItem item weight =>
    obtain ⟨p₁, hrun, hstep⟩ := bind_eq_ok.mp hstep
    cases hstep
    obtain ⟨p₂, held', parts', hrun', hholds', hmode', hmax'⟩ := hholds.addItem item weight
    rw [hrun] at hrun'
    cases hrun'
    rw [List.append_nil]
    exact ⟨hmax'.trans hmax, hmode'.trans hmode, held', parts', hholds'⟩
  | nextPartition =>
    obtain ⟨r, hnext, hstep⟩ := bind_eq_ok.mp hstep
    cases hstep
    obtain ⟨hholds', hmode', hmax'⟩ := hholds.nextPartition hnext
    refine ⟨hmax'.trans hmax, hmode'.trans hmode, held, parts, ?_⟩
    show Holds (addedItems ops ++ []) _ _ _ _
    rwa [List.append_nil]
  | finalize =>
    cases hstep
    obtain ⟨parts', hholds'⟩ := hholds.finalize
    refine ⟨hmax, hmode, List.replicate held.length [], parts', ?_⟩
    show Holds (addedItems ops ++ []) _ (out ++ []) _ _
    rwa [List.append_nil, List.append_nil]

theorem run_holds
    (hrun : runSteps step (init minBucketSize maxBucketSize numBuckets emitBeforeOverflow) ops =
      .ok (p, out)) :
    RunHolds maxBucketSize emitBeforeOverflow ops p out :=
  runSteps_inv (P := fun done p out => RunHolds maxBucketSize emitBeforeOverflow done p out)
    ⟨rfl, rfl, _, _, init_holds minBucketSize maxBucketSize numBuckets emitBeforeOverflow⟩
    (fun _ _ _ _ _ _ ih hstep => ih.step hstep) hrun

/-- The partitions of a run, taken or still in the queue: they and what is left are the items added,
each in the order of addition; with `emitBeforeOverflow` each has at most the maximum weight (or
weight zero, should the maximum be negative) or is one item.  After `finalize` nothing is left, and
adding an item always succeeds. -/
theorem partitions_exact
    (hrun : runSteps step (init minBucketSize maxBucketSize numBuckets emitBeforeOverflow) ops =
      .ok (p, out)) :
    (∃ parts rest : List (List (T × Option W)), out ++ p.outputQueue = parts.map
      (fun l => l.map Prod.fst) ∧
        (parts.flatten ++ rest.flatten).Perm (addedItems ops) ∧
        (∀ l ∈ parts, l.Sublist (addedItems ops)) ∧
        (emitBeforeOverflow = true → ∀ l ∈ parts, Fits (max 0 maxBucketSize) l)) ∧
      (∃ parts : List (List (T × Option W)), out ++ p.finalize.outputQueue = parts.map
        (fun l => l.map Prod.fst) ∧
        parts.flatten.Perm (addedItems ops) ∧
        (∀ l ∈ parts, l.Sublist (addedItems ops)) ∧
        (emitBeforeOverflow = true → ∀ l ∈ parts, Fits (max 0 maxBucketSize) l)) ∧
      ∀ item weight, ∃ p', p.addItem item weight = .ok p' := by
  obtain ⟨hmax, hmode, held, parts, hholds⟩ := run_holds hrun
  refine ⟨⟨parts, held, hholds.emitted, hholds.perm, ?_, ?_⟩, ?_, ?_⟩
  · exact fun l hl => hholds.sublist l (List.mem_append_left _ hl)
  · rw [← hmax, ← hmode]
    exact hholds.fits
  · obtain ⟨parts', hfinal⟩ := hholds.finalize
    refine ⟨parts', hfinal.emitted, ?_, fun l hl => hfinal.sublist l (List.mem_append_left _ hl), ?_⟩
    · have hperm := hfinal.perm
      rwa [List.flatten_replicate_nil, List.append_nil] at hperm
    · rw [← hmax, ← hmode]
      exact hfinal.fits
  · intro item weight
    obtain ⟨p', -, -, hadd, -⟩ := hholds.addItem item weight
    exact ⟨p', hadd⟩

/-- Two items without a weight, and a partition in the queue. -/
theorem partitions_exact_pair :
    ∃ p out, runSteps step (init 0 1 1 true : WeightedRoundRobinPartitioner ℕ ℚ)
        [.addItem 7 none, .addItem 8 none, .finalize] = .ok (p, out) ∧
      ∀ item weight, ∃ p', p.addItem item weight = .ok p' := by
  have hrun : ∃ p out, runSteps step (init 0 1 1 true : WeightedRoundRobinPartitioner ℕ ℚ)
      [.addItem 7 none, .addItem 8 none, .finalize] = .ok (p, out) := ⟨_, _, rfl⟩
  obtain ⟨p, out, hrun⟩ := hrun
  exact ⟨p, out, hrun, (partitions_exact hrun).2.2⟩

/-- With a negative maximum a partition of two items without weight exceeds it; and four items come
together whose weights are more than a maximum of one, as their sum in doubles is not. -/
theorem max_weight_exceeded :
    ((runSteps step (init 0 (-1) 1 true : WeightedRoundRobinPartitioner ℕ ℚ)
        [.addItem 7 none, .addItem 8 none, .finalize]).map (fun r => r.1.outputQueue) = .ok [[7, 8]] ∧
      -1 < totalWeight (W := ℚ) [(7, none), (8, none)]) ∧
    (runSteps step (init 0 (.ofRat 1) 1 true : WeightedRoundRobinPartitioner ℕ Binary64)
        [.addItem 1 (some (.ofRat (1 / 10))), .addItem 2 (some (.ofRat (1 / 5))),
          .addItem 3 (some (.ofRat (3 / 10))), .addItem 4 (some (.ofRat (2 / 5)))]).map
        (fun r => r.1.outputQueue) = .ok [[1, 2, 3, 4]] ∧
      1 < (Binary64.ofRat (1 / 10)).toRat + (Binary64.ofRat (1 / 5)).toRat +
        (Binary64.ofRat (3 / 10)).toRat + (Binary64.ofRat (2 / 5)).toRat := by
  refine ⟨⟨?_, ?_⟩, ?_, ?_⟩ <;> decide +kernel

end WeightedRoundRobinPartitioner
end RayTfm.Data
