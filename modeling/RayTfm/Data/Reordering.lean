import RayTfm.Lib.Dict
import RayTfm.Lib.Runs
import RayTfm.Data.BundleQueue

/-! # The queue in order of keys

The model of `execution/bundle_queue/reordering.py`.  Bundles are added under the key of the task
that made them, in any order of tasks; they come out key after key.  `has_next` moves the current
key over keys that are finalized and drained.  An entry that the dictionary makes up on reading is
empty and is left out. -/

namespace RayTfm.Data

variable {ρ : Type}

structure ReorderingBundleQueue (ρ : Type) where
  metrics : QueueMetrics
  inner : Dict ℕ (List (RefBundle ρ))
  currentKey : ℕ
  finalizedKeys : Finset ℕ

namespace ReorderingBundleQueue

def init : ReorderingBundleQueue ρ := ⟨.reset, .empty, 0, ∅⟩

/-- The bundles under a key. -/
def deque (q : ReorderingBundleQueue ρ) (key : ℕ) : List (RefBundle ρ) := (q.inner.get? key).getD []

def moveToNextKey (q : ReorderingBundleQueue ρ) : Except PyError (ReorderingBundleQueue ρ) := do
  pyAssert ((q.deque q.currentKey).length = 0)
  pyAssert (q.currentKey ∈ q.finalizedKeys)
  .ok { q with currentKey := q.currentKey + 1 }

def add (q : ReorderingBundleQueue ρ) (bundle : RefBundle ρ) (key : ℕ) : ReorderingBundleQueue ρ :=
  { q with
    metrics := q.metrics.onEnqueueBundle bundle
    inner := q.inner.set key (q.deque key ++ [bundle]) }

theorem moveToNextKey_eq_ok {q q' : ReorderingBundleQueue ρ} (h : q.moveToNextKey = .ok q') :
    q.currentKey ∈ q.finalizedKeys ∧ q' = { q with currentKey := q.currentKey + 1 } := by
  obtain ⟨-, -, h⟩ := bind_eq_ok.mp h
  obtain ⟨_, hmem, h⟩ := bind_eq_ok.mp h
  cases h
  exact ⟨of_decide_eq_true (pyAssert_eq_ok.mp hmem), rfl⟩

/-- The loop of `has_next`; it ends as there are finitely many finalized keys. -/
def advance (q : ReorderingBundleQueue ρ) : Except PyError (ReorderingBundleQueue ρ) :=
  if q.currentKey ∈ q.finalizedKeys ∧ (q.deque q.currentKey).length = 0 then
    match _hmove : q.moveToNextKey with
    | .ok q' => q'.advance
    | .error e => .error e
  else .ok q
termination_by (q.finalizedKeys.filter (fun key => q.currentKey ≤ key)).card
decreasing_by
  obtain ⟨hmem, rfl⟩ := moveToNextKey_eq_ok _hmove
  apply Finset.card_lt_card
  rw [Finset.ssubset_iff_of_subset]
  · exact ⟨q.currentKey, by simp [hmem], by simp⟩
  · intro key hkey
    simp only [Finset.mem_filter] at hkey ⊢
    exact ⟨hkey.1, by omega⟩

def hasNext (q : ReorderingBundleQueue ρ) : Except PyError (Bool × ReorderingBundleQueue ρ) := do
  let q ← q.advance
  .ok (0 < (q.deque q.currentKey).length, q)

def getNextInner (q : ReorderingBundleQueue ρ) :
    Except PyError (RefBundle ρ × ReorderingBundleQueue ρ) := do
  let r ← q.hasNext
  if r.1 then
    match r.2.deque r.2.currentKey with
    | [] => .error .indexError
    | bundle :: rest => .ok (bundle, { r.2 with inner := r.2.inner.set r.2.currentKey rest })
  else .error (.valueError "Cannot pop from empty queue.")

def getNext (q : ReorderingBundleQueue ρ) :
    Except PyError (RefBundle ρ × ReorderingBundleQueue ρ) := do
  let r ← q.getNextInner
  .ok (r.1, { r.2 with metrics := r.2.metrics.onDequeueBundle r.1 })

def finalize (q : ReorderingBundleQueue ρ) (key : ℕ) : Except PyError (ReorderingBundleQueue ρ) := do
  pyAssert (q.currentKey ≤ key)
  .ok { q with finalizedKeys := insert key q.finalizedKeys }

/-! ### The current key -/

@[simp] theorem deque_set (q : ReorderingBundleQueue ρ) (key key' : ℕ) (l : List (RefBundle ρ)) :
    deque { q with inner := q.inner.set key l } key' = if key' = key then l else q.deque key' := by
  rw [deque, Dict.get?_set]
  split_ifs <;> rfl

/-- The loop passes over finalized keys without bundles and stops at the first other key. -/
theorem advance_spec (q : ReorderingBundleQueue ρ) :
    ∃ c, q.advance = .ok { q with currentKey := c } ∧ q.currentKey ≤ c ∧
      (∀ key, q.currentKey ≤ key → key < c → key ∈ q.finalizedKeys ∧ q.deque key = []) ∧
      ¬ (c ∈ q.finalizedKeys ∧ q.deque c = []) := by
  fun_induction advance q with
  | case1 q hcond q' hmove ih =>
    obtain ⟨-, rfl⟩ := moveToNextKey_eq_ok hmove
    obtain ⟨c, hadv, hle, hpassed, hstop⟩ := ih
    refine ⟨c, hadv, ?_, ?_, hstop⟩
    · simp only at hle
      omega
    · intro key hkey hlt
      obtain rfl | hkey := Nat.eq_or_lt_of_le hkey
      · exact ⟨hcond.1, List.length_eq_zero_iff.mp hcond.2⟩
      · exact hpassed key hkey hlt
  | case2 q hcond e hmove =>
    exfalso
    simp [moveToNextKey, hcond.1, hcond.2] at hmove
  | case3 q hcond =>
    refine ⟨q.currentKey, rfl, le_rfl, fun key hle hlt => absurd hlt (by omega), ?_⟩
    rw [List.length_eq_zero_iff] at hcond
    exact hcond

end ReorderingBundleQueue

/-! ### Runs -/

/-- What the producers and the consumer of a queue do. -/
inductive ReorderingOp (ρ : Type) where
  | add (bundle : RefBundle ρ) (key : ℕ)
  | finalize (key : ℕ)
  | hasNext
  | getNext

/-- The key was finalized. -/
def isFinalized (ops : List (ReorderingOp ρ)) (key : ℕ) : Bool :=
  ops.any (fun op =>
    match op with
    | .finalize j => j = key
    | _ => false)

/-- The bundles added under the key, in order. -/
def addedAt (ops : List (ReorderingOp ρ)) (key : ℕ) : List (RefBundle ρ) :=
  ops.filterMap (fun op =>
    match op with
    | .add bundle j => if j = key then some bundle else none
    | _ => none)

/-- What the queue demands of its users: keys below `k`, finalized once, nothing added
afterwards. -/
def LegalOp (k : ℕ) (done : List (ReorderingOp ρ)) : ReorderingOp ρ → Prop
  | .add _ key => key < k ∧ isFinalized done key = false
  | .finalize key => key < k ∧ isFinalized done key = false
  | .hasNext => True
  | .getNext => True

/-- Every operation is legal after those before it. -/
def Legal (k : ℕ) : List (ReorderingOp ρ) → List (ReorderingOp ρ) → Prop
  | _, [] => True
  | done, op :: ops => LegalOp k done op ∧ Legal k (done ++ [op]) ops

theorem Legal.legalOp {k : ℕ} {op : ReorderingOp ρ} {rest : List (ReorderingOp ρ)} :
    ∀ {done ops : List (ReorderingOp ρ)}, Legal k done (ops ++ op :: rest) → LegalOp k (done ++ ops) op
  | done, [], h => by
    rw [List.append_nil]
    exact h.1
  | done, o :: ops, h => by
    have hop := Legal.legalOp h.2
    rwa [List.append_assoc, List.singleton_append] at hop

theorem Legal.append_getNext {k : ℕ} (n : ℕ) :
    ∀ {done ops : List (ReorderingOp ρ)}, Legal k done ops →
      Legal k done (ops ++ List.replicate n .getNext)
  | done, [], _ => by
    induction n generalizing done with
    | zero => trivial
    | succ n ih => exact ⟨trivial, ih _ trivial⟩
  | _, _ :: _, h => ⟨h.1, Legal.append_getNext n h.2⟩

theorem addedAt_append_getNext (ops : List (ReorderingOp ρ)) (n : ℕ) :
    addedAt (ops ++ List.replicate n .getNext) = addedAt ops := by
  funext key
  rw [addedAt, List.filterMap_append, addedAt]
  simp

namespace ReorderingBundleQueue

/-- One operation of a legal run; `get_next` is guarded by `has_next`. -/
def step (q : ReorderingBundleQueue ρ) :
    ReorderingOp ρ → Except PyError (ReorderingBundleQueue ρ × List (RefBundle ρ))
  | .add bundle key => .ok (q.add bundle key, [])
  | .finalize key => do
      let q ← q.finalize key
      .ok (q, [])
  | .hasNext => do
      let r ← q.hasNext
      .ok (r.2, [])
  | .getNext => do
      let r ← q.hasNext
      if r.1 then do
        let s ← r.2.getNext
        .ok (s.2, [s.1])
      else .ok (r.2, [])

/-- The bundles inside, in the order of their keys. -/
def held (q : ReorderingBundleQueue ρ) (k : ℕ) : List (RefBundle ρ) := (List.range k).flatMap q.deque

/-- Keys before the current one are finalized and drained, of the current one a first part is taken,
and later ones are untouched. -/
structure Inv (k : ℕ) (ops : List (ReorderingOp ρ)) (q : ReorderingBundleQueue ρ)
    (out : List (RefBundle ρ)) : Prop where
  finalized : ∀ key, key ∈ q.finalizedKeys ↔ isFinalized ops key = true
  bound : ∀ key ∈ q.finalizedKeys, key < k
  passed : ∀ key < q.currentKey, key ∈ q.finalizedKeys ∧ q.deque key = []
  taken : ∃ first, out = (List.range q.currentKey).flatMap (addedAt ops) ++ first ∧
    addedAt ops q.currentKey = first ++ q.deque q.currentKey
  later : ∀ key, q.currentKey < key → q.deque key = addedAt ops key
  keys : ∀ key, k ≤ key → addedAt ops key = []
  metrics : q.metrics = .totals (q.held k)

theorem inv_init (k : ℕ) : Inv k [] (init : ReorderingBundleQueue ρ) [] := by
  refine ⟨by simp [init, isFinalized], by simp [init], by simp [init], ⟨[], rfl, rfl⟩, fun _ _ => rfl,
    fun _ _ => rfl, ?_⟩
  have hnil : (init : ReorderingBundleQueue ρ).held k = [] := by
    rw [held, List.flatMap_eq_nil_iff]
    exact fun _ _ => rfl
  rw [hnil]
  rfl

variable {k : ℕ} {ops : List (ReorderingOp ρ)} {q q' : ReorderingBundleQueue ρ}
  {out o : List (RefBundle ρ)}

theorem Inv.currentKey_le (h : Inv k ops q out) : q.currentKey ≤ k := by
  by_contra hlt
  have := h.bound k (h.passed k (by omega)).1
  omega

theorem Inv.rows (h : Inv k ops q out) : out ++ q.held k = (List.range k).flatMap (addedAt ops) := by
  obtain ⟨first, hout, hcur⟩ := h.taken
  have hpassed : (List.range q.currentKey).flatMap q.deque = [] := by
    rw [List.flatMap_eq_nil_iff]
    exact fun key hkey => (h.passed key (List.mem_range.mp hkey)).2
  obtain hk | hk := Nat.eq_or_lt_of_le h.currentKey_le
  · have hnil := h.keys q.currentKey (le_of_eq hk.symm)
    rw [hcur, List.append_eq_nil_iff] at hnil
    rw [held, ← hk, hpassed, hout, hnil.1, List.append_nil, List.append_nil]
  · obtain ⟨m, rfl⟩ : ∃ m, k = q.currentKey + 1 + m := ⟨k - (q.currentKey + 1), by omega⟩
    have hlater : ((List.range m).map (q.currentKey + 1 + ·)).flatMap q.deque =
        ((List.range m).map (q.currentKey + 1 + ·)).flatMap (addedAt ops) := by
      apply List.flatMap_congr
      intro key hkey
      obtain ⟨j, -, rfl⟩ := List.mem_map.mp hkey
      exact h.later _ (by omega)
    rw [held, List.range_add, List.range_succ, List.flatMap_append, List.flatMap_append,
      List.flatMap_append, List.flatMap_append, List.flatMap_singleton, List.flatMap_singleton,
      hpassed, hlater, hout, hcur, List.nil_append]
    simp only [List.append_assoc]

/-! ### What one operation keeps -/

variable {key : ℕ}

theorem flatMap_perm_cons {β : Type} {f g : ℕ → List β} {b : β} {l : List ℕ}
    (hl : l.Nodup) (hkey : key ∈ l) (hg : (g key).Perm (b :: f key)) (hne : ∀ j, j ≠ key → g j = f j) :
    (l.flatMap g).Perm (b :: l.flatMap f) := by
  obtain ⟨l₁, l₂, rfl⟩ := List.append_of_mem hkey
  rw [List.nodup_append, List.nodup_cons] at hl
  have h₁ : l₁.flatMap g = l₁.flatMap f :=
    List.flatMap_congr (fun j hj => hne j (hl.2.2 j hj key (.head _)))
  have h₂ : l₂.flatMap g = l₂.flatMap f := by
    apply List.flatMap_congr
    rintro j hj
    apply hne
    rintro rfl
    exact hl.2.1.1 hj
  rw [List.flatMap_append, List.flatMap_append, List.flatMap_cons, List.flatMap_cons, h₁, h₂]
  have hmiddle := (hg.append_right (l₂.flatMap f)).append_left (l₁.flatMap f)
  exact hmiddle.trans List.perm_middle

theorem isFinalized_snoc (ops : List (ReorderingOp ρ)) (op : ReorderingOp ρ) (key : ℕ) :
    isFinalized (ops ++ [op]) key = (isFinalized ops key || isFinalized [op] key) := List.any_append

theorem isFinalized_finalize (key j : ℕ) :
    isFinalized [(.finalize key : ReorderingOp ρ)] j = decide (key = j) := by
  rw [isFinalized, List.any_cons, List.any_nil, Bool.or_false]

theorem addedAt_snoc (ops : List (ReorderingOp ρ)) (op : ReorderingOp ρ) (key : ℕ) :
    addedAt (ops ++ [op]) key = addedAt ops key ++ addedAt [op] key := List.filterMap_append

theorem addedAt_add (bundle : RefBundle ρ) (key j : ℕ) :
    addedAt [.add bundle key] j = if key = j then [bundle] else [] := by
  rw [addedAt, List.filterMap_cons]
  split_ifs <;> simp_all

theorem Inv.currentKey_le_of_open (h : Inv k ops q out) (hopen : isFinalized ops key = false) :
    q.currentKey ≤ key := by
  by_contra hbefore
  have hfin := (h.finalized key).mp (h.passed key (by omega)).1
  rw [hopen] at hfin
  cases hfin

variable {op : ReorderingOp ρ}

theorem Inv.of_eq (h : Inv k ops q out) (hf : ∀ j, isFinalized [op] j = false)
    (ha : ∀ j, addedAt [op] j = []) : Inv k (ops ++ [op]) q out := by
  have hadded : addedAt (ops ++ [op]) = addedAt ops := by
    funext j
    rw [addedAt_snoc, ha, List.append_nil]
  refine ⟨?_, h.bound, h.passed, ?_, ?_, ?_, h.metrics⟩
  · intro j
    rw [isFinalized_snoc, hf, Bool.or_false]
    exact h.finalized j
  · rw [hadded]
    exact h.taken
  · rw [hadded]
    exact h.later
  · rw [hadded]
    exact h.keys

theorem deque_add (q : ReorderingBundleQueue ρ) (bundle : RefBundle ρ) (key j : ℕ) :
    (q.add bundle key).deque j = q.deque j ++ addedAt [.add bundle key] j := by
  rw [addedAt_add, deque, add, Dict.get?_set]
  by_cases hj : j = key
  · rw [if_pos hj, if_pos hj.symm, hj]
    rfl
  · rw [if_neg hj, if_neg (fun h => hj h.symm), List.append_nil]
    rfl

variable {bundle : RefBundle ρ}

theorem Inv.add (h : Inv k ops q out)
    (hop : LegalOp k ops (.add bundle key)) : Inv k (ops ++ [.add bundle key])
    (q.add bundle key) out := by
  obtain ⟨hlt, hopen⟩ := hop
  have hge := h.currentKey_le_of_open hopen
  have hbefore : ∀ j, j < q.currentKey → addedAt [.add bundle key] j = [] := by
    intro j hj
    rw [addedAt_add, if_neg (by omega)]
  refine ⟨?_, h.bound, ?_, ?_, ?_, ?_, ?_⟩
  · intro j
    rw [isFinalized_snoc]
    exact (h.finalized j).trans
      (by rw [show isFinalized [.add bundle key] j = false from rfl, Bool.or_false])
  · intro j hj
    rw [deque_add, hbefore j hj, List.append_nil]
    exact h.passed j hj
  · obtain ⟨first, hout, hcur⟩ := h.taken
    refine ⟨first, ?_, ?_⟩
    · rw [hout]
      congr 1
      apply List.flatMap_congr
      intro j hj
      rw [addedAt_snoc, hbefore j (List.mem_range.mp hj), List.append_nil]
    · show addedAt _ q.currentKey = first ++ (q.add bundle key).deque q.currentKey
      rw [addedAt_snoc, hcur, deque_add, List.append_assoc]
  · intro j hj
    rw [deque_add, addedAt_snoc, h.later j hj]
  · intro j hj
    rw [addedAt_snoc, h.keys j hj, addedAt_add, if_neg (by omega), List.append_nil]
  · show q.metrics.onEnqueueBundle bundle = _
    rw [h.metrics]
    apply QueueMetrics.onEnqueueBundle_totals
    apply flatMap_perm_cons List.nodup_range (List.mem_range.mpr hlt)
    · rw [deque_add, addedAt_add, if_pos rfl]
      exact List.perm_append_singleton bundle _
    · intro j hj
      rw [deque_add, addedAt_add, if_neg (fun h => hj h.symm), List.append_nil]

theorem Inv.finalize (h : Inv k ops q out) (hop : LegalOp k ops (.finalize key)) :
    ∃ q', q.finalize key = .ok q' ∧ Inv k (ops ++ [.finalize key]) q' out := by
  obtain ⟨hlt, hopen⟩ := hop
  have hge := h.currentKey_le_of_open hopen
  refine ⟨{ q with finalizedKeys := insert key q.finalizedKeys }, ?_, ?_⟩
  · rw [ReorderingBundleQueue.finalize, decide_eq_true hge, pyAssert_true, ok_bind]
  · have hadded : addedAt (ops ++ [.finalize key]) = addedAt ops := by
      funext j
      rw [addedAt_snoc]
      exact List.append_nil _
    refine ⟨?_, ?_, ?_, ?_, ?_, ?_, h.metrics⟩
    · intro j
      rw [Finset.mem_insert, h.finalized, isFinalized_snoc, isFinalized_finalize, Bool.or_eq_true,
        decide_eq_true_eq, or_comm, eq_comm (a := j)]
    · intro j hj
      obtain rfl | hj := Finset.mem_insert.mp hj
      · exact hlt
      · exact h.bound j hj
    · intro j hj
      exact ⟨Finset.mem_insert_of_mem (h.passed j hj).1, (h.passed j hj).2⟩
    · rw [hadded]
      exact h.taken
    · rw [hadded]
      exact h.later
    · rw [hadded]
      exact h.keys

theorem Inv.moveToNextKey (h : Inv k ops q out) (hmem : q.currentKey ∈ q.finalizedKeys)
    (hnil : q.deque q.currentKey = []) :
    Inv k ops { q with currentKey := q.currentKey + 1 } out := by
  obtain ⟨first, hout, hcur⟩ := h.taken
  refine ⟨h.finalized, h.bound, ?_, ⟨[], ?_, ?_⟩, ?_, h.keys, h.metrics⟩
  · intro j hj
    obtain rfl | hj := Nat.eq_or_lt_of_le (Nat.lt_succ_iff.mp hj)
    · exact ⟨hmem, hnil⟩
    · exact h.passed j hj
  · rw [hnil, List.append_nil] at hcur
    rw [List.range_succ, List.flatMap_append, List.flatMap_singleton, hcur, List.append_nil]
    exact hout
  · exact (h.later (q.currentKey + 1) (by omega)).symm
  · intro j hj
    have hj' : q.currentKey + 1 < j := hj
    exact h.later j (by omega)

theorem Inv.advance (h : Inv k ops q out) (hadv : q.advance = .ok q') : Inv k ops q' out := by
  fun_induction ReorderingBundleQueue.advance q with
  | case1 q hcond q₁ hmove ih =>
    obtain ⟨-, rfl⟩ := moveToNextKey_eq_ok hmove
    exact ih (h.moveToNextKey hcond.1 (List.length_eq_zero_iff.mp hcond.2)) hadv
  | case2 q hcond e hmove => cases hadv
  | case3 q hcond =>
    cases hadv
    exact h

/-- `has_next` finds a bundle exactly if one is held under a key before which everything is
finalized and drained. -/
theorem Inv.hasNext (h : Inv k ops q out) :
    ∃ b q', q.hasNext = .ok (b, q') ∧ Inv k ops q' out ∧ (∀ key, q'.deque key = q.deque key) ∧
      (b = true ↔ q'.deque q'.currentKey ≠ []) ∧
      (b = true ↔ ∃ key, q.deque key ≠ [] ∧ ∀ j < key, isFinalized ops j = true ∧ q.deque j = []) := by
  obtain ⟨c, hadv, hle, hpassed, hstop⟩ := q.advance_spec
  have hinv := h.advance hadv
  refine ⟨decide (0 < (q.deque c).length), _, ?_, hinv, fun key => rfl, ?_, ?_⟩
  · rw [ReorderingBundleQueue.hasNext, hadv, ok_bind]
    rfl
  · rw [decide_eq_true_eq, List.length_pos_iff]
    exact Iff.rfl
  · rw [decide_eq_true_eq, List.length_pos_iff]
    constructor
    · intro hne
      refine ⟨c, hne, fun j hj => ?_⟩
      obtain ⟨hmem, hnil⟩ := hinv.passed j hj
      exact ⟨(h.finalized j).mp hmem, hnil⟩
    · rintro ⟨key, hne, hbefore⟩
      have hkey : key = c := by
        obtain hlt | heq | hgt := Nat.lt_trichotomy key c
        · exact absurd (hinv.passed key hlt).2 hne
        · exact heq
        · obtain ⟨hfin, hnil⟩ := hbefore c hgt
          exact absurd ⟨(h.finalized c).mpr hfin, hnil⟩ hstop
      rw [← hkey]
      exact hne

theorem hasNext_of_ne_nil (hne : q.deque q.currentKey ≠ []) : q.hasNext = .ok (true, q) := by
  have hcond : ¬ (q.currentKey ∈ q.finalizedKeys ∧ (q.deque q.currentKey).length = 0) :=
    fun hcond => hne (List.length_eq_zero_iff.mp hcond.2)
  rw [ReorderingBundleQueue.hasNext, ReorderingBundleQueue.advance, if_neg hcond, ok_bind,
    decide_eq_true (List.length_pos_iff.mpr hne)]

theorem Inv.getNext (h : Inv k ops q out) {rest : List (RefBundle ρ)}
    (hq : q.deque q.currentKey = bundle :: rest) :
    ∃ q', q.getNext = .ok (bundle, q') ∧ Inv k ops q' (out ++ [bundle]) := by
  have hne : q.deque q.currentKey ≠ [] := by
    rw [hq]
    exact List.cons_ne_nil bundle rest
  have hkey : q.currentKey < k := by
    by_contra hge
    obtain ⟨first, -, hcur⟩ := h.taken
    rw [h.keys q.currentKey (by omega), hq] at hcur
    simp at hcur
  set q' : ReorderingBundleQueue ρ := { q with
    inner := q.inner.set q.currentKey rest, metrics := q.metrics.onDequeueBundle bundle } with hq'
  have hdeque : ∀ j, q'.deque j = if j = q.currentKey then rest else q.deque j :=
    fun j => q.deque_set q.currentKey j rest
  have hother : ∀ j, j ≠ q.currentKey → q'.deque j = q.deque j := by
    intro j hj
    rw [hdeque, if_neg hj]
  refine ⟨q', ?_, h.finalized, h.bound, ?_, ?_, ?_, h.keys, ?_⟩
  · rw [ReorderingBundleQueue.getNext, getNextInner, hasNext_of_ne_nil hne, ok_bind]
    simp only [hq, if_true, ok_bind]
    rfl
  · intro j hj
    rw [hother j (Nat.ne_of_lt hj)]
    exact h.passed j hj
  · obtain ⟨first, hout, hcur⟩ := h.taken
    refine ⟨first ++ [bundle], ?_, ?_⟩
    · rw [hout, List.append_assoc]
    · show addedAt ops q.currentKey = _ ++ q'.deque q.currentKey
      rw [hcur, hq, hdeque, if_pos rfl, List.append_assoc, List.singleton_append]
  · intro j hj
    rw [hother j (Nat.ne_of_gt hj)]
    exact h.later j hj
  · show q.metrics.onDequeueBundle bundle = _
    rw [h.metrics]
    apply QueueMetrics.onDequeueBundle_totals
    apply flatMap_perm_cons List.nodup_range (List.mem_range.mpr hkey)
    · rw [hq, hdeque, if_pos rfl]
    · exact fun j hj => (hother j hj).symm

/-- No legal operation fails, and each keeps the invariant. -/
theorem inv_step (h : Inv k ops q out) (hop : LegalOp k ops op) :
    ∃ q' o, q.step op = .ok (q', o) ∧ Inv k (ops ++ [op]) q' (out ++ o) := by
  cases op with
  | add bundle key =>
    refine ⟨_, [], rfl, ?_⟩
    rw [List.append_nil]
    exact h.add hop
  | finalize key =>
    obtain ⟨q', hfin, hinv⟩ := h.finalize hop
    refine ⟨q', [], by rw [step, hfin]; rfl, ?_⟩
    rwa [List.append_nil]
  | hasNext =>
    obtain ⟨b, q', hnext, hinv, -⟩ := h.hasNext
    refine ⟨q', [], by rw [step, hnext]; rfl, ?_⟩
    rw [List.append_nil]
    exact hinv.of_eq (fun _ => rfl) (fun _ => rfl)
  | getNext =>
    obtain ⟨b, q₁, hnext, hinv, -, hb, -⟩ := h.hasNext
    rw [step, hnext, ok_bind]
    cases b with
    | false =>
      refine ⟨q₁, [], rfl, ?_⟩
      rw [List.append_nil]
      exact hinv.of_eq (fun _ => rfl) (fun _ => rfl)
    | true =>
      obtain ⟨bundle, rest, hq⟩ := List.exists_cons_of_ne_nil (hb.mp rfl)
      obtain ⟨q', hget, hinv'⟩ := hinv.getNext hq
      refine ⟨q', [bundle], by simp only [hget, if_true, ok_bind], ?_⟩
      exact hinv'.of_eq (fun _ => rfl) (fun _ => rfl)

theorem Inv.deque_of_le (h : Inv k ops q out) (hkey : k ≤ key) : q.deque key = [] := by
  obtain heq | hlt := Nat.eq_or_lt_of_le (h.currentKey_le.trans hkey)
  · obtain ⟨first, -, hcur⟩ := h.taken
    rw [heq, h.keys key hkey] at hcur
    exact (List.append_eq_nil_iff.mp hcur.symm).2
  · rw [h.later key hlt, h.keys key hkey]

/-- With all keys finalized, `has_next` is false only when nothing is left. -/
theorem Inv.deque_eq_nil (h : Inv k ops q out) (hall : ∀ key < k, isFinalized ops key = true)
    (hnext : q.hasNext = .ok (false, q')) (key : ℕ) : q.deque key = [] := by
  obtain ⟨b, q₁, hnext', -, -, -, hb⟩ := h.hasNext
  rw [hnext] at hnext'
  cases hnext'
  induction key using Nat.strong_induction_on with
  | h key ih =>
    by_contra hne
    have hlt : key < k := by
      by_contra hge
      exact hne (h.deque_of_le (by omega))
    have := hb.mpr ⟨key, hne, fun j hj => ⟨hall j (by omega), ih j hj⟩⟩
    cases this

theorem Inv.step_drains (h : Inv k ops q out) (hall : ∀ key < k, isFinalized ops key = true)
    (hstep : q.step .getNext = .ok (q', o)) :
    (∃ ops' out', Inv k ops' q' out' ∧ ∀ key < k, isFinalized ops' key = true) ∧
      (q'.held k).length ≤ (q.held k).length - 1 := by
  obtain ⟨q₂, o₂, hstep₂, hinv⟩ := inv_step h (show LegalOp k ops .getNext from trivial)
  rw [hstep] at hstep₂
  cases hstep₂
  have hall' : ∀ key < k, isFinalized (ops ++ [.getNext]) key = true := by
    intro key hkey
    rw [isFinalized_snoc, hall key hkey, Bool.true_or]
  refine ⟨⟨_, _, hinv, hall'⟩, ?_⟩
  have hrows := hinv.rows
  have hadded : addedAt (ops ++ [.getNext]) = addedAt ops := addedAt_append_getNext ops 1
  rw [hadded, ← h.rows, List.append_assoc] at hrows
  have hlen := congrArg List.length (List.append_cancel_left hrows)
  rw [List.length_append] at hlen
  obtain ⟨b, q₁, hnext, -⟩ := h.hasNext
  cases b with
  | true =>
    rw [step, hnext, ok_bind] at hstep
    obtain ⟨s, -, hstep⟩ := bind_eq_ok.mp hstep
    cases hstep
    rw [List.length_singleton] at hlen
    omega
  | false =>
    have hnil : q.held k = [] := by
      rw [held, List.flatMap_eq_nil_iff]
      exact fun key _ => h.deque_eq_nil hall hnext key
    rw [hnil] at hlen ⊢
    simp only [List.length_nil] at hlen ⊢
    omega

end ReorderingBundleQueue

/-- No legal run fails. -/
theorem ReorderingBundleQueue.run_inv {k : ℕ} {ops : List (ReorderingOp ρ)} (hlegal : Legal k [] ops) :
    ∃ q out, runSteps ReorderingBundleQueue.step .init ops = .ok (q, out) ∧ Inv k ops q out := by
  apply runSteps_ok (P := Inv k)
  · exact inv_init k
  · rintro done op rest q out rfl hinv
    exact inv_step hinv hlegal.legalOp

/-- Every legal run of `ReorderingBundleQueue`: no assert fails, the bundles come out by key and
inside a key in insertion order, `has_next` is true exactly if a bundle is held under a key before
which everything is finalized and drained, and the counters count what is inside.  Once all keys are
finalized nothing stays in the drained queue, and `get_next` drains it. -/
theorem reorderingBundleQueue_run (k : ℕ) (ops : List (ReorderingOp ρ)) (hlegal : Legal k [] ops) :
    ∃ q out, runSteps ReorderingBundleQueue.step .init ops = .ok (q, out) ∧
      out ++ q.held k = (List.range k).flatMap (addedAt ops) ∧
      (∀ key, k ≤ key → q.deque key = []) ∧ q.metrics = .totals (q.held k) ∧
      (∃ b q', q.hasNext = .ok (b, q') ∧ (b = true ↔
        ∃ key, q.deque key ≠ [] ∧ ∀ j < key, isFinalized ops j = true ∧ q.deque j = [])) ∧
      ((∀ key < k, isFinalized ops key = true) →
        (∀ q', q.hasNext = .ok (false, q') → out = (List.range k).flatMap (addedAt ops) ∧
          (∀ key, q.deque key = []) ∧ q.metrics = .reset) ∧
        ∀ n, ((List.range k).flatMap (addedAt ops)).length ≤ n →
          ∃ q' out', runSteps ReorderingBundleQueue.step .init
            (ops ++ List.replicate n .getNext) = .ok (q', out') ∧
              out' = (List.range k).flatMap (addedAt ops) ∧ ∀ key, q'.deque key = []) := by
  obtain ⟨q, out, hok, hinv⟩ := ReorderingBundleQueue.run_inv hlegal
  obtain ⟨b, q₁, hnext, -, -, -, hb⟩ := hinv.hasNext
  refine ⟨q, out, hok, hinv.rows, fun key => hinv.deque_of_le, hinv.metrics, ⟨b, q₁, hnext, hb⟩,
    fun hall => ⟨fun q' hdone => ?_, fun n hn => ?_⟩⟩
  · have hnil : q.held k = [] := by
      rw [ReorderingBundleQueue.held, List.flatMap_eq_nil_iff]
      exact fun key _ => hinv.deque_eq_nil hall hdone key
    refine ⟨?_, hinv.deque_eq_nil hall hdone, ?_⟩
    · rw [← hinv.rows, hnil, List.append_nil]
    · rw [hinv.metrics, hnil]
      rfl
  · obtain ⟨q', out', hok', hinv'⟩ := ReorderingBundleQueue.run_inv (hlegal.append_getNext n)
    obtain ⟨q₂, o, o', hops, hdrain, -⟩ := runSteps_append_eq_ok.mp hok'
    rw [hok] at hops
    cases hops
    have hzero := runSteps_replicate (m := fun q : ReorderingBundleQueue ρ => (q.held k).length)
      (Q := fun q => ∃ ops out, ReorderingBundleQueue.Inv k ops q out ∧
        ∀ key < k, isFinalized ops key = true)
      (by
        rintro s s' o ⟨ops, out, hs, hfin⟩ hstep
        exact hs.step_drains hfin hstep)
      ⟨ops, out, hinv, hall⟩ hdrain
    have hlen := congrArg List.length hinv.rows
    rw [List.length_append] at hlen
    have hnil : q'.held k = [] := by
      apply List.length_eq_zero_iff.mp
      omega
    refine ⟨q', out', hok', ?_, ?_⟩
    · rw [← addedAt_append_getNext ops n, ← hinv'.rows, hnil, List.append_nil]
    · intro key
      by_cases hkey : k ≤ key
      · exact hinv'.deque_of_le hkey
      · rw [ReorderingBundleQueue.held, List.flatMap_eq_nil_iff] at hnil
        exact hnil key (List.mem_range.mpr (by omega))

/-- Outputs of two tasks come interleaved, a third task has none. -/
theorem reorderingBundleQueue_run_interleaved :
    ∃ q out, runSteps ReorderingBundleQueue.step .init
      ([.add (.ofBlocks [⟨.arrow, [1]⟩]) 2, .add (.ofBlocks [⟨.arrow, [2]⟩]) 0, .finalize 1, .getNext,
        .add (.ofBlocks [⟨.arrow, [3]⟩]) 0, .finalize 0, .finalize 2] ++
        List.replicate 3 .getNext) = .ok (q, out) ∧
      out = [.ofBlocks [⟨.arrow, [2]⟩], .ofBlocks [⟨.arrow, [3]⟩], .ofBlocks [⟨.arrow, [1]⟩]] := by
  obtain ⟨q, out, -, -, -, -, -, hall⟩ := reorderingBundleQueue_run 3
    [.add (.ofBlocks [⟨.arrow, [1]⟩]) 2, .add (.ofBlocks [⟨.arrow, [2]⟩]) 0, .finalize 1, .getNext,
      .add (.ofBlocks [⟨.arrow, [3]⟩]) 0, .finalize 0, .finalize 2]
    (by simp [Legal, LegalOp, isFinalized])
  obtain ⟨q', out', hrun, hout, -⟩ := (hall (by decide)).2 3 le_rfl
  exact ⟨q', out', hrun, hout⟩

end RayTfm.Data
