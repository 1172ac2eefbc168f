import RayTfm.Serve.PrefixTreeTimes

/-! # The representation of the prefix tree

After every sequence of calls with non-decreasing times, the tree, the owners of its nodes, the
counts and the lists of the tenants fit together (`RepInv`). -/

namespace RayTfm.Serve.PrefixTree
open RayTfm.Threads

/-- A call that changes the tree. -/
inductive Op (T : Type) where
  | addTenants (tenants : List String) (time : T)
  | insert (text : Text) (tenant : String) (time : T)
  | removeTenants (tenants : List String)
  | evictTenantByLru (tenant : String) (minRemoveSize : ℤ)

/-- The time a call is given. -/
def Op.time? {T : Type} : Op T → Option T
  | .addTenants _ time => some time
  | .insert _ _ time => some time
  | .removeTenants _ => none
  | .evictTenantByLru _ _ => none

/-- The tree after a call. -/
def apply {T : Type} [DecidableEq T] (s : PrefixTree T) : Op T → Option (PrefixTree T)
  | .addTenants tenants time => s.addTenants tenants time
  | .insert text tenant time => s.insert text tenant time
  | .removeTenants tenants => (s.removeTenants tenants).map Prod.fst
  | .evictTenantByLru tenant minRemoveSize =>
    (s.evictTenantByLru tenant minRemoveSize).map Prod.fst

/-- The tree after a sequence of calls. -/
def run {T : Type} [DecidableEq T] (ops : List (Op T)) : Option (PrefixTree T) :=
  ops.foldlM apply init

/-- The nodes reached from the root. -/
inductive Reachable {T : Type} (s : PrefixTree T) : ℕ → Prop
  | root : Reachable s root
  | child {p m : ℕ} {c : Char} : Reachable s p → s.child? p c = some m → Reachable s m

variable {T : Type} [LinearOrder T] {s s' : PrefixTree T} {v : View} {now : WithBot T}
  {t : String} {n : ℕ}

/-- The tree, the owners, the counts and the lists fit together. -/
structure RepInv (s : PrefixTree T) : Prop where
  /-- A child is stored under its first character, knows its parent and has a tenant. -/
  child : ∀ {p c m}, s.Reachable p → s.child? p c = some m →
    (s.nodes m).text.head? = some c ∧ (s.nodes m).parent = some p ∧ ∃ t, s.Owns t m
  /-- A tenant exists, owns the parent of its node, and has accessed it no earlier. -/
  owner : ∀ {t p c m τ}, s.Reachable p → s.child? p c = some m → s.time? m t = some τ →
    s.HasTenant t ∧ ∃ τ', s.time? p t = some τ' ∧ τ ≤ τ'
  /-- The list from the root has the nodes of the tenant, in the order of their times. -/
  list : ∀ {t}, s.HasTenant t → ∃ l : List ℕ,
    follow (fun n => (s.nodes n).tenantToOlderNode t) s.numNodes (some root) = some l ∧
    l.Nodup ∧ (∀ n, n ∈ l ↔ s.Reachable n ∧ s.Owns t n) ∧ l.Pairwise (s.NotLater t) ∧
    s.tenantToLruTail t = l.getLast? ∧
    s.tenantToCharCount.get? t = some (l.map (fun n => ((s.nodes n).text.length : ℤ))).sum
  /-- The newer node is the inverse of the older one. -/
  inverse : ∀ t a b, (s.nodes b).tenantToNewerNode t = some a ↔
    (s.nodes a).tenantToOlderNode t = some b

omit [LinearOrder T] in
theorem Inv.reachable_iff (h : Inv s v none) : s.Reachable n ↔ v.live n := by
  constructor
  · intro hn
    induction hn with
    | root => exact h.root_live
    | child _ hm ih => exact h.shape.labelled.child_live ih hm
  · intro hn
    -- a node is reached through its parent, whose label is shorter
    induction hk : (v.label n).length using Nat.strong_induction_on generalizing n with
    | _ k ih =>
      obtain rfl | ⟨p, c, hp, hpn⟩ := h.shape.labelled.reached hn
      · exact .root
      · have hlt := h.shape.labelled.child_label_lt hp hpn
        exact .child (ih _ (by omega) hp rfl) hpn

theorem Inv.repInv (h : Inv s v none) (ht : Timed s v none now) : RepInv s where
  child := by
    intro p c m hp hm
    rw [h.reachable_iff] at hp
    obtain ⟨t, howner⟩ | ⟨t, hpend⟩ :=
      h.owned (h.shape.labelled.child_live hp hm) (h.shape.child_ne_root hp hm)
    · exact ⟨h.shape.labelled.child_head hp hm, h.shape.parent hp hm, t, howner⟩
    · cases hpend
  owner := by
    intro t p c m τ hp hm hτ
    rw [h.reachable_iff] at hp
    refine ⟨h.tenant (h.shape.labelled.child_live hp hm) (owns_iff.mpr (by rw [hτ]; rfl)), ?_⟩
    exact ht.child_le hp hm hτ
  list := by
    intro t hten
    have hmem : ∀ n, n ∈ v.chain t ↔ s.Reachable n ∧ s.Owns t n := by
      intro n
      rw [h.mem_chain, h.reachable_iff, or_iff_left (by simp)]
    refine ⟨v.chain t, ?_, h.nodup_chain t, hmem, ?_, (h.threaded t).tail, ?_⟩
    · rw [← h.chain_head hten, show (fun n => (s.nodes n).tenantToOlderNode t) = s.olderOf t from rfl,
        (h.threaded t).older]
      exact follow_succOf (h.nodup_chain t) (h.length_chain_le t)
    · exact (ht.sorted t).imp (fun hab => hab (by simp) (by simp))
    · rw [h.count hten]
      congr 2
      refine List.map_congr_left (fun n hn => ?_)
      rw [weight, if_pos ((hmem n).mp hn).2]
  inverse := by
    intro t a b
    rw [show (s.nodes b).tenantToNewerNode t = s.newerOf t b from rfl,
      show (s.nodes a).tenantToOlderNode t = s.olderOf t a from rfl, (h.threaded t).newer,
      (h.threaded t).older, predOf_eq_some_iff (h.nodup_chain t)]

/-! ### Runs -/

theorem Timed.addTenants (h : Timed s v none now) (hinv : Inv s v none) {time : T} (hnow : now ≤ time)
    (tenants : List String) :
    ∃ s' v', s.addTenants tenants time = some s' ∧ Inv s' v' none ∧ Timed s' v' none time := by
  induction tenants generalizing s v now with
  | nil => exact ⟨s, v, rfl, hinv, h.mono hnow⟩
  | cons t tenants ih =>
    obtain ⟨s₁, v₁, hadd, hinv₁, h₁⟩ := h.addTenant hinv hnow t
    obtain ⟨s', v', hrest, hinv', h'⟩ := ih h₁ hinv₁ le_rfl
    refine ⟨s', v', ?_, hinv', h'⟩
    rw [PrefixTree.addTenants, List.foldlM_cons, hadd]
    exact hrest

/-- The loop of `remove_tenants` over the tenants. -/
def removeStep {T : Type} (r : PrefixTree T × Dict String ℤ) (tenant : String) :
    Option (PrefixTree T × Dict String ℤ) := do
  let r' ← r.1.removeTenant tenant
  some (r'.1, r.2.set tenant r'.2)

theorem Timed.removeTenants (h : Timed s v none now) (hinv : Inv s v none) (tenants : List String)
    (removed : Dict String ℤ) :
    ∃ s' v' removed', tenants.foldlM removeStep (s, removed) = some (s', removed') ∧
      Inv s' v' none ∧ Timed s' v' none now := by
  induction tenants generalizing s v removed with
  | nil => exact ⟨s, v, removed, rfl, hinv, h⟩
  | cons t tenants ih =>
    obtain ⟨s₁, v₁, k, hremove, hinv₁, h₁⟩ := h.removeTenant hinv t
    obtain ⟨s', v', removed', hrest, hinv', h'⟩ := ih h₁ hinv₁ (removed.set t k)
    refine ⟨s', v', removed', ?_, hinv', h'⟩
    rw [List.foldlM_cons, removeStep, hremove]
    exact hrest

theorem Timed.apply (h : Timed s v none now) (hinv : Inv s v none) (op : Op T)
    (hnow : ∀ τ, op.time? = some τ → now ≤ τ) :
    ∃ s' v', s.apply op = some s' ∧ Inv s' v' none ∧
      Timed s' v' none (op.time?.elim now (fun τ => (τ : WithBot T))) := by
  cases op with
  | addTenants tenants time => exact h.addTenants hinv (hnow time rfl) tenants
  | insert text tenant time => exact h.insert hinv (hnow time rfl) text tenant
  | removeTenants tenants =>
    obtain ⟨s', v', removed, hrun, hinv', h'⟩ := h.removeTenants hinv tenants Dict.empty
    refine ⟨s', v', ?_, hinv', h'⟩
    change (tenants.foldlM removeStep (s, Dict.empty)).map Prod.fst = some s'
    rw [hrun]
    rfl
  | evictTenantByLru tenant k =>
    obtain ⟨s', v', r, hrun, hinv', h'⟩ := h.evict hinv tenant k
    refine ⟨s', v', ?_, hinv', h'⟩
    rw [PrefixTree.apply, hrun]
    rfl

theorem Timed.run (h : Timed s v none now) (hinv : Inv s v none) (ops : List (Op T))
    (hsorted : (ops.filterMap Op.time?).Pairwise (· ≤ ·))
    (hnow : ∀ τ ∈ ops.filterMap Op.time?, now ≤ τ) :
    ∃ s' v' now', ops.foldlM PrefixTree.apply s = some s' ∧ Inv s' v' none ∧
      Timed s' v' none now' := by
  induction ops generalizing s v now with
  | nil => exact ⟨s, v, now, rfl, hinv, h⟩
  | cons op ops ih =>
    obtain ⟨s₁, v₁, happly, hinv₁, h₁⟩ := h.apply hinv op
      (fun τ hτ => hnow τ (List.mem_filterMap.mpr ⟨op, .head _, hτ⟩))
    have hrest : ∃ s' v' now', ops.foldlM PrefixTree.apply s₁ = some s' ∧ Inv s' v' none ∧
        Timed s' v' none now' := by
      refine ih h₁ hinv₁ ?_ ?_
      · rw [List.filterMap_cons] at hsorted
        cases hτ : op.time? with
        | none => rwa [hτ] at hsorted
        | some τ =>
          rw [hτ] at hsorted
          exact (List.pairwise_cons.mp hsorted).2
      · intro τ' hτ'
        rw [List.filterMap_cons] at hsorted hnow
        cases hτ : op.time? with
        | none =>
          rw [hτ] at hnow
          exact hnow τ' hτ'
        | some τ =>
          rw [hτ] at hsorted
          exact WithBot.coe_le_coe.mpr ((List.pairwise_cons.mp hsorted).1 τ' hτ')
    obtain ⟨s', v', now', hrun, hinv', h'⟩ := hrest
    refine ⟨s', v', now', ?_, hinv', h'⟩
    rw [List.foldlM_cons, happly]
    exact hrun

/-- Calls with non-decreasing times succeed and leave a tree whose parts fit together. -/
theorem run_repInv (ops : List (Op T)) (h : (ops.filterMap Op.time?).Pairwise (· ≤ ·)) :
    ∃ s, run ops = some s ∧ RepInv s := by
  obtain ⟨s, v, now, hrun, hinv, htimed⟩ := timed_init.run inv_init ops h (fun _ _ => bot_le)
  exact ⟨s, hrun, hinv.repInv htimed⟩

/-- Two tenants share a branch, one of them evicts a node and the other is removed. -/
theorem run_repInv_example : ∃ s, run
    ([.addTenants ["a", "b"] 0, .insert "hello".toList "a" 1, .insert "help".toList "b" 2,
      .evictTenantByLru "a" 1, .removeTenants ["b"]] : List (Op ℕ)) = some s ∧ RepInv s :=
  run_repInv _ (by decide)

/-! ### Evictions -/

/-- An eviction removes a tenant from enough nodes and from no others.  Of all its nodes but the
root, the tenant has accessed these first. -/
def EvictsOldest (s : PrefixTree T) : Prop :=
  ∀ t minRemoveSize count, s.tenantToCharCount.get? t = some count →
    ∃ s' k, ∃ evicted : List ℕ, s.evictTenantByLru t minRemoveSize = some (s', k) ∧
      min minRemoveSize count ≤ k ∧ s'.tenantToCharCount.get? t = some (count - k) ∧
      evicted.Nodup ∧ (∀ n ∈ evicted, s.Reachable n ∧ s.Owns t n) ∧
      (evicted.map (fun n => ((s.nodes n).text.length : ℤ))).sum = k ∧
      (∀ n u, s'.time? n u = if n ∈ evicted ∧ u = t then none else s.time? n u) ∧
      ∀ a b τa τb, s.Reachable a → a ≠ root → a ∉ evicted → s.time? a t = some τa → b ∈ evicted →
        s.time? b t = some τb → τb < τa

theorem run_evictsOldest (ops : List (Op T)) (h : (ops.filterMap Op.time?).Pairwise (· ≤ ·)) :
    ∃ s, run ops = some s ∧ s.EvictsOldest := by
  obtain ⟨s, v, now, hrun, hinv, htimed⟩ := timed_init.run inv_init ops h (fun _ _ => bot_le)
  refine ⟨s, hrun, fun t k count hcount => ?_⟩
  have ht : s.HasTenant t := Dict.get?_isSome_iff.mp (by rw [hcount]; rfl)
  obtain ⟨s', l, R, hevict, hrem, -, henough, hcut⟩ := evictTenantByLru_spec hinv ht hcount k
  have hmem : ∀ {n}, n ∈ l ++ R ↔ s.Reachable n ∧ s.Owns t n := by
    intro n
    rw [← hrem.chain, hinv.mem_chain, hinv.reachable_iff, or_iff_left (by simp)]
  have howned : ∀ n ∈ R, s.Reachable n ∧ s.Owns t n := fun n hn => hmem.mp (List.mem_append_right l hn)
  have hnodup := hinv.nodup_chain t
  rw [hrem.chain] at hnodup
  refine ⟨s', _, R, hevict, henough, ?_, hnodup.of_append_right, howned, ?_, hrem.pruned.time?, ?_⟩
  · rw [hrem.pruned.count, hcount]
    rfl
  · exact congrArg List.sum (List.map_congr_left (fun n hn => (if_pos (howned n hn).2).symm))
  · intro a b τa τb ha hroot haR hτa hbR hτb
    have hal := (List.mem_append.mp (hmem.mpr ⟨ha, owns_iff.mpr (by rw [hτa]; rfl)⟩)).resolve_right haR
    exact lt_of_cut htimed hinv hrem.chain hcut hal hroot hbR hτa hτb

/-- Two texts that share a branch, and one that is inserted again. -/
theorem run_evictsOldest_example : ∃ s, run ([.addTenants ["a"] 0, .insert "hello".toList "a" 1,
    .insert "help".toList "a" 2, .insert "hello".toList "a" 3] : List (Op ℕ)) = some s ∧
      s.EvictsOldest :=
  run_evictsOldest _ (by decide)

end RayTfm.Serve.PrefixTree
