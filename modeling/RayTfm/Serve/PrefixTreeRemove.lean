import RayTfm.Serve.PrefixTreeInvariant

/-! # Removing from the prefix tree

`remove_tenants` and `evict_tenant_by_lru` take nodes off the end of a tenant's list.  `Pruned` says
what the tree has become after some of them (the nodes `R`): the tenant no longer owns them, and
those without owners are no child any more.  It starts with a node whose children may still be
attached; when all descendants of a removed node are removed as well, the invariant holds again
(`Pruned.inv`). -/

namespace RayTfm.Serve.PrefixTree
open RayTfm.Threads

variable {T : Type} {s s' s₀ : PrefixTree T} {t u : String} {n m p : ℕ} {c : Char} {v : View}
  {l R : List ℕ}

/-- Nobody owns the node. -/
def Empty (s : PrefixTree T) (n : ℕ) : Prop := (s.nodes n).tenantToLastAccessTime.entries = []

theorem empty_iff : s.Empty n ↔ ∀ u, ¬ s.Owns u n := by
  unfold Empty Owns Dict.keys
  constructor
  · intro h u
    rw [h]
    exact List.not_mem_nil
  · intro h
    rw [List.eq_nil_iff_forall_not_mem]
    exact fun e he => h e.1 (List.mem_map_of_mem he)

theorem Owns.not_empty (h : s.Owns u n) : ¬ s.Empty n := fun he => empty_iff.mp he u h

/-! ### Detaching a node -/

theorem detachIfEmpty_keeps (s : PrefixTree T) (n m : ℕ) :
    ((s.detachIfEmpty n).nodes m).text = (s.nodes m).text ∧
    ((s.detachIfEmpty n).nodes m).parent = (s.nodes m).parent ∧
    ((s.detachIfEmpty n).nodes m).tenantToLastAccessTime = (s.nodes m).tenantToLastAccessTime ∧
    ((s.detachIfEmpty n).nodes m).tenantToOlderNode = (s.nodes m).tenantToOlderNode ∧
    ((s.detachIfEmpty n).nodes m).tenantToNewerNode = (s.nodes m).tenantToNewerNode := by
  unfold detachIfEmpty
  split_ifs
  · split
    · rw [nodes_modify]
      split_ifs with h
      · rw [h]
        exact ⟨rfl, rfl, rfl, rfl, rfl⟩
      · exact ⟨rfl, rfl, rfl, rfl, rfl⟩
    · exact ⟨rfl, rfl, rfl, rfl, rfl⟩
  · exact ⟨rfl, rfl, rfl, rfl, rfl⟩

theorem detachIfEmpty_state (s : PrefixTree T) (n : ℕ) :
    (s.detachIfEmpty n).numNodes = s.numNodes ∧
    (s.detachIfEmpty n).tenantToCharCount = s.tenantToCharCount ∧
    (s.detachIfEmpty n).tenantToLruTail = s.tenantToLruTail := by
  unfold detachIfEmpty
  split_ifs
  · split <;> exact ⟨rfl, rfl, rfl⟩
  · exact ⟨rfl, rfl, rfl⟩

theorem child?_detachIfEmpty (s : PrefixTree T) (n p m : ℕ) (c : Char) :
    (s.detachIfEmpty n).child? p c = some m ↔ s.child? p c = some m ∧
      ¬ (s.Empty n ∧ (s.nodes n).parent = some p ∧ (s.nodes n).text.head? = some c) := by
  by_cases hempty : s.Empty n
  · rw [detachIfEmpty, if_pos (show (s.nodes n).tenantToLastAccessTime.entries = [] from hempty)]
    split
    next q d r hparent htext =>
        unfold child?
        rw [nodes_modify, hparent, htext, List.head?_cons, Option.some.injEq, Option.some.injEq]
        by_cases hp : p = q
        · rw [if_pos hp, ← hp]
          simp only [Dict.get?_erase, hempty, true_and]
          by_cases hc : c = d
          · simp [hc]
          · simp [hc, Ne.symm hc]
        · simp [hp, Ne.symm hp]
    next hnot =>
        refine (and_iff_left ?_).symm
        rintro ⟨_, hparent, hhead⟩
        obtain ⟨r, htext⟩ := Radix.exists_cons_of_head? hhead
        exact hnot p c r hparent htext
  · rw [detachIfEmpty, if_neg (show ¬ (s.nodes n).tenantToLastAccessTime.entries = [] from hempty)]
    simp [hempty]

theorem Threaded.detachIfEmpty (h : Threaded s u l) (n : ℕ) : Threaded (s.detachIfEmpty n) u l := by
  refine ⟨h.nodup, ?_, ?_, (congrFun (detachIfEmpty_state s n).2.2 u).trans h.tail⟩
  · rw [← h.older]
    funext m
    exact congrFun (detachIfEmpty_keeps s n m).2.2.2.1 u
  · rw [← h.newer]
    funext m
    exact congrFun (detachIfEmpty_keeps s n m).2.2.2.2 u

/-! ### Removing one node -/

/-- The first half of `_remove_tenant_single_node`: the count and the time of access. -/
def disown (s : PrefixTree T) (t : String) (count : ℤ) (n : ℕ) : PrefixTree T :=
  let s := { s with
    tenantToCharCount := s.tenantToCharCount.set t (count - (s.nodes n).text.length) }
  s.modify n (fun x => { x with tenantToLastAccessTime := x.tenantToLastAccessTime.erase t })

theorem removeTenantSingleNode_eq {count : ℤ} (hcount : s.tenantToCharCount.get? t = some count)
    (ho : s.Owns t n) :
    s.removeTenantSingleNode t n =
      (((s.disown t count n).removeNodeFromLinkedList n t).detachIfEmpty n,
        ((s.nodes n).text.length : ℤ)) := by
  rw [removeTenantSingleNode, hcount]
  exact if_neg (not_not.mpr ho)

theorem disown_keeps (s : PrefixTree T) (t : String) (count : ℤ) (n m : ℕ) :
    ((s.disown t count n).nodes m).text = (s.nodes m).text ∧
    ((s.disown t count n).nodes m).parent = (s.nodes m).parent ∧
    ((s.disown t count n).nodes m).edgeLabelToChild = (s.nodes m).edgeLabelToChild ∧
    ((s.disown t count n).nodes m).tenantToOlderNode = (s.nodes m).tenantToOlderNode ∧
    ((s.disown t count n).nodes m).tenantToNewerNode = (s.nodes m).tenantToNewerNode ∧
    ((s.disown t count n).nodes m).tenantToLastAccessTime =
      (if m = n then (s.nodes n).tenantToLastAccessTime.erase t
        else (s.nodes m).tenantToLastAccessTime) := by
  unfold disown
  rw [nodes_modify]
  split_ifs with h
  · rw [h]
    exact ⟨rfl, rfl, rfl, rfl, rfl, rfl⟩
  · exact ⟨rfl, rfl, rfl, rfl, rfl, rfl⟩

theorem Threaded.disown {count : ℤ} (h : Threaded s u l) : Threaded (s.disown t count n) u l := by
  refine ⟨h.nodup, ?_, ?_, h.tail⟩
  · rw [← h.older]
    funext m
    exact congrFun (disown_keeps s t count n m).2.2.2.1 u
  · rw [← h.newer]
    funext m
    exact congrFun (disown_keeps s t count n m).2.2.2.2.1 u

/-- The tree in which a tenant no longer owns some nodes. -/
structure Pruned (s₀ : PrefixTree T) (v : View) (t : String) (R : List ℕ) (s : PrefixTree T) :
    Prop where
  numNodes : s.numNodes = s₀.numNodes
  text : ∀ n, (s.nodes n).text = (s₀.nodes n).text
  parent : ∀ n, (s.nodes n).parent = (s₀.nodes n).parent
  times : ∀ n, (s.nodes n).tenantToLastAccessTime =
    if n ∈ R then (s₀.nodes n).tenantToLastAccessTime.erase t
    else (s₀.nodes n).tenantToLastAccessTime
  child : ∀ p c m, v.live p →
    (s.child? p c = some m ↔ s₀.child? p c = some m ∧ ¬ (m ∈ R ∧ s.Empty m))
  hasTenant : ∀ u, s.HasTenant u ↔ s₀.HasTenant u
  count : s.tenantToCharCount.get? t =
    (s₀.tenantToCharCount.get? t).map (fun k => k - (R.map (s₀.weight t)).sum)
  count_ne : ∀ u, u ≠ t → s.tenantToCharCount.get? u = s₀.tenantToCharCount.get? u

theorem Pruned.refl (s : PrefixTree T) (v : View) (t : String) : Pruned s v t [] s where
  numNodes := rfl
  text _ := rfl
  parent _ := rfl
  times n := (if_neg List.not_mem_nil).symm
  child p c m _ := by simp
  hasTenant _ := Iff.rfl
  count := by simp
  count_ne _ _ := rfl

theorem Pruned.time? (h : Pruned s₀ v t R s) (n : ℕ) (u : String) :
    s.time? n u = if n ∈ R ∧ u = t then none else s₀.time? n u := by
  unfold PrefixTree.time?
  rw [h.times]
  by_cases hn : n ∈ R
  · rw [if_pos hn, Dict.get?_erase]
    simp only [hn, true_and]
  · rw [if_neg hn, if_neg (fun hand => hn hand.1)]

theorem Pruned.time?_cases (h : Pruned s₀ v t R s) (n : ℕ) (u : String) :
    s.time? n u = none ∨ s.time? n u = s₀.time? n u := by
  rw [h.time?]
  split_ifs
  · exact .inl rfl
  · exact .inr rfl

theorem Pruned.owns (h : Pruned s₀ v t R s) : s.Owns u n ↔ s₀.Owns u n ∧ ¬ (n ∈ R ∧ u = t) := by
  rw [owns_iff, owns_iff, h.time?]
  split_ifs with hn
  · simp [hn]
  · simp [hn]

theorem Shape.child_iff {live : ℕ → Prop} {label : ℕ → Text} (h : Shape s live label) (hp : live p)
    (hn : live n) (hm : s.child? p c = some m) :
    (s.nodes n).parent = some p ∧ (s.nodes n).text.head? = some c ↔ m = n := by
  constructor
  · rintro ⟨hparent, hhead⟩
    obtain rfl | ⟨q, d, hq, hqn⟩ := h.labelled.reached hn
    · rw [h.parent_root] at hparent
      cases hparent
    · rw [h.parent hq hqn, Option.some.injEq] at hparent
      have hd := h.labelled.child_head hq hqn
      rw [hhead, Option.some.injEq] at hd
      rw [hparent, ← hd, hm, Option.some.injEq] at hqn
      exact hqn
  · rintro rfl
    exact ⟨h.parent hp hm, h.labelled.child_head hp hm⟩

theorem Pruned.step (h : Pruned s₀ v t R s) (hinv : Inv s₀ v none) (ht : s₀.HasTenant t)
    (hn : n ∈ v.chain t) (hR : n ∉ R) :
    Pruned s₀ v t (n :: R) (s.removeTenantSingleNode t n).1 ∧
      (s.removeTenantSingleNode t n).2 = s₀.weight t n := by
  have hown₀ : s₀.Owns t n := (hinv.mem_chain.mp hn).2.resolve_right (by simp)
  have hlive := hinv.live_of_mem_chain hn
  have hown : s.Owns t n := h.owns.mpr ⟨hown₀, fun hand => hR hand.1⟩
  have hcount₀ := hinv.count ht
  have hcount := h.count
  rw [hcount₀, Option.map_some] at hcount
  rw [removeTenantSingleNode_eq hcount hown]
  generalize ((v.chain t).map (s₀.weight t)).sum - (R.map (s₀.weight t)).sum = k at hcount
  have hsame := SameTree.removeNode (s.disown t k n) n t
  have hkeeps := detachIfEmpty_keeps ((s.disown t k n).removeNodeFromLinkedList n t) n
  obtain ⟨hnum, hcounts, _⟩ := detachIfEmpty_state ((s.disown t k n).removeNodeFromLinkedList n t) n
  have htimes : ∀ m, ((((s.disown t k n).removeNodeFromLinkedList n t).detachIfEmpty n).nodes
      m).tenantToLastAccessTime = if m = n then (s.nodes n).tenantToLastAccessTime.erase t
        else (s.nodes m).tenantToLastAccessTime := by
    intro m
    rw [(hkeeps m).2.2.1, hsame.times, (disown_keeps s t k n m).2.2.2.2.2]
  have hweight : ((s.nodes n).text.length : ℤ) = s₀.weight t n := by
    rw [weight, if_pos hown₀, h.text]
  refine ⟨⟨?_, ?_, ?_, ?_, ?_, ?_, ?_, ?_⟩, hweight⟩
  · rw [hnum, hsame.numNodes, ← h.numNodes]
    rfl
  · intro m
    rw [(hkeeps m).1, hsame.text, (disown_keeps s t k n m).1, h.text]
  · intro m
    rw [(hkeeps m).2.1, hsame.parent, (disown_keeps s t k n m).2.1, h.parent]
  · intro m
    rw [htimes m, h.times, h.times]
    by_cases hm : m = n
    · rw [if_pos hm, if_neg hR, hm, if_pos List.mem_cons_self]
    · rw [if_neg hm]
      exact if_congr (by simp [hm]) rfl rfl
  · intro p c m hp
    rw [child?_detachIfEmpty, hsame.child?]
    have hchild : (s.disown t k n).child? p c = s.child? p c := by
      unfold child?
      rw [(disown_keeps s t k n p).2.2.1]
    rw [hchild, h.child p c m hp, hsame.parent, hsame.text, (disown_keeps s t k n n).1,
      (disown_keeps s t k n n).2.1, h.text, h.parent, and_assoc]
    refine and_congr_right (fun hm => ?_)
    rw [hinv.shape.child_iff hp hlive hm]
    have hemptyn : ((s.disown t k n).removeNodeFromLinkedList n t).Empty n ↔
        (((s.disown t k n).removeNodeFromLinkedList n t).detachIfEmpty n).Empty n := by
      unfold Empty
      rw [(hkeeps n).2.2.1]
    have hemptym : m ≠ n → (s.Empty m ↔
        (((s.disown t k n).removeNodeFromLinkedList n t).detachIfEmpty n).Empty m) := by
      intro hmn
      unfold Empty
      rw [htimes m, if_neg hmn]
    rw [hemptyn]
    by_cases hmn : m = n
    · rw [hmn]
      simp [hR]
    · rw [← hemptym hmn]
      simp [hmn]
  · intro u
    unfold HasTenant
    rw [hcounts, hsame.counts, show (s.disown t k n).tenantToCharCount =
      s.tenantToCharCount.set t (k - (s.nodes n).text.length) from rfl, Dict.mem_keys_set]
    have hu := h.hasTenant u
    unfold HasTenant at hu
    rw [hu, or_iff_right_iff_imp]
    rintro rfl
    exact ht
  · rw [hcounts, hsame.counts, show (s.disown t k n).tenantToCharCount =
      s.tenantToCharCount.set t (k - (s.nodes n).text.length) from rfl, Dict.get?_set_self]
    have hold := h.count
    rw [hcount, hcount₀, Option.map_some, Option.some.injEq] at hold
    rw [hcount₀, Option.map_some, Option.some.injEq, List.map_cons, List.sum_cons, hweight, hold]
    omega
  · intro u hu
    rw [hcounts, hsame.counts, show (s.disown t k n).tenantToCharCount =
      s.tenantToCharCount.set t (k - (s.nodes n).text.length) from rfl, Dict.get?_set_ne _ _ hu,
      h.count_ne u hu]

/-! ### Removing from the end of a list -/

/-- The nodes `R` at the end of the tenant's list are removed, `l` are left. -/
structure Removing (s₀ : PrefixTree T) (v : View) (t : String) (l R : List ℕ) (s : PrefixTree T) :
    Prop where
  chain : v.chain t = l ++ R
  pruned : Pruned s₀ v t R s
  threaded : Threaded s t l
  threaded_ne : ∀ u, u ≠ t → Threaded s u (v.chain u)

theorem Removing.start (h : Inv s v none) (t : String) : Removing s v t (v.chain t) [] s :=
  ⟨(List.append_nil _).symm, .refl s v t, h.threaded t, fun u _ => h.threaded u⟩

theorem Threaded.removeSingle_of_ne (h : Threaded s u l) (hu : u ≠ t) (n : ℕ) :
    Threaded (s.removeTenantSingleNode t n).1 u l := by
  cases hcount : s.tenantToCharCount.get? t with
  | none =>
    rw [removeTenantSingleNode, hcount]
    exact h
  | some k =>
    by_cases ho : s.Owns t n
    · rw [removeTenantSingleNode_eq hcount ho]
      exact (h.disown.removeNode_of_ne hu n).detachIfEmpty n
    · rw [removeTenantSingleNode, hcount]
      simp only
      rw [if_pos (show t ∉ (s.nodes n).tenantToLastAccessTime.keys from ho)]
      exact h

theorem Removing.step (h : Removing s₀ v t (l ++ [n]) R s) (hinv : Inv s₀ v none)
    (ht : s₀.HasTenant t) :
    Pruned s₀ v t (n :: R) (s.removeTenantSingleNode t n).1 ∧
      (s.removeTenantSingleNode t n).2 = s₀.weight t n ∧
      Threaded (s.removeTenantSingleNode t n).1 t (if n = root then l ++ [n] else l) := by
  have hchain : v.chain t = l ++ n :: R := by
    rw [h.chain, List.append_assoc, List.singleton_append]
  have hnodup := hinv.nodup_chain t
  rw [hchain] at hnodup
  have hmem : n ∈ v.chain t := by
    rw [hchain]
    simp
  obtain ⟨hpruned, hweight⟩ := h.pruned.step hinv ht hmem (notMem_of_nodup_middle hnodup).2
  refine ⟨hpruned, hweight, ?_⟩
  have hown₀ : s₀.Owns t n := (hinv.mem_chain.mp hmem).2.resolve_right (by simp)
  have hown : s.Owns t n :=
    h.pruned.owns.mpr ⟨hown₀, fun hand => (notMem_of_nodup_middle hnodup).2 hand.1⟩
  have hcount := h.pruned.count
  rw [hinv.count ht, Option.map_some] at hcount
  rw [removeTenantSingleNode_eq hcount hown]
  split_ifs with hroot
  · rw [removeNode_of_skip (.inr hroot)]
    exact h.threaded.disown.detachIfEmpty n
  · have hdisown : Threaded (s.disown t (((v.chain t).map (s₀.weight t)).sum -
        (R.map (s₀.weight t)).sum) n) t (l ++ n :: []) := h.threaded.disown
    have hlast := hdisown.removeNode (Dict.mem_keys_set.mpr (.inl rfl)) hroot
    rw [List.append_nil] at hlast
    exact hlast.detachIfEmpty n

theorem Removing.next (h : Removing s₀ v t (l ++ [n]) R s) (hinv : Inv s₀ v none)
    (ht : s₀.HasTenant t) (hroot : n ≠ root) :
    Removing s₀ v t l (n :: R) (s.removeTenantSingleNode t n).1 := by
  obtain ⟨hpruned, _, hthreaded⟩ := h.step hinv ht
  rw [if_neg hroot] at hthreaded
  refine ⟨?_, hpruned, hthreaded, fun u hu => (h.threaded_ne u hu).removeSingle_of_ne hu n⟩
  rw [h.chain, List.append_assoc, List.singleton_append]

theorem Removing.newer (h : Removing s₀ v t (l ++ [n]) R s) :
    (s.nodes n).tenantToNewerNode t = l.getLast? := by
  rw [show (s.nodes n).tenantToNewerNode t = s.newerOf t n from rfl, h.threaded.newer,
    predOf_middle List.not_mem_nil]

theorem Inv.last_ne_root (h : Inv s v none) (ht : s.HasTenant t) (hchain : v.chain t = l ++ n :: R)
    (hl : l ≠ []) : n ≠ root := by
  have hhead := h.chain_head ht
  have hnodup := h.nodup_chain t
  rw [hchain, List.head?_append_of_ne_nil _ hl] at hhead
  rw [hchain] at hnodup
  rintro rfl
  exact (notMem_of_nodup_middle hnodup).1 (List.mem_of_mem_head? hhead)

/-- The loop of `remove_tenants` removes the whole list. -/
theorem removeLoop_spec (hinv : Inv s₀ v none) (ht : s₀.HasTenant t) {rounds : ℕ}
    (hrounds : l.length ≤ rounds) (hl : l ≠ []) (h : Removing s₀ v t l R s) (removed : ℤ) :
    ∃ s', removeLoop t rounds s l.getLast? removed =
        some (s', removed + (l.map (s₀.weight t)).sum) ∧
      Pruned s₀ v t (l ++ R) s' ∧ Threaded s' t [root] ∧
      ∀ u, u ≠ t → Threaded s' u (v.chain u) := by
  induction rounds generalizing l R s removed with
  | zero => exact absurd (List.length_eq_zero_iff.mp (Nat.le_zero.mp hrounds)) hl
  | succ rounds ih =>
    obtain ⟨l, n, rfl⟩ := (List.eq_nil_or_concat' l).resolve_left hl
    have hchain : v.chain t = l ++ n :: R := by
      rw [h.chain, List.append_assoc, List.singleton_append]
    obtain ⟨hpruned, hweight, hthreaded⟩ := h.step hinv ht
    rw [List.getLast?_concat, removeLoop, h.newer, hweight, List.map_append, List.sum_append,
      List.map_singleton, List.sum_singleton, List.append_assoc, List.singleton_append]
    by_cases hnil : l = []
    · -- the root comes last, and its pointers stay
      have hroot : n = root := by
        have hhead := hinv.chain_head ht
        rw [hchain, hnil, List.nil_append, List.head?_cons, Option.some.injEq] at hhead
        exact hhead
      subst hroot
      rw [if_pos rfl, hnil, List.nil_append] at hthreaded
      subst hnil
      refine ⟨_, ?_, hpruned, hthreaded, ?_⟩
      · rw [List.getLast?_nil, removeLoop, List.map_nil, List.sum_nil, zero_add]
      · exact fun u hu => (h.threaded_ne u hu).removeSingle_of_ne hu _
    · have hroot := hinv.last_ne_root ht hchain hnil
      rw [List.length_append, List.length_singleton] at hrounds
      obtain ⟨s', hloop, hrest⟩ := ih (by omega) hnil (h.next hinv ht hroot)
        (removed + s₀.weight t n)
      refine ⟨s', ?_, hrest⟩
      rw [hloop, add_assoc, add_comm (s₀.weight t n)]

/-! ### The tree after a removal -/

/-- The view after some nodes are removed. -/
def View.prune (v : View) (s : PrefixTree T) (t : String) (l R : List ℕ) : View where
  live n := v.live n ∧ (n = root ∨ ¬ (n ∈ R ∧ s.Empty n))
  label := v.label
  chain := Function.update v.chain t l

/-- With a removed node all its descendants of the tenant are removed. -/
def Closed (s₀ : PrefixTree T) (v : View) (t : String) (R : List ℕ) : Prop :=
  ∀ p c m, v.live p → s₀.child? p c = some m → s₀.Owns t m → p ∈ R → m ∈ R

theorem Pruned.owns_parent (h : Pruned s₀ v t R s) (hinv : Inv s₀ v none)
    (hclosed : Closed s₀ v t R) (hp : v.live p) (hm : s₀.child? p c = some m) (ho : s.Owns u m) :
    s.Owns u p := by
  obtain ⟨ho₀, hnot⟩ := h.owns.mp ho
  refine h.owns.mpr ⟨hinv.owns_parent hp hm ho₀, ?_⟩
  rintro ⟨hpR, rfl⟩
  exact hnot ⟨hclosed p c m hp hm ho₀ hpR, rfl⟩

theorem Pruned.exists_owner (h : Pruned s₀ v t R s) (hinv : Inv s₀ v none) (hn : v.live n)
    (hroot : n ≠ root) (hleft : ¬ (n ∈ R ∧ s.Empty n)) : ∃ u, s.Owns u n := by
  by_cases hR : n ∈ R
  · have hnot : ¬ s.Empty n := fun he => hleft ⟨hR, he⟩
    rw [empty_iff] at hnot
    push Not at hnot
    exact hnot
  · obtain ⟨u, hu⟩ | ⟨u, hu⟩ := hinv.owned hn hroot
    · exact ⟨u, h.owns.mpr ⟨hu, fun hand => hR hand.1⟩⟩
    · cases hu

theorem Pruned.shape (h : Pruned s₀ v t R s) (hinv : Inv s₀ v none) (hclosed : Closed s₀ v t R) :
    Shape s (v.prune s t l R).live v.label := by
  have hlabelled := hinv.shape.labelled
  have hchild : ∀ p c m, v.live p →
      (s.child? p c = some m ↔ s₀.child? p c = some m ∧ (v.prune s t l R).live m) := by
    intro p c m hp
    rw [h.child p c m hp]
    refine and_congr_right (fun hm => ?_)
    rw [show (v.prune s t l R).live m ↔ v.live m ∧ (m = root ∨ ¬ (m ∈ R ∧ s.Empty m)) from Iff.rfl,
      and_iff_right (hlabelled.child_live hp hm), or_iff_right (hinv.shape.child_ne_root hp hm)]
  constructor
  case labelled =>
    rw [show (fun n => (s.nodes n).text) = fun n => (s₀.nodes n).text from funext h.text]
    refine hlabelled.prune (fun n hn => hn.1) ⟨hinv.root_live, .inl rfl⟩ ?_ hchild
    rintro p c m hp hm ⟨hmlive, hleft⟩
    refine ⟨hp, ?_⟩
    have hmroot := hinv.shape.child_ne_root hp hm
    obtain ⟨u, hu⟩ := h.exists_owner hinv hmlive hmroot (hleft.resolve_left hmroot)
    exact .inr (fun hand => (h.owns_parent hinv hclosed hp hm hu).not_empty hand.2)
  case lt_numNodes => exact fun hn => h.numNodes.symm ▸ hinv.shape.lt_numNodes hn.1
  case parent =>
    intro p c m hp hm
    rw [h.parent, hinv.shape.parent hp.1 ((hchild p c m hp.1).mp hm).1]
  case parent_root => rw [h.parent, hinv.shape.parent_root]
  case text_root => rw [h.text, hinv.shape.text_root]

theorem Pruned.mem_chain_ne (h : Pruned s₀ v t R s) (hinv : Inv s₀ v none) (hu : u ≠ t) :
    n ∈ v.chain u ↔ (v.prune s t l R).live n ∧ s.Owns u n := by
  rw [hinv.mem_chain, h.owns]
  simp only [reduceCtorEq, or_false, hu, and_false, not_false_eq_true, and_true]
  constructor
  · rintro ⟨hn, ho⟩
    refine ⟨⟨hn, .inr (fun hand => ?_)⟩, ho⟩
    exact (h.owns.mpr ⟨ho, fun heq => hu heq.2⟩).not_empty hand.2
  · rintro ⟨⟨hn, _⟩, ho⟩
    exact ⟨hn, ho⟩

theorem Pruned.mem_rest (h : Pruned s₀ v t R s) (hinv : Inv s₀ v none)
    (hchain : v.chain t = l ++ R) : n ∈ l ↔ (v.prune s t l R).live n ∧ s.Owns t n := by
  have hmem := hinv.mem_chain (t := t) (n := n)
  have hnodup := hinv.nodup_chain t
  rw [hchain] at hmem hnodup
  rw [h.owns]
  simp only [reduceCtorEq, or_false, List.mem_append, and_true] at hmem ⊢
  constructor
  · intro hn
    have hR : n ∉ R := fun hR => (List.nodup_append.mp hnodup).2.2 n hn n hR rfl
    obtain ⟨hlive, ho⟩ := hmem.mp (.inl hn)
    exact ⟨⟨hlive, .inr (fun hand => hR hand.1)⟩, ho, hR⟩
  · rintro ⟨⟨hlive, _⟩, ho, hR⟩
    exact (hmem.mpr ⟨hlive, ho⟩).resolve_right hR

theorem Pruned.weight (h : Pruned s₀ v t R s) (hn : ¬ (n ∈ R ∧ u = t)) :
    s.weight u n = s₀.weight u n := by
  unfold PrefixTree.weight
  rw [h.text]
  exact if_congr (h.owns.trans (and_iff_left hn)) rfl rfl

theorem Removing.inv (h : Removing s₀ v t l R s) (hinv : Inv s₀ v none) (hl : l ≠ [])
    (hclosed : Closed s₀ v t R) : Inv s (v.prune s t l R) none := by
  have hpruned := h.pruned
  have hchain : (v.prune s t l R).chain t = l := Function.update_self ..
  have hchain_ne : ∀ {u}, u ≠ t → (v.prune s t l R).chain u = v.chain u := fun hut =>
    Function.update_of_ne hut ..
  constructor
  case shape => exact hpruned.shape hinv hclosed
  case pend_live => exact fun hp => absurd hp (by simp)
  case tenant =>
    intro u n hn ho
    exact (hpruned.hasTenant u).mpr (hinv.tenant hn.1 (hpruned.owns.mp ho).1)
  case chain_head =>
    intro u hu
    have hhead := hinv.chain_head ((hpruned.hasTenant u).mp hu)
    by_cases hut : u = t
    · rw [hut, h.chain, List.head?_append_of_ne_nil _ hl] at hhead
      rw [hut, hchain, hhead]
    · rw [hchain_ne hut, hhead]
  case owns_parent =>
    intro u p c m hp hm ho
    exact hpruned.owns_parent hinv hclosed hp.1 ((hpruned.child p c m hp.1).mp hm).1 ho
  case owned =>
    intro n hn hroot
    exact .inl (hpruned.exists_owner hinv hn.1 hroot (hn.2.resolve_left hroot))
  case threaded =>
    intro u
    by_cases hut : u = t
    · rw [hut, hchain]
      exact h.threaded
    · rw [hchain_ne hut]
      exact h.threaded_ne u hut
  case mem_chain =>
    intro u n
    rw [or_iff_left (by simp)]
    by_cases hut : u = t
    · subst hut
      rw [hchain]
      exact hpruned.mem_rest hinv h.chain
    · rw [hchain_ne hut]
      exact hpruned.mem_chain_ne hinv hut
  case count =>
    intro u hu
    have hcount := hinv.count ((hpruned.hasTenant u).mp hu)
    by_cases hut : u = t
    · subst hut
      have hnodup := hinv.nodup_chain u
      rw [h.chain] at hnodup
      rw [hchain, hpruned.count, hcount, Option.map_some, h.chain, List.map_append, List.sum_append,
        add_sub_cancel_right]
      congr 2
      refine List.map_congr_left (fun n hn => (hpruned.weight ?_).symm)
      exact fun hand => (List.nodup_append.mp hnodup).2.2 n hn n hand.1 rfl
    · rw [hchain_ne hut, hpruned.count_ne u hut, hcount]
      congr 2
      exact List.map_congr_left (fun n _ => (hpruned.weight (fun hand => hut hand.2)).symm)

/-! ### Removing a tenant -/

/-- The last step of `remove_tenants`: the tenant is forgotten. -/
def forget (s : PrefixTree T) (t : String) : PrefixTree T :=
  { s with
    tenantToCharCount := s.tenantToCharCount.erase t
    tenantToLruTail := Function.update s.tenantToLruTail t none }

theorem hasTenant_forget : (s.forget t).HasTenant u ↔ u ≠ t ∧ s.HasTenant u := by
  unfold HasTenant
  rw [← Dict.get?_isSome_iff, ← Dict.get?_isSome_iff,
    show (s.forget t).tenantToCharCount = s.tenantToCharCount.erase t from rfl, Dict.get?_erase]
  split_ifs with h
  · simp [h]
  · simp [h]

theorem Threaded.forget (h : Threaded s t [root]) : Threaded (s.forget t) t [] := by
  refine ⟨List.nodup_nil, ?_, ?_, Function.update_self ..⟩
  · rw [show (s.forget t).olderOf t = s.olderOf t from rfl, h.older]
    exact funext (succOf_singleton root)
  · rw [show (s.forget t).newerOf t = s.newerOf t from rfl, h.newer]
    exact funext (fun n => succOf_singleton root n)

theorem Threaded.forget_of_ne (h : Threaded s u l) (hu : u ≠ t) : Threaded (s.forget t) u l :=
  ⟨h.nodup, h.older, h.newer, (Function.update_of_ne hu ..).trans h.tail⟩

theorem Inv.removeTenant (h : Inv s v none) (ht : s.HasTenant t) :
    ∃ s', s.removeTenant t = some (s', ((v.chain t).map (s.weight t)).sum) ∧
      Inv s' (v.prune s' t [] (v.chain t)) none ∧
      (∀ u, s'.HasTenant u ↔ u ≠ t ∧ s.HasTenant u) ∧
      (∀ n u, s'.time? n u = none ∨ s'.time? n u = s.time? n u) ∧
      (∀ n u, u ≠ t → s'.time? n u = s.time? n u) ∧
      (∀ p c m, v.live p → s'.child? p c = some m → s.child? p c = some m) := by
  have hne : v.chain t ≠ [] := List.ne_nil_of_mem (h.root_mem_chain ht)
  obtain ⟨s₁, hloop, hpruned, hroot, hrest⟩ :=
    removeLoop_spec h ht (h.length_chain_le t) hne (.start h t) 0
  rw [List.append_nil] at hpruned
  rw [← (h.threaded t).tail, zero_add] at hloop
  have hclosed : Closed s v t (v.chain t) := by
    intro p c m hp hm ho _
    exact h.mem_chain.mpr ⟨h.shape.labelled.child_live hp hm, .inl ho⟩
  have hnot : ∀ {n}, v.live n → ¬ s₁.Owns t n := by
    intro n hn ho
    obtain ⟨ho₀, hR⟩ := hpruned.owns.mp ho
    exact hR ⟨h.mem_chain.mpr ⟨hn, .inl ho₀⟩, rfl⟩
  have hchain_ne : ∀ {u}, u ≠ t → (v.prune s₁ t [] (v.chain t)).chain u = v.chain u := fun hut =>
    Function.update_of_ne hut ..
  have hchain : (v.prune s₁ t [] (v.chain t)).chain t = [] := Function.update_self ..
  have hweight : ∀ {u}, u ≠ t → ∀ n, s₁.weight u n = s.weight u n := fun hut n =>
    hpruned.weight (fun hand => hut hand.2)
  refine ⟨s₁.forget t, ?_, ?_, ?_, hpruned.time?_cases, ?_, ?_⟩
  · rw [PrefixTree.removeTenant, if_neg (not_not.mpr ht), hloop]
    rfl
  · change Inv (s₁.forget t) (v.prune s₁ t [] (v.chain t)) none
    constructor
    case shape =>
      have hshape := hpruned.shape (l := []) h hclosed
      exact ⟨hshape.labelled, hshape.lt_numNodes, hshape.parent, hshape.parent_root,
        hshape.text_root⟩
    case pend_live => exact fun hp => absurd hp (by simp)
    case tenant =>
      intro u n hn ho
      refine hasTenant_forget.mpr ⟨?_, (hpruned.hasTenant u).mpr ?_⟩
      · rintro rfl
        exact hnot hn.1 ho
      · exact h.tenant hn.1 (hpruned.owns.mp ho).1
    case chain_head =>
      intro u hu
      obtain ⟨hut, hu⟩ := hasTenant_forget.mp hu
      rw [hchain_ne hut, h.chain_head ((hpruned.hasTenant u).mp hu)]
    case owns_parent =>
      intro u p c m hp hm ho
      exact hpruned.owns_parent h hclosed hp.1 ((hpruned.child p c m hp.1).mp hm).1 ho
    case owned =>
      intro n hn hroot
      exact .inl (hpruned.exists_owner h hn.1 hroot (hn.2.resolve_left hroot))
    case threaded =>
      intro u
      by_cases hut : u = t
      · rw [hut, hchain]
        exact hroot.forget
      · rw [hchain_ne hut]
        exact (hrest u hut).forget_of_ne hut
    case mem_chain =>
      intro u n
      rw [or_iff_left (by simp)]
      by_cases hut : u = t
      · rw [hut, hchain]
        exact iff_of_false List.not_mem_nil (fun hand => hnot hand.1.1 hand.2)
      · rw [hchain_ne hut]
        exact hpruned.mem_chain_ne h hut
    case count =>
      intro u hu
      obtain ⟨hut, hu⟩ := hasTenant_forget.mp hu
      rw [hchain_ne hut, show (s₁.forget t).weight = s₁.weight from rfl,
        List.map_congr_left (fun n _ => hweight hut n), ← h.count ((hpruned.hasTenant u).mp hu),
        ← hpruned.count_ne u hut,
        show (s₁.forget t).tenantToCharCount = s₁.tenantToCharCount.erase t from rfl,
        Dict.get?_erase, if_neg hut]
  · intro u
    rw [hasTenant_forget, hpruned.hasTenant]
  · intro n u hut
    rw [show (s₁.forget t).time? n u = s₁.time? n u from rfl, hpruned.time?,
      if_neg (fun hand => hut hand.2)]
  · intro p c m hp hm
    exact ((hpruned.child p c m hp).mp hm).1

end RayTfm.Serve.PrefixTree
