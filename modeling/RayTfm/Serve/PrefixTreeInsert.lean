import RayTfm.Serve.PrefixTreeInvariant

/-! # Inserting into the prefix tree

One round of `insert` visits a node, then adds a leaf or splits a node.  `Inv.visit`, `Inv.addLeaf`
and `Inv.split` say that each of them keeps the invariant of the tree: a new node is pending until
the next round visits it. -/

namespace RayTfm.Serve.PrefixTree
open RayTfm.Threads

variable {T : Type} {s s' : PrefixTree T} {t u : String} {n m p : ℕ} {c : Char} {time : T}
  {v : View} {pend : Option (String × ℕ)} {l l₁ l₂ : List ℕ}

theorem Threaded.congr (h : Threaded s t l) (holder : s'.olderOf t = s.olderOf t)
    (hnewer : s'.newerOf t = s.newerOf t) (htail : s'.tenantToLruTail t = s.tenantToLruTail t) :
    Threaded s' t l :=
  ⟨h.nodup, holder.trans h.older, hnewer.trans h.newer, htail.trans h.tail⟩

/-! ### Visiting a node -/

/-- The first half of `visit`: the count and the time of access. -/
def touch (s : PrefixTree T) (t : String) (time : T) (n : ℕ) : PrefixTree T :=
  let s :=
    if t ∉ (s.nodes n).tenantToLastAccessTime.keys then
      let count := (s.tenantToCharCount.get? t).getD 0
      { s with tenantToCharCount := s.tenantToCharCount.set t (count + (s.nodes n).text.length) }
    else s
  s.modify n (fun x => { x with tenantToLastAccessTime := x.tenantToLastAccessTime.set t time })

theorem visit_eq (s : PrefixTree T) (t : String) (time : T) (n : ℕ) :
    s.visit t time n =
      if n ≠ root then
        let s := (s.touch t time n).removeNodeFromLinkedList n t
        s.insertNodeIntoLinkedList n (some root) ((s.nodes root).tenantToOlderNode t) t
      else s.touch t time n := rfl

theorem nodes_touch (s : PrefixTree T) (t : String) (time : T) (n : ℕ) :
    (s.touch t time n).nodes = Function.update s.nodes n
      { s.nodes n with
        tenantToLastAccessTime := (s.nodes n).tenantToLastAccessTime.set t time } := by
  unfold touch
  split_ifs <;> rfl

theorem nodes_touch_ne (h : m ≠ n) : (s.touch t time n).nodes m = s.nodes m := by
  rw [nodes_touch, Function.update_of_ne h]

theorem nodes_touch_self : (s.touch t time n).nodes n =
    { s.nodes n with
      tenantToLastAccessTime := (s.nodes n).tenantToLastAccessTime.set t time } := by
  rw [nodes_touch, Function.update_self]

theorem numNodes_touch : (s.touch t time n).numNodes = s.numNodes := by
  unfold touch
  split_ifs <;> rfl

theorem tenantToLruTail_touch : (s.touch t time n).tenantToLruTail = s.tenantToLruTail := by
  unfold touch
  split_ifs <;> rfl

theorem touch_keeps (m : ℕ) :
    ((s.touch t time n).nodes m).text = (s.nodes m).text ∧
    ((s.touch t time n).nodes m).parent = (s.nodes m).parent ∧
    ((s.touch t time n).nodes m).edgeLabelToChild = (s.nodes m).edgeLabelToChild ∧
    ((s.touch t time n).nodes m).tenantToOlderNode = (s.nodes m).tenantToOlderNode ∧
    ((s.touch t time n).nodes m).tenantToNewerNode = (s.nodes m).tenantToNewerNode := by
  by_cases hm : m = n
  · rw [hm, nodes_touch_self]
    exact ⟨rfl, rfl, rfl, rfl, rfl⟩
  · rw [nodes_touch_ne hm]
    exact ⟨rfl, rfl, rfl, rfl, rfl⟩

theorem child?_touch : (s.touch t time n).child? = s.child? := by
  funext p c
  unfold child?
  rw [(touch_keeps p).2.2.1]

theorem time?_touch : (s.touch t time n).time? m u =
    if m = n ∧ u = t then some time else s.time? m u := by
  unfold time?
  by_cases hm : m = n
  · subst hm
    rw [nodes_touch_self, Dict.get?_set]
    simp only [true_and]
  · rw [nodes_touch_ne hm, if_neg (fun h => hm h.1)]

theorem owns_touch : (s.touch t time n).Owns u m ↔ s.Owns u m ∨ (m = n ∧ u = t) := by
  rw [owns_iff, owns_iff, time?_touch]
  split_ifs with h
  · simp [h]
  · simp [h]

theorem get?_count_touch {k : ℤ} (ht : s.tenantToCharCount.get? t = some k) :
    (s.touch t time n).tenantToCharCount.get? t =
      some (k + ((s.nodes n).text.length - s.weight t n)) := by
  unfold weight
  by_cases ho : s.Owns t n
  · have ho' : t ∈ (s.nodes n).tenantToLastAccessTime.keys := ho
    rw [if_pos ho, sub_self, add_zero, touch, if_neg (not_not.mpr ho')]
    exact ht
  · have ho' : t ∉ (s.nodes n).tenantToLastAccessTime.keys := ho
    rw [if_neg ho, sub_zero, touch, if_pos ho']
    simp only [ht, Option.getD_some]
    exact Dict.get?_set_self ..

theorem get?_count_touch_ne (hu : u ≠ t) :
    (s.touch t time n).tenantToCharCount.get? u = s.tenantToCharCount.get? u := by
  unfold touch
  split_ifs
  · rfl
  · exact Dict.get?_set_ne _ _ hu

theorem hasTenant_touch (ht : s.HasTenant t) : (s.touch t time n).HasTenant u ↔ s.HasTenant u := by
  unfold HasTenant
  by_cases hu : u = t
  · subst hu
    obtain ⟨k, hk⟩ := Option.isSome_iff_exists.mp (Dict.get?_isSome_iff.mpr ht)
    rw [← Dict.get?_isSome_iff, get?_count_touch hk]
    exact ⟨fun _ => ht, fun _ => rfl⟩
  · rw [← Dict.get?_isSome_iff, ← Dict.get?_isSome_iff, get?_count_touch_ne hu]

theorem Threaded.touch (h : Threaded s u l) : Threaded (s.touch t time n) u l := by
  refine h.congr ?_ ?_ (by rw [tenantToLruTail_touch])
  · funext m
    unfold olderOf
    rw [(touch_keeps m).2.2.2.1]
  · funext m
    unfold newerOf
    rw [(touch_keeps m).2.2.2.2]

theorem SameTree.visit (s : PrefixTree T) (t : String) (time : T) (n : ℕ) :
    SameTree (s.touch t time n) (s.visit t time n) := by
  rw [visit_eq]
  by_cases hn : n = root
  · rw [if_neg (not_not.mpr hn)]
    exact .refl _
  · rw [if_pos hn]
    exact (SameTree.removeNode _ n t).trans (.insertNode _ n _ _ t)

theorem time?_visit : (s.visit t time n).time? m u =
    if m = n ∧ u = t then some time else s.time? m u := by
  rw [(SameTree.visit s t time n).time?, time?_touch]

theorem child?_visit : (s.visit t time n).child? = s.child? :=
  (SameTree.visit s t time n).child?.trans child?_touch

theorem Threaded.visit_of_ne (h : Threaded s u l) (hu : u ≠ t) : Threaded (s.visit t time n) u l := by
  rw [visit_eq]
  by_cases hn : n = root
  · rw [if_neg (not_not.mpr hn)]
    exact h.touch
  · rw [if_pos hn]
    exact (h.touch.removeNode_of_ne hu n).insertNode_of_ne hu n _ _

theorem Threaded.visit (h : Threaded s t (root :: l)) (ht : s.HasTenant t) :
    Threaded (s.visit t time n) t (moveToSecond n (root :: l)) := by
  rw [visit_eq, moveToSecond]
  by_cases hn : n = root
  · rw [if_neg (not_not.mpr hn), if_pos hn]
    exact h.touch
  · rw [if_pos hn, if_neg hn]
    have ht' : (s.touch t time n).HasTenant t := (hasTenant_touch ht).mpr ht
    have hremoved : Threaded ((s.touch t time n).removeNodeFromLinkedList n t) t
        (root :: l.erase n) := by
      by_cases hmem : n ∈ l
      · obtain ⟨l₁, l₂, hnot, rfl, herase⟩ := List.exists_erase_eq hmem
        rw [herase, ← List.cons_append]
        have htouch : Threaded (s.touch t time n) t ((root :: l₁) ++ n :: l₂) := h.touch
        exact htouch.removeNode ht' hn
      · rw [List.erase_of_not_mem hmem]
        exact h.touch.removeNode_of_notMem ht' (by simp [hn, hmem])
    have hsame := SameTree.removeNode (s.touch t time n) n t
    have hnotMem : n ∉ root :: l.erase n := by
      rw [List.mem_cons, not_or]
      exact ⟨hn, fun hmem => (List.nodup_cons.mp h.nodup).2.not_mem_erase hmem⟩
    have hsplit : Threaded ((s.touch t time n).removeNodeFromLinkedList n t) t
        ([root] ++ l.erase n) := hremoved
    have hlink := hsplit.insertNode (hsame.hasTenant.mpr ht') hn hnotMem
    have holder : ((((s.touch t time n).removeNodeFromLinkedList n t).nodes root).tenantToOlderNode t)
        = (l.erase n).head? := by
      change PrefixTree.olderOf _ t root = _
      rw [hremoved.older, succOf, if_pos rfl]
    simp only [holder]
    exact hlink

/-- The view after a visit. -/
def View.visit (v : View) (t : String) (n : ℕ) : View :=
  { v with chain := Function.update v.chain t (moveToSecond n (v.chain t)) }

theorem weight_touch : (s.touch t time n).weight u m =
    if m = n ∧ u = t then ((s.nodes n).text.length : ℤ) else s.weight u m := by
  unfold weight
  rw [(touch_keeps m).1]
  by_cases h : m = n ∧ u = t
  · rw [if_pos h, if_pos (owns_touch.mpr (.inr h)), h.1]
  · rw [if_neg h]
    exact if_congr (owns_touch.trans (or_iff_left h)) rfl rfl

theorem Shape.touch {live : ℕ → Prop} {label : ℕ → Text} (h : Shape s live label) :
    Shape (s.touch t time n) live label := by
  refine ⟨?_, fun hm => numNodes_touch.symm ▸ h.lt_numNodes hm, ?_,
    (touch_keeps root).2.1.trans h.parent_root, (touch_keeps root).1.trans h.text_root⟩
  · rw [child?_touch, show (fun m => ((s.touch t time n).nodes m).text) = fun m => (s.nodes m).text
      from funext (fun m => (touch_keeps m).1)]
    exact h.labelled
  · intro p c m hp hm
    rw [child?_touch] at hm
    rw [(touch_keeps m).2.1, h.parent hp hm]

theorem sum_weight_touch (hl : l.Nodup) (hne : l ≠ []) (hown : n ∉ l → ¬ s.Owns t n) :
    ((moveToSecond n l).map ((s.touch t time n).weight t)).sum =
      (l.map (s.weight t)).sum + ((s.nodes n).text.length - s.weight t n) := by
  have hn : (s.touch t time n).weight t n = (s.nodes n).text.length := by
    rw [weight_touch, if_pos ⟨rfl, rfl⟩]
  have hrest : ∀ m ∈ l, m ≠ n → (s.touch t time n).weight t m = s.weight t m := by
    intro m _ hm
    rw [weight_touch, if_neg (fun h => hm h.1)]
  by_cases hmem : n ∈ l
  · rw [((perm_moveToSecond_of_mem hmem).map _).sum_eq, sum_map_change hl hmem hrest, hn]
  · rw [((perm_moveToSecond_of_notMem hmem hne).map _).sum_eq, List.map_cons, List.sum_cons, hn,
      List.map_congr_left (fun m hm => hrest m hm (fun heq => hmem (heq ▸ hm))), weight,
      if_neg (hown hmem), sub_zero, add_comm]

theorem Inv.visit (h : Inv s v pend) (ht : s.HasTenant t) (hn : v.live n)
    (hpend : ∀ {u m}, pend = some (u, m) → u = t ∧ m = n)
    (hparent : ∀ p c, v.live p → s.child? p c = some n → s.Owns t p) :
    Inv (s.visit t time n) (v.visit t n) none := by
  have hsame := SameTree.visit s t time n
  have howns : ∀ {u m}, (s.visit t time n).Owns u m ↔ s.Owns u m ∨ (m = n ∧ u = t) :=
    hsame.owns.trans owns_touch
  have hhas : ∀ {u}, (s.visit t time n).HasTenant u ↔ s.HasTenant u :=
    hsame.hasTenant.trans (hasTenant_touch ht)
  have hchild : (s.visit t time n).child? = s.child? := hsame.child?.trans child?_touch
  obtain ⟨l, hl⟩ : ∃ l, v.chain t = root :: l := by
    obtain ⟨l, hl⟩ := List.head?_eq_some_iff.mp (h.chain_head ht)
    exact ⟨l, hl⟩
  have hchain : (v.visit t n).chain t = moveToSecond n (root :: l) := by
    rw [View.visit, hl]
    exact Function.update_self ..
  have hchain_ne : ∀ {u}, u ≠ t → (v.visit t n).chain u = v.chain u := fun hu =>
    Function.update_of_ne hu ..
  constructor
  case shape => exact hsame.shape h.shape.touch
  case pend_live => exact fun hp => absurd hp (by simp)
  case tenant =>
    intro u m hm ho
    obtain ho | ⟨_, rfl⟩ := howns.mp ho
    · exact hhas.mpr (h.tenant hm ho)
    · exact hhas.mpr ht
  case chain_head =>
    intro u hu
    by_cases hut : u = t
    · rw [hut, hchain, moveToSecond]
      split_ifs <;> rfl
    · rw [hchain_ne hut]
      exact h.chain_head (hhas.mp hu)
  case owns_parent =>
    intro u p c m hp hm ho
    rw [hchild] at hm
    obtain ho | ⟨rfl, rfl⟩ := howns.mp ho
    · exact howns.mpr (.inl (h.owns_parent hp hm ho))
    · exact howns.mpr (.inl (hparent p c hp hm))
  case owned =>
    intro m hm hroot
    left
    obtain ⟨u, hu⟩ | ⟨u, hu⟩ := h.owned hm hroot
    · exact ⟨u, howns.mpr (.inl hu)⟩
    · exact ⟨t, howns.mpr (.inr ⟨(hpend hu).2, rfl⟩)⟩
  case threaded =>
    intro u
    by_cases hut : u = t
    · subst hut
      rw [hchain]
      exact (hl ▸ h.threaded u).visit ht
    · rw [hchain_ne hut]
      exact (h.threaded u).visit_of_ne hut
  case mem_chain =>
    intro u m
    by_cases hut : u = t
    · subst hut
      rw [hchain, mem_moveToSecond (List.cons_ne_nil _ _), ← hl, h.mem_chain, howns]
      constructor
      · rintro (⟨hm, ho | hp⟩ | rfl)
        · exact ⟨hm, .inl (.inl ho)⟩
        · exact ⟨hm, .inl (.inr ⟨(hpend hp).2, rfl⟩)⟩
        · exact ⟨hn, .inl (.inr ⟨rfl, rfl⟩)⟩
      · rintro ⟨hm, (ho | ⟨rfl, _⟩) | hp⟩
        · exact .inl ⟨hm, .inl ho⟩
        · exact .inr rfl
        · cases hp
    · rw [hchain_ne hut, h.mem_chain, howns]
      have hne : ¬ (m = n ∧ u = t) := fun heq => hut heq.2
      have hp : pend ≠ some (u, m) := fun hp => hut (hpend hp).1
      simp [hne, hp, View.visit]
  case count =>
    intro u hu
    rw [hsame.counts, hsame.weight]
    by_cases hut : u = t
    · subst hut
      rw [get?_count_touch (h.count ht), hchain,
        sum_weight_touch (hl ▸ h.nodup_chain u) (List.cons_ne_nil _ _), ← hl]
      intro hmem ho
      exact hmem (hl ▸ h.mem_chain.mpr ⟨hn, .inl ho⟩)
    · rw [get?_count_touch_ne hut, h.count (hhas.mp hu), hchain_ne hut]
      congr 2
      refine List.map_congr_left (fun m _ => ?_)
      rw [weight_touch, if_neg (fun heq => hut heq.2)]

end RayTfm.Serve.PrefixTree
