import RayTfm.Serve.PrefixTreeInsert

/-! # New nodes of the prefix tree

A new leaf and the node that splits an edge go to the end of the tenant's list, and a node that
splits an edge is linked before the lower part for every other tenant that owns it. -/

namespace RayTfm.Serve.PrefixTree
open RayTfm.Threads

variable {T : Type} {s s' : PrefixTree T} {t u : String} {n m p k : ℕ} {c d : Char} {time : T}
  {v : View} {l l₁ l₂ : List ℕ} {w : Text} {x : Node T}

theorem nodes_newNode_self : (s.newNode x).nodes s.numNodes = x := Function.update_self ..

theorem nodes_newNode_ne (h : n ≠ s.numNodes) : (s.newNode x).nodes n = s.nodes n :=
  Function.update_of_ne h ..

theorem setChild_keeps (s : PrefixTree T) (p : ℕ) (c : Char) (m n : ℕ) :
    ((s.setChild p c m).nodes n).text = (s.nodes n).text ∧
    ((s.setChild p c m).nodes n).parent = (s.nodes n).parent ∧
    ((s.setChild p c m).nodes n).tenantToLastAccessTime = (s.nodes n).tenantToLastAccessTime ∧
    ((s.setChild p c m).nodes n).tenantToOlderNode = (s.nodes n).tenantToOlderNode ∧
    ((s.setChild p c m).nodes n).tenantToNewerNode = (s.nodes n).tenantToNewerNode := by
  rw [setChild, nodes_modify]
  split_ifs with h
  · rw [h]
    exact ⟨rfl, rfl, rfl, rfl, rfl⟩
  · exact ⟨rfl, rfl, rfl, rfl, rfl⟩

theorem child?_setChild (s : PrefixTree T) (p : ℕ) (c : Char) (m n : ℕ) (d : Char) :
    (s.setChild p c m).child? n d = if n = p ∧ d = c then some m else s.child? n d := by
  unfold child? setChild
  rw [nodes_modify]
  by_cases h : n = p
  · rw [if_pos h, h]
    simp only [Dict.get?_set, true_and]
  · rw [if_neg h, if_neg (fun hand => h hand.1)]

theorem Threaded.setChild (h : Threaded s u l) (p : ℕ) (c : Char) (m : ℕ) :
    Threaded (s.setChild p c m) u l :=
  h.congr (funext (fun n => by rw [olderOf, (setChild_keeps s p c m n).2.2.2.1, olderOf]))
    (funext (fun n => by rw [newerOf, (setChild_keeps s p c m n).2.2.2.2, newerOf])) rfl

theorem Threaded.newNode (h : Threaded s u l) (hn : s.numNodes ∉ l)
    (holder : x.tenantToOlderNode u = none) (hnewer : x.tenantToNewerNode u = none) :
    Threaded (s.newNode x) u l := by
  refine h.congr ?_ ?_ rfl
  · funext n
    by_cases hn' : n = s.numNodes
    · rw [hn', olderOf, nodes_newNode_self, holder, h.older, succOf_of_notMem hn]
    · rw [olderOf, nodes_newNode_ne hn', olderOf]
  · funext n
    by_cases hn' : n = s.numNodes
    · rw [hn', newerOf, nodes_newNode_self, hnewer, h.newer, predOf_of_notMem hn]
    · rw [newerOf, nodes_newNode_ne hn', newerOf]

theorem Threaded.insertLast (h : Threaded s t l) (ht : s.HasTenant t) (hroot : n ≠ root)
    (hn : n ∉ l) :
    Threaded (s.insertNodeIntoLinkedList n (s.tenantToLruTail t) none t) t (l ++ [n]) := by
  have hnil : l ++ [] = l := List.append_nil l
  have hsplit : Threaded s t (l ++ []) := hnil.symm ▸ h
  have hinsert := hsplit.insertNode ht hroot (hnil.symm ▸ hn)
  rw [h.tail]
  exact hinsert

/-! ### A new leaf -/

/-- The new leaf before it is linked. -/
def leafBase (s : PrefixTree T) (p : ℕ) (c : Char) (w : Text) : PrefixTree T :=
  (s.newNode (.init w (some p))).setChild p c s.numNodes

/-- The view after a new leaf. -/
def View.addLeaf (v : View) (t : String) (k p : ℕ) (w : Text) : View where
  live n := v.live n ∨ n = k
  label := Function.update v.label k (v.label p ++ w)
  chain := Function.update v.chain t (v.chain t ++ [k])

theorem leafBase_new :
    ((s.leafBase p c w).nodes s.numNodes).text = w ∧
    ((s.leafBase p c w).nodes s.numNodes).parent = some p ∧
    ((s.leafBase p c w).nodes s.numNodes).tenantToLastAccessTime = Dict.empty := by
  obtain ⟨htext, hparent, htimes, _, _⟩ :=
    setChild_keeps (s.newNode (.init w (some p))) p c s.numNodes s.numNodes
  unfold leafBase
  rw [htext, hparent, htimes, nodes_newNode_self]
  exact ⟨rfl, rfl, rfl⟩

theorem leafBase_old (hn : n ≠ s.numNodes) :
    ((s.leafBase p c w).nodes n).text = (s.nodes n).text ∧
    ((s.leafBase p c w).nodes n).parent = (s.nodes n).parent ∧
    ((s.leafBase p c w).nodes n).tenantToLastAccessTime = (s.nodes n).tenantToLastAccessTime := by
  obtain ⟨htext, hparent, htimes, _, _⟩ :=
    setChild_keeps (s.newNode (.init w (some p))) p c s.numNodes n
  unfold leafBase
  rw [htext, hparent, htimes, nodes_newNode_ne hn]
  exact ⟨rfl, rfl, rfl⟩

theorem child?_leafBase (hp : p ≠ s.numNodes) (n : ℕ) (d : Char) :
    (s.leafBase p c w).child? n d =
      if n = p ∧ d = c then some s.numNodes
      else if n = s.numNodes then none else s.child? n d := by
  unfold leafBase
  rw [child?_setChild]
  by_cases hn : n = s.numNodes
  · rw [if_neg (fun h => hp (h.1.symm.trans hn)), if_neg (fun h => hp (h.1.symm.trans hn)),
      if_pos hn, hn, child?, nodes_newNode_self]
    rfl
  · rw [if_neg hn, child?, nodes_newNode_ne hn, child?]

theorem owns_leafBase : (s.leafBase p c w).Owns u n ↔ n ≠ s.numNodes ∧ s.Owns u n := by
  unfold Owns
  by_cases hn : n = s.numNodes
  · rw [hn, leafBase_new.2.2]
    simp
  · rw [(leafBase_old hn).2.2]
    exact ⟨fun h => ⟨hn, h⟩, And.right⟩

theorem time?_leafBase : (s.leafBase p c w).time? n u =
    if n = s.numNodes then none else s.time? n u := by
  unfold PrefixTree.time?
  split_ifs with hn
  · rw [hn, leafBase_new.2.2]
    rfl
  · rw [(leafBase_old hn).2.2]

theorem Threaded.leafBase (h : Threaded s u l) (hn : s.numNodes ∉ l) :
    Threaded (s.leafBase p c w) u l := (h.newNode hn rfl rfl).setChild p c _

theorem Shape.leafBase {live : ℕ → Prop} {label : ℕ → Text} (h : Shape s live label) (hp : live p)
    (hnone : s.child? p c = none) (hw : w.head? = some c) :
    Shape (s.leafBase p c w) (fun n => live n ∨ n = s.numNodes)
      (Function.update label s.numNodes (label p ++ w)) := by
  have hk := h.not_live_numNodes
  have hpk : p ≠ s.numNodes := fun heq => hk (heq ▸ hp)
  have hroot : root ≠ s.numNodes := (h.root_ne hk).symm
  constructor
  case labelled =>
    refine h.labelled.addLeaf hp hk hw hnone ?_ leafBase_new.1 ?_ ?_ ?_
    · intro n hn
      exact (leafBase_old hn).1
    · rw [child?_leafBase hpk, if_pos ⟨rfl, rfl⟩]
    · intro d
      rw [child?_leafBase hpk, if_neg (fun heq => hpk heq.1.symm), if_pos rfl]
    · intro n d hn hne
      rw [child?_leafBase hpk, if_neg hne, if_neg hn]
  case lt_numNodes =>
    rintro n (hn | rfl)
    · exact Nat.lt_succ_of_lt (h.lt_numNodes hn)
    · exact Nat.lt_succ_self _
  case parent =>
    intro q d n hq hn
    rw [child?_leafBase hpk] at hn
    split_ifs at hn with hqp hqk
    · rw [Option.some.injEq] at hn
      rw [← hn, leafBase_new.2.1, hqp.1]
    · have hqlive := hq.resolve_right hqk
      have hlive := h.labelled.child_live hqlive hn
      rw [(leafBase_old (fun heq => hk (heq ▸ hlive))).2.1, h.parent hqlive hn]
  case parent_root => rw [(leafBase_old hroot).2.1, h.parent_root]
  case text_root => rw [(leafBase_old hroot).1, h.text_root]

theorem Inv.addLeaf (h : Inv s v none) (ht : s.HasTenant t) (hp : v.live p)
    (hnone : s.child? p c = none) (hw : w.head? = some c) :
    Inv (s.addLeaf t p c w) (v.addLeaf t s.numNodes p w) (some (t, s.numNodes)) := by
  have hk := h.shape.not_live_numNodes
  have hpk : p ≠ s.numNodes := fun heq => hk (heq ▸ hp)
  have hkchain : ∀ u, s.numNodes ∉ v.chain u := fun u hmem => hk (h.live_of_mem_chain hmem)
  have hold : ∀ {n}, v.live n → n ≠ s.numNodes := fun hn heq => hk (heq ▸ hn)
  have hsame : SameTree (s.leafBase p c w) (s.addLeaf t p c w) := SameTree.insertNode ..
  have howns : ∀ {u n}, (s.addLeaf t p c w).Owns u n ↔ n ≠ s.numNodes ∧ s.Owns u n :=
    hsame.owns.trans owns_leafBase
  have hhas : ∀ {u}, (s.addLeaf t p c w).HasTenant u ↔ s.HasTenant u := hsame.hasTenant
  have hchain_ne : ∀ {u}, u ≠ t → (v.addLeaf t s.numNodes p w).chain u = v.chain u := fun hu =>
    Function.update_of_ne hu ..
  have hchain : (v.addLeaf t s.numNodes p w).chain t = v.chain t ++ [s.numNodes] :=
    Function.update_self ..
  have hweight : ∀ u n, n ≠ s.numNodes → (s.addLeaf t p c w).weight u n = s.weight u n := by
    intro u n hn
    rw [hsame.weight, weight, weight, (leafBase_old hn).1]
    exact if_congr (owns_leafBase.trans (and_iff_right hn)) rfl rfl
  constructor
  case shape => exact hsame.shape (h.shape.leafBase hp hnone hw)
  case pend_live =>
    intro u n hpend
    rw [Option.some.injEq, Prod.mk.injEq] at hpend
    exact ⟨hpend.1 ▸ hhas.mpr ht, .inr hpend.2.symm⟩
  case tenant =>
    intro u n hn ho
    obtain ⟨hne, ho⟩ := howns.mp ho
    exact hhas.mpr (h.tenant (hn.resolve_right hne) ho)
  case chain_head =>
    intro u hu
    by_cases hut : u = t
    · rw [hut, hchain, List.head?_append, h.chain_head ht, Option.some_or]
    · rw [hchain_ne hut, h.chain_head (hhas.mp hu)]
  case owns_parent =>
    intro u q d n hq hn ho
    rw [hsame.child?, child?_leafBase hpk] at hn
    obtain ⟨hne, ho⟩ := howns.mp ho
    split_ifs at hn with hqp hqk
    · rw [Option.some.injEq] at hn
      exact absurd hn.symm hne
    · exact howns.mpr ⟨hqk, h.owns_parent (hq.resolve_right hqk) hn ho⟩
  case owned =>
    rintro n (hn | rfl) hroot
    · obtain ⟨u, hu⟩ | ⟨u, hu⟩ := h.owned hn hroot
      · exact .inl ⟨u, howns.mpr ⟨hold hn, hu⟩⟩
      · cases hu
    · exact .inr ⟨t, rfl⟩
  case threaded =>
    intro u
    by_cases hut : u = t
    · subst hut
      rw [hchain]
      exact ((h.threaded u).leafBase (hkchain u)).insertLast ht (h.shape.root_ne hk) (hkchain u)
    · rw [hchain_ne hut]
      exact ((h.threaded u).leafBase (hkchain u)).insertNode_of_ne hut _ _ _
  case mem_chain =>
    intro u n
    rw [howns]
    by_cases hn : n = s.numNodes
    · subst hn
      by_cases hut : u = t
      · subst hut
        rw [hchain]
        simp [View.addLeaf]
      · rw [hchain_ne hut]
        simp [hkchain u, Ne.symm hut]
    · have hmem : n ∈ (v.addLeaf t s.numNodes p w).chain u ↔ n ∈ v.chain u := by
        by_cases hut : u = t
        · subst hut
          rw [hchain]
          simp [hn]
        · rw [hchain_ne hut]
      rw [hmem, h.mem_chain]
      simp [View.addLeaf, hn, Ne.symm hn]
  case count =>
    intro u hu
    rw [hsame.counts]
    have hcount := h.count (hhas.mp hu)
    have hsum : ((v.chain u).map ((s.addLeaf t p c w).weight u)).sum =
        ((v.chain u).map (s.weight u)).sum := by
      rw [List.map_congr_left (fun n hn => hweight u n (fun heq => hkchain u (heq ▸ hn)))]
    by_cases hut : u = t
    · subst hut
      have hnew : (s.addLeaf u p c w).weight u s.numNodes = 0 := by
        rw [weight, if_neg (fun ho => (howns.mp ho).1 rfl)]
      rw [hchain, List.map_append, List.sum_append, hsum, List.map_singleton, List.sum_singleton,
        hnew, add_zero]
      exact hcount
    · rw [hchain_ne hut, hsum]
      exact hcount

/-! ### A split edge -/

/-- Link the node that splits an edge for one of the owners. -/
def linkOwner (t : String) (k m : ℕ) (s : PrefixTree T) (u : String) : PrefixTree T :=
  if u ≠ t then s.insertNodeIntoLinkedList k ((s.nodes m).tenantToNewerNode u) (some m) u else s

/-- The node that splits an edge, before it is linked. -/
def splitNode (s : PrefixTree T) (p m j : ℕ) : Node T :=
  let node : Node T := .init ((s.nodes m).text.take j) (some p)
  { node with tenantToLastAccessTime := (s.nodes m).tenantToLastAccessTime }

/-- The node that splits an edge is on all lists, but not in the tree. -/
def splitLinks (s : PrefixTree T) (t : String) (p m j : ℕ) : PrefixTree T :=
  let s₁ := s.newNode (s.splitNode p m j)
  let s₂ := s₁.insertNodeIntoLinkedList s.numNodes (s₁.tenantToLruTail t) none t
  (s.nodes m).tenantToLastAccessTime.keys.foldl (linkOwner t s.numNodes m) s₂

/-- The edges around the new node. -/
def splitEdges (s : PrefixTree T) (p : ℕ) (c : Char) (m k : ℕ) (rest : Text) : PrefixTree T :=
  let s := s.modify m (fun x => { x with text := rest, parent := some k })
  let s := match rest with
    | c :: _ => s.setChild k c m
    | [] => s
  s.setChild p c k

theorem split_eq (s : PrefixTree T) (t : String) (p : ℕ) (c : Char) (m j : ℕ) :
    s.split t p c m j =
      ((s.splitLinks t p m j).splitEdges p c m s.numNodes ((s.nodes m).text.drop j), s.numNodes) :=
  rfl

theorem SameTree.linkOwner (t : String) (k m : ℕ) (s : PrefixTree T) (u : String) :
    SameTree s (s.linkOwner t k m u) := by
  unfold PrefixTree.linkOwner
  by_cases hut : u = t
  · rw [if_neg (not_not.mpr hut)]
    exact .refl s
  · rw [if_pos hut]
    exact .insertNode ..

theorem SameTree.linkOwners (t : String) (k m : ℕ) (us : List String) (s : PrefixTree T) :
    SameTree s (us.foldl (PrefixTree.linkOwner t k m) s) := by
  induction us generalizing s with
  | nil => exact .refl s
  | cons u us ih => exact (SameTree.linkOwner t k m s u).trans (ih _)

theorem Threaded.linkOwner (h : Threaded s u l) (hk : k ∉ l) (hm : m ∈ l) (ht : s.HasTenant u)
    (hut : u ≠ t) (hroot : k ≠ root) :
    Threaded (s.linkOwner t k m u) u (insertBefore m k l) := by
  obtain ⟨l₁, l₂, rfl⟩ := List.append_of_mem hm
  obtain ⟨hm₁, hm₂⟩ := notMem_of_nodup_middle h.nodup
  have hnewer : (s.nodes m).tenantToNewerNode u = l₁.getLast? := by
    rw [show (s.nodes m).tenantToNewerNode u = s.newerOf u m from rfl, h.newer, predOf_middle hm₂]
  rw [PrefixTree.linkOwner, if_pos hut, hnewer, insertBefore_middle hm₁]
  have hinsert := h.insertNode ht hroot hk
  exact hinsert

theorem Threaded.linkOwner_of_ne {u' : String} (h : Threaded s u l) (hu : u ≠ u') :
    Threaded (s.linkOwner t k m u') u l := by
  unfold PrefixTree.linkOwner
  by_cases hut : u' = t
  · rw [if_neg (not_not.mpr hut)]
    exact h
  · rw [if_pos hut]
    exact h.insertNode_of_ne hu _ _ _

theorem Threaded.linkOwners_of_notMem {us : List String} (h : Threaded s u l)
    (hu : u ∉ us ∨ u = t) : Threaded (us.foldl (PrefixTree.linkOwner t k m) s) u l := by
  induction us generalizing s with
  | nil => exact h
  | cons u' us ih =>
    rw [List.foldl_cons]
    refine ih ?_ (hu.imp_left (fun hu hmem => hu (.tail _ hmem)))
    by_cases huu : u = u'
    · have hut : u = t := hu.resolve_left (fun hu => hu (huu ▸ (.head _)))
      rw [← huu, PrefixTree.linkOwner, if_neg (not_not.mpr hut)]
      exact h
    · exact h.linkOwner_of_ne huu

theorem Threaded.linkOwners {us : List String} (hus : us.Nodup) (h : Threaded s u l) (hu : u ∈ us)
    (hut : u ≠ t) (hk : k ∉ l) (hm : m ∈ l) (ht : s.HasTenant u) (hroot : k ≠ root) :
    Threaded (us.foldl (PrefixTree.linkOwner t k m) s) u (insertBefore m k l) := by
  induction us generalizing s with
  | nil => cases hu
  | cons u' us ih =>
    rw [List.nodup_cons] at hus
    rw [List.foldl_cons]
    by_cases huu : u = u'
    · rw [← huu]
      exact (h.linkOwner hk hm ht hut hroot).linkOwners_of_notMem (.inl (huu ▸ hus.1))
    · refine ih hus.2 (h.linkOwner_of_ne huu) ((List.mem_cons.mp hu).resolve_left huu) ?_
      exact (SameTree.linkOwner t k m s u').hasTenant.mpr ht

theorem splitLinks_threaded_of_ne {j : ℕ} (h : Threaded s u l) (hut : u ≠ t) (hk : s.numNodes ∉ l)
    (hm : s.Owns u m ↔ m ∈ l) (ht : m ∈ l → s.HasTenant u) (hroot : s.numNodes ≠ root) :
    Threaded (s.splitLinks t p m j) u (insertBefore m s.numNodes l) := by
  have hlast := (h.newNode (x := s.splitNode p m j) hk rfl rfl).insertNode_of_ne hut s.numNodes
    ((s.newNode (s.splitNode p m j)).tenantToLruTail t) none
  by_cases hmem : m ∈ l
  · refine hlast.linkOwners (Dict.keys_nodup _) (hm.mpr hmem) hut hk hmem ?_ hroot
    exact (SameTree.insertNode ..).hasTenant.mpr (ht hmem)
  · rw [insertBefore_of_notMem hmem]
    exact hlast.linkOwners_of_notMem (.inl (fun ho => hmem (hm.mp ho)))

theorem splitLinks_threaded {j : ℕ} (h : Threaded s t l) (ht : s.HasTenant t)
    (hk : s.numNodes ∉ l) (hroot : s.numNodes ≠ root) :
    Threaded (s.splitLinks t p m j) t (l ++ [s.numNodes]) :=
  ((h.newNode (x := s.splitNode p m j) hk rfl rfl).insertLast ht hroot hk).linkOwners_of_notMem
    (.inr rfl)

theorem SameTree.splitLinks (s : PrefixTree T) (t : String) (p m j : ℕ) :
    SameTree (s.newNode (s.splitNode p m j)) (s.splitLinks t p m j) :=
  (SameTree.insertNode ..).trans (.linkOwners ..)

variable {r : Text} {j : ℕ}

/-- What `splitEdges` does to a node, its children apart. -/
theorem nodes_splitEdges (s : PrefixTree T) (p : ℕ) (c : Char) (m k : ℕ) (d : Char) (r : Text)
    (n : ℕ) :
    ((s.splitEdges p c m k (d :: r)).nodes n).text = (if n = m then d :: r else (s.nodes n).text) ∧
    ((s.splitEdges p c m k (d :: r)).nodes n).parent =
      (if n = m then some k else (s.nodes n).parent) ∧
    ((s.splitEdges p c m k (d :: r)).nodes n).tenantToLastAccessTime =
      (s.nodes n).tenantToLastAccessTime ∧
    ((s.splitEdges p c m k (d :: r)).nodes n).tenantToOlderNode = (s.nodes n).tenantToOlderNode ∧
    ((s.splitEdges p c m k (d :: r)).nodes n).tenantToNewerNode = (s.nodes n).tenantToNewerNode := by
  unfold splitEdges
  obtain ⟨htext, hparent, htimes, holder, hnewer⟩ :=
    setChild_keeps (setChild (s.modify m (fun x => { x with text := d :: r, parent := some k }))
      k d m) p c k n
  obtain ⟨htext', hparent', htimes', holder', hnewer'⟩ :=
    setChild_keeps (s.modify m (fun x => { x with text := d :: r, parent := some k })) k d m n
  simp only [htext, hparent, htimes, holder, hnewer, htext', hparent', htimes', holder', hnewer',
    nodes_modify]
  split_ifs with hn
  · rw [hn]
    exact ⟨rfl, rfl, rfl, rfl, rfl⟩
  · exact ⟨rfl, rfl, rfl, rfl, rfl⟩

theorem child?_splitEdges (s : PrefixTree T) (p : ℕ) (c : Char) (m k : ℕ) (d : Char) (r : Text)
    (n : ℕ) (b : Char) :
    (s.splitEdges p c m k (d :: r)).child? n b =
      if n = p ∧ b = c then some k else if n = k ∧ b = d then some m else s.child? n b := by
  unfold splitEdges
  simp only [child?_setChild]
  have hmodify : (s.modify m (fun x => { x with text := d :: r, parent := some k })).child? n b =
      s.child? n b := by
    unfold child?
    rw [nodes_modify]
    split_ifs with hn
    · rw [hn]
    · rfl
  rw [hmodify]

theorem Threaded.splitEdges (h : Threaded s u l) (p : ℕ) (c : Char) (m k : ℕ) (d : Char) (r : Text) :
    Threaded (s.splitEdges p c m k (d :: r)) u l :=
  h.congr (funext (fun n => by rw [olderOf, (nodes_splitEdges s p c m k d r n).2.2.2.1, olderOf]))
    (funext (fun n => by rw [newerOf, (nodes_splitEdges s p c m k d r n).2.2.2.2, newerOf])) rfl

theorem nodes_split (hr : (s.nodes m).text.drop j = d :: r) (hmk : m ≠ s.numNodes) (n : ℕ) :
    ((s.split t p c m j).1.nodes n).text =
      (if n = s.numNodes then (s.nodes m).text.take j
        else if n = m then d :: r else (s.nodes n).text) ∧
    ((s.split t p c m j).1.nodes n).parent =
      (if n = s.numNodes then some p else if n = m then some s.numNodes else (s.nodes n).parent) ∧
    ((s.split t p c m j).1.nodes n).tenantToLastAccessTime =
      (if n = s.numNodes then (s.nodes m).tenantToLastAccessTime
        else (s.nodes n).tenantToLastAccessTime) := by
  have hsame := SameTree.splitLinks s t p m j
  obtain ⟨htext, hparent, htimes, _, _⟩ :=
    nodes_splitEdges (s.splitLinks t p m j) p c m s.numNodes d r n
  rw [split_eq, hr]
  simp only [htext, hparent, htimes]
  rw [hsame.text, hsame.parent, hsame.times]
  by_cases hn : n = s.numNodes
  · rw [hn]
    simp only [if_pos, if_neg hmk.symm, nodes_newNode_self]
    exact ⟨rfl, rfl, rfl⟩
  · simp only [if_neg hn, nodes_newNode_ne hn, true_and]

theorem child?_split (hr : (s.nodes m).text.drop j = d :: r) (n : ℕ) (b : Char) :
    (s.split t p c m j).1.child? n b =
      if n = p ∧ b = c then some s.numNodes
      else if n = s.numNodes then (if b = d then some m else none)
      else s.child? n b := by
  have hsame := SameTree.splitLinks s t p m j
  rw [split_eq, hr]
  simp only [child?_splitEdges, hsame.child?]
  refine if_congr Iff.rfl rfl ?_
  by_cases hn : n = s.numNodes
  · have hnone : (s.newNode (s.splitNode p m j)).child? s.numNodes b = none := by
      rw [child?, nodes_newNode_self]
      rfl
    rw [hn, hnone]
    simp only [true_and, if_true]
  · rw [if_neg (fun h => hn h.1), if_neg hn, child?, nodes_newNode_ne hn, child?]

theorem splitEdges_keeps (s : PrefixTree T) (p : ℕ) (c : Char) (m k : ℕ) (w : Text) :
    (s.splitEdges p c m k w).tenantToCharCount = s.tenantToCharCount ∧
    (s.splitEdges p c m k w).numNodes = s.numNodes := by
  cases w <;> exact ⟨rfl, rfl⟩

theorem counts_split : (s.split t p c m j).1.tenantToCharCount = s.tenantToCharCount := by
  rw [split_eq, (splitEdges_keeps ..).1, (SameTree.splitLinks s t p m j).counts]
  rfl

theorem numNodes_split : (s.split t p c m j).1.numNodes = s.numNodes + 1 := by
  rw [split_eq, (splitEdges_keeps ..).2, (SameTree.splitLinks s t p m j).numNodes]
  rfl

theorem hasTenant_split : (s.split t p c m j).1.HasTenant u ↔ s.HasTenant u := by
  unfold HasTenant
  rw [counts_split]

theorem owns_split (hr : (s.nodes m).text.drop j = d :: r) (hmk : m ≠ s.numNodes) :
    (s.split t p c m j).1.Owns u n ↔ s.Owns u (if n = s.numNodes then m else n) := by
  unfold Owns
  rw [(nodes_split hr hmk n).2.2]
  split_ifs <;> exact Iff.rfl

/-- The view after a split. -/
def View.split (v : View) (t : String) (k p m : ℕ) (w : Text) : View where
  live n := v.live n ∨ n = k
  label := Function.update v.label k (v.label p ++ w)
  chain u := if u = t then v.chain t ++ [k] else insertBefore m k (v.chain u)

theorem time?_split (hr : (s.nodes m).text.drop j = d :: r) (hmk : m ≠ s.numNodes) :
    (s.split t p c m j).1.time? n u = s.time? (if n = s.numNodes then m else n) u := by
  unfold time?
  rw [(nodes_split hr hmk n).2.2]
  split_ifs <;> rfl

theorem Shape.split {live : ℕ → Prop} {label : ℕ → Text} (h : Shape s live label) (hp : live p)
    (hm : s.child? p c = some m) (hj : 0 < j) (hr : (s.nodes m).text.drop j = d :: r) :
    Shape (s.split t p c m j).1 (fun n => live n ∨ n = s.numNodes)
      (Function.update label s.numNodes (label p ++ (s.nodes m).text.take j)) := by
  have hk := h.not_live_numNodes
  have hold : ∀ {n}, live n → n ≠ s.numNodes := fun hn heq => hk (heq ▸ hn)
  have hmlive := h.labelled.child_live hp hm
  have hroot : root ≠ s.numNodes := (h.root_ne hk).symm
  have hmroot : root ≠ m := (h.child_ne_root hp hm).symm
  have hnodes := nodes_split (t := t) (p := p) (c := c) hr (hold hmlive)
  constructor
  case labelled =>
    refine h.labelled.split (v := d :: r) (d := d) hp hk hm ?_ ?_ rfl ?_ ?_ ?_ ?_ ?_ ?_ ?_
    · rw [← hr, List.take_append_drop]
    · intro hnil
      obtain ⟨_, htext⟩ := Radix.exists_cons_of_head? (h.labelled.child_head hp hm)
      rw [htext, List.take_eq_nil_iff] at hnil
      exact hnil.elim (fun h0 => absurd h0 (by omega)) (fun hcons => absurd hcons (by simp))
    · rw [(hnodes _).1, if_pos rfl]
    · rw [(hnodes _).1, if_neg (hold hmlive), if_pos rfl]
    · intro e hek hem
      rw [(hnodes _).1, if_neg hek, if_neg hem]
    · rw [child?_split hr, if_pos ⟨rfl, rfl⟩]
    · rw [child?_split hr, if_neg (fun heq => hold hp heq.1.symm), if_pos rfl, if_pos rfl]
    · intro b hb
      rw [child?_split hr, if_neg (fun heq => hold hp heq.1.symm), if_pos rfl, if_neg hb]
    · intro e b hek hne
      rw [child?_split hr, if_neg hne, if_neg hek]
  case lt_numNodes =>
    rw [numNodes_split]
    rintro n (hn | rfl)
    · exact Nat.lt_succ_of_lt (h.lt_numNodes hn)
    · exact Nat.lt_succ_self _
  case parent =>
    intro q b n hq hn
    rw [child?_split hr] at hn
    split_ifs at hn with hqp hqk hbd
    · rw [Option.some.injEq] at hn
      rw [(hnodes n).2.1, if_pos hn.symm, hqp.1]
    · rw [Option.some.injEq] at hn
      rw [(hnodes n).2.1, ← hn, if_neg (hold hmlive), if_pos rfl, hqk]
    · have hqlive := hq.resolve_right hqk
      have hnlive := h.labelled.child_live hqlive hn
      have hnm : n ≠ m := by
        rintro rfl
        exact hqp (h.labelled.parent_unique hqlive hp hn hm)
      rw [(hnodes n).2.1, if_neg (hold hnlive), if_neg hnm, h.parent hqlive hn]
  case parent_root => rw [(hnodes root).2.1, if_neg hroot, if_neg hmroot, h.parent_root]
  case text_root => rw [(hnodes root).1, if_neg hroot, if_neg hmroot, h.text_root]

theorem weight_split (hr : (s.nodes m).text.drop j = d :: r) (hmk : m ≠ s.numNodes) (u : String) :
    (s.split t p c m j).1.weight u s.numNodes =
      s.weight u m - (s.split t p c m j).1.weight u m := by
  have hlen := congrArg List.length (List.take_append_drop j (s.nodes m).text)
  rw [hr, List.length_append] at hlen
  have hown := owns_split (t := t) (p := p) (c := c) (u := u) (n := s.numNodes) hr hmk
  have hownm := owns_split (t := t) (p := p) (c := c) (u := u) (n := m) hr hmk
  rw [if_pos rfl] at hown
  rw [if_neg hmk] at hownm
  unfold weight
  rw [(nodes_split hr hmk s.numNodes).1, (nodes_split hr hmk m).1, if_pos rfl, if_neg hmk,
    if_pos rfl, if_congr hown rfl rfl, if_congr hownm rfl rfl]
  split_ifs
  · omega
  · rfl

theorem weight_split_of_ne (hr : (s.nodes m).text.drop j = d :: r) (hmk : m ≠ s.numNodes)
    (hn : n ≠ s.numNodes) (hnm : n ≠ m) (u : String) :
    (s.split t p c m j).1.weight u n = s.weight u n := by
  have hown := owns_split (t := t) (p := p) (c := c) (u := u) (n := n) hr hmk
  rw [if_neg hn] at hown
  unfold weight
  rw [(nodes_split hr hmk n).1, if_neg hn, if_neg hnm, if_congr hown rfl rfl]

theorem sum_weight_split (hr : (s.nodes m).text.drop j = d :: r) (hmk : m ≠ s.numNodes)
    {u : String} (hl : l.Nodup) (hk : s.numNodes ∉ l) (hm : m ∉ l → ¬ s.Owns u m) :
    ((s.numNodes :: l).map ((s.split t p c m j).1.weight u)).sum = (l.map (s.weight u)).sum := by
  have hrest : ∀ n ∈ l, n ≠ m → (s.split t p c m j).1.weight u n = s.weight u n := fun n hn hnm =>
    weight_split_of_ne hr hmk (fun heq => hk (heq ▸ hn)) hnm u
  rw [List.map_cons, List.sum_cons, weight_split hr hmk]
  by_cases hmem : m ∈ l
  · rw [sum_map_change hl hmem hrest]
    omega
  · have hzero : s.weight u m = 0 := if_neg (hm hmem)
    have hzero' : (s.split t p c m j).1.weight u m = 0 := by
      have hown := owns_split (t := t) (p := p) (c := c) (u := u) (n := m) hr hmk
      rw [if_neg hmk] at hown
      exact if_neg (fun ho => hm hmem (hown.mp ho))
    rw [hzero, hzero', List.map_congr_left (fun n hn => hrest n hn (fun heq => hmem (heq ▸ hn)))]
    omega

/-- A split keeps the invariant, except that the tenant has not visited the new node. -/
theorem Inv.split (h : Inv s v none) (ht : s.HasTenant t) (hp : v.live p)
    (hm : s.child? p c = some m) (hj : 0 < j) (hr : (s.nodes m).text.drop j = d :: r) :
    Inv (s.split t p c m j).1 (v.split t s.numNodes p m ((s.nodes m).text.take j))
      (some (t, s.numNodes)) := by
  have hk := h.shape.not_live_numNodes
  have hold : ∀ {n}, v.live n → n ≠ s.numNodes := fun hn heq => hk (heq ▸ hn)
  have hmlive := h.shape.labelled.child_live hp hm
  have hmk := hold hmlive
  have hkchain : ∀ u, s.numNodes ∉ v.chain u := fun u hmem => hk (h.live_of_mem_chain hmem)
  have hmem : ∀ {u n}, n ∈ v.chain u ↔ v.live n ∧ s.Owns u n := by
    intro u n
    rw [h.mem_chain]
    simp
  have howns : ∀ {u n}, n ≠ s.numNodes → ((s.split t p c m j).1.Owns u n ↔ s.Owns u n) := by
    intro u n hn
    rw [owns_split hr hmk, if_neg hn]
  have hownsk : ∀ {u}, (s.split t p c m j).1.Owns u s.numNodes ↔ s.Owns u m := by
    intro u
    rw [owns_split hr hmk, if_pos rfl]
  have hchain : (v.split t s.numNodes p m ((s.nodes m).text.take j)).chain t =
      v.chain t ++ [s.numNodes] := if_pos rfl
  have hchain_ne : ∀ {u}, u ≠ t → (v.split t s.numNodes p m ((s.nodes m).text.take j)).chain u =
      insertBefore m s.numNodes (v.chain u) := fun hut => if_neg hut
  constructor
  case shape => exact h.shape.split hp hm hj hr
  case pend_live =>
    intro u n hpend
    rw [Option.some.injEq, Prod.mk.injEq] at hpend
    exact ⟨hpend.1 ▸ hasTenant_split.mpr ht, .inr hpend.2.symm⟩
  case tenant =>
    rintro u n (hn | rfl) ho
    · exact hasTenant_split.mpr (h.tenant hn ((howns (hold hn)).mp ho))
    · exact hasTenant_split.mpr (h.tenant hmlive (hownsk.mp ho))
  case chain_head =>
    intro u hu
    have hhead := h.chain_head (hasTenant_split.mp hu)
    by_cases hut : u = t
    · rw [hut] at hhead
      rw [hut, hchain, List.head?_append, hhead, Option.some_or]
    · obtain ⟨l, hl⟩ := List.head?_eq_some_iff.mp hhead
      rw [hchain_ne hut, hl, insertBefore, if_neg (h.shape.child_ne_root hp hm).symm]
      rfl
  case owns_parent =>
    intro u q b n hq hn ho
    rw [child?_split hr] at hn
    split_ifs at hn with hqp hqk hbd
    · rw [Option.some.injEq] at hn
      rw [hqp.1, howns (hold hp)]
      rw [← hn, hownsk] at ho
      exact h.owns_parent hp hm ho
    · rw [Option.some.injEq] at hn
      rw [hqk, hownsk]
      rwa [← hn, howns hmk] at ho
    · have hqlive := hq.resolve_right hqk
      have hnlive := h.shape.labelled.child_live hqlive hn
      rw [howns (hold hqlive)]
      exact h.owns_parent hqlive hn ((howns (hold hnlive)).mp ho)
  case owned =>
    rintro n (hn | rfl) hroot
    · obtain ⟨u, hu⟩ | ⟨u, hu⟩ := h.owned hn hroot
      · exact .inl ⟨u, (howns (hold hn)).mpr hu⟩
      · cases hu
    · exact .inr ⟨t, rfl⟩
  case threaded =>
    intro u
    rw [split_eq, hr]
    by_cases hut : u = t
    · subst hut
      rw [hchain]
      exact (splitLinks_threaded (h.threaded u) ht (hkchain u) (h.shape.root_ne hk)).splitEdges ..
    · rw [hchain_ne hut]
      refine (splitLinks_threaded_of_ne (h.threaded u) hut (hkchain u) ?_ ?_
        (h.shape.root_ne hk)).splitEdges ..
      · exact ⟨fun ho => hmem.mpr ⟨hmlive, ho⟩, fun hm => (hmem.mp hm).2⟩
      · exact fun hm => h.tenant hmlive (hmem.mp hm).2
  case mem_chain =>
    intro u n
    by_cases hut : u = t
    · subst hut
      rw [hchain, List.mem_append, List.mem_singleton, hmem]
      constructor
      · rintro (⟨hn, ho⟩ | rfl)
        · exact ⟨.inl hn, .inl ((howns (hold hn)).mpr ho)⟩
        · exact ⟨.inr rfl, .inr rfl⟩
      · rintro ⟨hn | hn, ho⟩
        · refine .inl ⟨hn, ?_⟩
          obtain ho | ho := ho
          · exact (howns (hold hn)).mp ho
          · rw [Option.some.injEq, Prod.mk.injEq] at ho
            exact absurd ho.2.symm (hold hn)
        · exact .inr hn
    · have hpend : some (t, s.numNodes) ≠ some (u, n) := by
        intro heq
        rw [Option.some.injEq, Prod.mk.injEq] at heq
        exact hut heq.1.symm
      rw [hchain_ne hut, or_iff_left hpend]
      have hbefore : n ∈ insertBefore m s.numNodes (v.chain u) ↔
          n ∈ v.chain u ∨ (n = s.numNodes ∧ s.Owns u m) := by
        by_cases hmc : m ∈ v.chain u
        · rw [(perm_insertBefore hmc).mem_iff, List.mem_cons, or_comm]
          exact or_congr Iff.rfl ⟨fun hn => ⟨hn, (hmem.mp hmc).2⟩, And.left⟩
        · rw [insertBefore_of_notMem hmc, or_iff_left]
          exact fun hand => hmc (hmem.mpr ⟨hmlive, hand.2⟩)
      rw [hbefore, hmem]
      constructor
      · rintro (⟨hn, ho⟩ | ⟨rfl, ho⟩)
        · exact ⟨.inl hn, (howns (hold hn)).mpr ho⟩
        · exact ⟨.inr rfl, hownsk.mpr ho⟩
      · rintro ⟨hn | rfl, ho⟩
        · exact .inl ⟨hn, (howns (hold hn)).mp ho⟩
        · exact .inr ⟨rfl, hownsk.mp ho⟩
  case count =>
    intro u hu
    have hmown : m ∉ v.chain u → ¬ s.Owns u m := fun hmc ho => hmc (hmem.mpr ⟨hmlive, ho⟩)
    have hsum := sum_weight_split (t := t) (p := p) (c := c) hr hmk (h.nodup_chain u) (hkchain u)
      hmown
    rw [counts_split, h.count (hasTenant_split.mp hu), ← hsum]
    by_cases hut : u = t
    · rw [hut, hchain, ((List.perm_append_singleton s.numNodes (v.chain t)).map _).sum_eq]
    · rw [hchain_ne hut]
      by_cases hmc : m ∈ v.chain u
      · rw [((perm_insertBefore hmc).map _).sum_eq]
      · have hzero : (s.split t p c m j).1.weight u s.numNodes = 0 :=
          if_neg (fun ho => hmown hmc (hownsk.mp ho))
        rw [insertBefore_of_notMem hmc, List.map_cons, List.sum_cons, hzero, zero_add]

end RayTfm.Serve.PrefixTree
