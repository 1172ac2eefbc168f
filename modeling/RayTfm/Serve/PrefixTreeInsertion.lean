import RayTfm.Serve.PrefixTreeNodes

/-! # Runs of `insert`

The rule for the loop of `insert`: what holds of the start node before its visit and is passed on by
visits, by descending, by new leaves and by splits holds of the node the text ends at
(`insertLoop_rule`).  The loop always ends, as every round takes at least one character. -/

namespace RayTfm.Serve.PrefixTree
open RayTfm.Threads

variable {T : Type} {s s' : PrefixTree T} {t u : String} {n m p : ℕ} {c d : Char} {time : T}
  {v : View} {pend : Option (String × ℕ)} {text currText a b : Text} {j : ℕ}

theorem sharedPrefixCount_le_left (a b : Text) : sharedPrefixCount a b ≤ a.length := by
  induction a generalizing b with
  | nil => exact Nat.zero_le _
  | cons x a ih =>
    cases b with
    | nil => exact Nat.zero_le _
    | cons y b =>
      rw [sharedPrefixCount]
      split_ifs
      · exact Nat.succ_le_succ (ih b)
      · exact Nat.zero_le _

theorem take_sharedPrefixCount (a b : Text) :
    a.take (sharedPrefixCount a b) = b.take (sharedPrefixCount a b) := by
  induction a generalizing b with
  | nil => simp [sharedPrefixCount]
  | cons x a ih =>
    cases b with
    | nil => simp [sharedPrefixCount]
    | cons y b =>
      rw [sharedPrefixCount]
      split_ifs with hxy
      · rw [List.take_succ_cons, List.take_succ_cons, ih, hxy]
      · rfl

theorem le_sharedPrefixCount (ha : j ≤ a.length) (hb : j ≤ b.length) (h : a.take j = b.take j) :
    j ≤ sharedPrefixCount a b := by
  induction a generalizing b j with
  | nil => exact ha
  | cons x a ih =>
    cases b with
    | nil => exact hb.trans (Nat.zero_le _)
    | cons y b =>
      cases j with
      | zero => exact Nat.zero_le _
      | succ j =>
        rw [List.take_succ_cons, List.take_succ_cons, List.cons.injEq] at h
        rw [sharedPrefixCount, if_pos h.1]
        exact Nat.succ_le_succ (ih (Nat.le_of_succ_le_succ ha) (Nat.le_of_succ_le_succ hb) h.2)

theorem sharedPrefixCount_pos (ha : a.head? = some c) (hb : b.head? = some c) :
    0 < sharedPrefixCount a b := by
  obtain ⟨a, rfl⟩ := Radix.exists_cons_of_head? ha
  obtain ⟨b, rfl⟩ := Radix.exists_cons_of_head? hb
  rw [sharedPrefixCount, if_pos rfl]
  exact Nat.succ_pos _

theorem sharedPrefixCount_self (a : Text) : sharedPrefixCount a a = a.length := by
  induction a with
  | nil => rfl
  | cons x a ih => rw [sharedPrefixCount, if_pos rfl, ih, List.length_cons]

/-- Where a round of `insert` starts: the node, which may be pending, and its parent is owned. -/
structure AtNode (s : PrefixTree T) (v : View) (t : String) (n : ℕ) : Prop where
  inv : ∃ pend, Inv s v pend ∧ ∀ {u m}, pend = some (u, m) → u = t ∧ m = n
  tenant : s.HasTenant t
  live : v.live n
  parent : ∀ p c, v.live p → s.child? p c = some n → s.Owns t p

theorem AtNode.hasTenant_visit (h : AtNode s v t n) :
    (s.visit t time n).HasTenant u ↔ s.HasTenant u :=
  (SameTree.visit s t time n).hasTenant.trans (hasTenant_touch h.tenant)

theorem AtNode.visit (h : AtNode s v t n) : Inv (s.visit t time n) (v.visit t n) none := by
  obtain ⟨pend, hinv, hpend⟩ := h.inv
  exact hinv.visit h.tenant h.live hpend h.parent

theorem owns_visit (s : PrefixTree T) (t : String) (time : T) (n : ℕ) :
    (s.visit t time n).Owns t n :=
  (SameTree.visit s t time n).owns.mpr (owns_touch.mpr (.inr ⟨rfl, rfl⟩))

theorem AtNode.child (h : Inv s v none) (ht : s.HasTenant t) (hp : v.live p) (ho : s.Owns t p)
    (hm : s.child? p c = some m) : AtNode s v t m where
  inv := ⟨none, h, fun hpend => absurd hpend (by simp)⟩
  tenant := ht
  live := h.shape.labelled.child_live hp hm
  parent q d hq hqm := by
    rw [(h.shape.labelled.parent_unique hq hp hqm hm).1]
    exact ho

theorem AtNode.addLeaf (h : Inv s v none) (ht : s.HasTenant t) (hp : v.live p) (ho : s.Owns t p)
    (hnone : s.child? p c = none) (hw : a.head? = some c) :
    AtNode (s.addLeaf t p c a) (v.addLeaf t s.numNodes p a) t s.numNodes := by
  have hk := h.shape.not_live_numNodes
  have hpk : p ≠ s.numNodes := fun heq => hk (heq ▸ hp)
  have hinv := h.addLeaf ht hp hnone hw
  have hsame : SameTree (s.leafBase p c a) (s.addLeaf t p c a) := SameTree.insertNode ..
  refine ⟨⟨_, hinv, ?_⟩, hsame.hasTenant.mpr ht, .inr rfl, ?_⟩
  · intro u m hpend
    rw [Option.some.injEq, Prod.mk.injEq] at hpend
    exact ⟨hpend.1.symm, hpend.2.symm⟩
  · intro q d hq hqm
    have hedge : (s.addLeaf t p c a).child? p c = some s.numNodes := by
      rw [hsame.child?, child?_leafBase hpk, if_pos ⟨rfl, rfl⟩]
    rw [(hinv.shape.labelled.parent_unique hq (.inl hp) hqm hedge).1]
    exact hsame.owns.mpr (owns_leafBase.mpr ⟨hpk, ho⟩)

theorem AtNode.split (h : Inv s v none) (ht : s.HasTenant t) (hp : v.live p) (ho : s.Owns t p)
    (hm : s.child? p c = some m) (hj : 0 < j) (hlt : j < (s.nodes m).text.length) :
    AtNode (s.split t p c m j).1 (v.split t s.numNodes p m ((s.nodes m).text.take j)) t
      s.numNodes := by
  have hk := h.shape.not_live_numNodes
  have hpk : p ≠ s.numNodes := fun heq => hk (heq ▸ hp)
  have hmk : m ≠ s.numNodes := fun heq => hk (heq ▸ h.shape.labelled.child_live hp hm)
  obtain ⟨d, r, hr⟩ : ∃ d r, (s.nodes m).text.drop j = d :: r :=
    List.exists_cons_of_length_pos (by rw [List.length_drop]; omega)
  have hinv := h.split ht hp hm hj hr
  refine ⟨⟨_, hinv, ?_⟩, hasTenant_split.mpr ht, .inr rfl, ?_⟩
  · intro u m hpend
    rw [Option.some.injEq, Prod.mk.injEq] at hpend
    exact ⟨hpend.1.symm, hpend.2.symm⟩
  · intro q b hq hqm
    have hedge : (s.split t p c m j).1.child? p c = some s.numNodes := by
      rw [child?_split hr, if_pos ⟨rfl, rfl⟩]
    rw [(hinv.shape.labelled.parent_unique hq (.inl hp) hqm hedge).1, owns_split hr hmk, if_neg hpk]
    exact ho

theorem insertLoop_rule (time : T) (Start Mid : PrefixTree T → View → ℕ → Prop)
    (hvisit : ∀ {s v n}, AtNode s v t n → Start s v n → Mid (s.visit t time n) (v.visit t n) n)
    (hchild : ∀ {s v p c m}, Inv s v none → v.live p → s.child? p c = some m → Mid s v p →
      Start s v m)
    (hleaf : ∀ {s v p c w}, Inv s v none → s.HasTenant t → v.live p → s.child? p c = none →
      w.head? = some c → Mid s v p →
      Start (s.addLeaf t p c w) (v.addLeaf t s.numNodes p w) s.numNodes)
    (hsplit : ∀ {s v p c m j}, Inv s v none → s.HasTenant t → v.live p → s.child? p c = some m →
      0 < j → j < (s.nodes m).text.length → Mid s v p →
      Start (s.split t p c m j).1 (v.split t s.numNodes p m ((s.nodes m).text.take j)) s.numNodes)
    {rounds : ℕ} (hrounds : currText.length < rounds) (h : AtNode s v t n)
    (htext : v.label n ++ currText = text) (hstart : Start s v n) :
    ∃ s' v' n', insertLoop t time rounds s n currText = some s' ∧ Inv s' v' none ∧
      (∀ u, s'.HasTenant u ↔ s.HasTenant u) ∧ v'.live n' ∧ v'.label n' = text ∧ Mid s' v' n' := by
  induction rounds generalizing s v n currText with
  | zero => omega
  | succ rounds ih =>
    have hinv : Inv (s.visit t time n) (v.visit t n) none := h.visit
    have hmid := hvisit h hstart
    have hown := owns_visit s t time n
    have hhas : ∀ {u}, (s.visit t time n).HasTenant u ↔ s.HasTenant u := h.hasTenant_visit
    have hlive : (v.visit t n).live n := h.live
    have hlabel : (v.visit t n).label n = v.label n := rfl
    cases currText with
    | nil =>
      refine ⟨_, _, n, by rw [insertLoop], hinv, fun _ => hhas, hlive, ?_, hmid⟩
      rw [hlabel, ← htext, List.append_nil]
    | cons c rest =>
      rw [insertLoop]
      simp only
      generalize s.visit t time n = w at *
      generalize v.visit t n = v₁ at *
      have hnext : ∀ {w' v₂ m j}, (∀ u, w'.HasTenant u ↔ w.HasTenant u) → AtNode w' v₂ t m →
          0 < j → v₂.label m = v.label n ++ (c :: rest).take j → Start w' v₂ m →
          ∃ s' v' n', insertLoop t time rounds w' m ((c :: rest).drop j) = some s' ∧
            Inv s' v' none ∧ (∀ u, s'.HasTenant u ↔ s.HasTenant u) ∧ v'.live n' ∧
            v'.label n' = text ∧ Mid s' v' n' := by
        intro w' v₂ m j hsame hat hj hlab hst
        have hlen : ((c :: rest).drop j).length < rounds := by
          rw [List.length_drop]
          simp only [List.length_cons] at hrounds ⊢
          omega
        obtain ⟨s', v', n', hloop, hinv', hten, hrest⟩ := ih hlen hat
          (by rw [hlab, List.append_assoc, List.take_append_drop, htext]) hst
        exact ⟨s', v', n', hloop, hinv', fun u => (hten u).trans ((hsame u).trans hhas), hrest⟩
      have ht := hhas.mpr h.tenant
      cases hm : w.child? n c with
      | none =>
        have hk := hinv.shape.not_live_numNodes
        have hnk : n ≠ w.numNodes := fun heq => hk (heq ▸ hlive)
        have hsame : SameTree (w.leafBase n c (c :: rest)) (w.addLeaf t n c (c :: rest)) :=
          SameTree.insertNode ..
        have hedge : (w.addLeaf t n c (c :: rest)).child? n c = some w.numNodes := by
          rw [hsame.child?, child?_leafBase hnk, if_pos ⟨rfl, rfl⟩]
        have hnew : ((w.addLeaf t n c (c :: rest)).nodes w.numNodes).text = c :: rest := by
          rw [hsame.text, leafBase_new.1]
        rw [if_pos rfl, hedge]
        simp only
        rw [hnew, sharedPrefixCount_self, if_neg (Nat.lt_irrefl _)]
        refine hnext (fun u => hsame.hasTenant) (.addLeaf hinv ht hlive hown hm rfl)
          (Nat.succ_pos _) ?_ (hleaf hinv ht hlive hm rfl hmid)
        rw [List.take_length, View.addLeaf, ← hlabel]
        exact Function.update_self ..
      | some m =>
        rw [if_neg (by simp), hm]
        simp only
        have hhead := hinv.shape.labelled.child_head hlive hm
        have hpos : 0 < sharedPrefixCount (w.nodes m).text (c :: rest) :=
          sharedPrefixCount_pos hhead rfl
        have htake := take_sharedPrefixCount (w.nodes m).text (c :: rest)
        split_ifs with hlt
        · refine hnext (fun u => hasTenant_split) (.split hinv ht hlive hown hm hpos hlt) hpos ?_
            (hsplit hinv ht hlive hm hpos hlt hmid)
          rw [← htake, View.split, ← hlabel]
          exact Function.update_self ..
        · refine hnext (fun u => Iff.rfl) (.child hinv ht hlive hown hm) hpos ?_
            (hchild hinv hlive hm hmid)
          have hle := sharedPrefixCount_le_left (w.nodes m).text (c :: rest)
          rw [← htake, hinv.shape.labelled.child_label hlive hm, hlabel,
            List.take_of_length_le (by omega)]

theorem AtNode.start (h : Inv s v none) (ht : s.HasTenant t) : AtNode s v t root where
  inv := ⟨none, h, fun hpend => absurd hpend (by simp)⟩
  tenant := ht
  live := h.root_live
  parent _ _ hq hqm := absurd rfl (h.shape.child_ne_root hq hqm)

/-! ### New tenants -/

/-- The first half of `add_tenants`: a tenant whose list is the root. -/
def enroll (s : PrefixTree T) (t : String) : PrefixTree T :=
  let s := { s with
    tenantToCharCount := s.tenantToCharCount.set t 0
    tenantToLruTail := Function.update s.tenantToLruTail t (some root) }
  (s.setNewer root t none).setOlder root t none

/-- The view with a new tenant. -/
def View.enroll (v : View) (t : String) : View :=
  { v with chain := Function.update v.chain t [root] }

theorem addTenant_eq (ht : ¬ s.HasTenant t) :
    s.addTenant t time = (s.enroll t).insert [] t time := by
  rw [addTenant, if_neg ht]
  rfl

theorem hasTenant_enroll : (s.enroll t).HasTenant u ↔ u = t ∨ s.HasTenant u := Dict.mem_keys_set

/-- A tenant without a tree differs from the old state in the counts and the tails only. -/
theorem sameTree_enroll (s : PrefixTree T) (t : String) :
    SameTree { s with
      tenantToCharCount := s.tenantToCharCount.set t 0
      tenantToLruTail := Function.update s.tenantToLruTail t (some root) } (s.enroll t) :=
  (SameTree.setNewer ..).trans (.setOlder ..)

theorem owns_enroll : (s.enroll t).Owns u n ↔ s.Owns u n := (sameTree_enroll s t).owns

theorem child?_enroll : (s.enroll t).child? = s.child? := (sameTree_enroll s t).child?

theorem time?_enroll : (s.enroll t).time? = s.time? := (sameTree_enroll s t).time?

theorem weight_enroll : (s.enroll t).weight = s.weight := (sameTree_enroll s t).weight

theorem Threaded.enroll (h : Threaded s t []) : Threaded (s.enroll t) t [root] := by
  refine ⟨List.nodup_singleton _, ?_, ?_, ?_⟩
  · rw [PrefixTree.enroll, olderOf_setOlder, olderOf_setNewer,
      show PrefixTree.olderOf { s with
        tenantToCharCount := s.tenantToCharCount.set t 0
        tenantToLruTail := Function.update s.tenantToLruTail t (some root) } t = s.olderOf t from rfl,
      h.older]
    funext n
    rw [Function.update_apply, succOf_singleton]
    split_ifs <;> rfl
  · rw [PrefixTree.enroll, newerOf_setOlder, newerOf_setNewer,
      show PrefixTree.newerOf { s with
        tenantToCharCount := s.tenantToCharCount.set t 0
        tenantToLruTail := Function.update s.tenantToLruTail t (some root) } t = s.newerOf t from rfl,
      h.newer]
    funext n
    rw [Function.update_apply, predOf, predOf, List.reverse_singleton, succOf_singleton]
    split_ifs <;> rfl
  · exact Function.update_self ..

theorem Threaded.enroll_of_ne {l : List ℕ} (h : Threaded s u l) (hu : u ≠ t) :
    Threaded (s.enroll t) u l := by
  refine ⟨h.nodup, ?_, ?_, ?_⟩
  · rw [PrefixTree.enroll, olderOf_setOlder_of_ne _ _ hu, olderOf_setNewer]
    exact h.older
  · rw [PrefixTree.enroll, newerOf_setOlder, newerOf_setNewer_of_ne _ _ hu]
    exact h.newer
  · rw [PrefixTree.enroll, tenantToLruTail_setOlder, tenantToLruTail_setNewer]
    exact (Function.update_of_ne hu ..).trans h.tail

/-- A new tenant keeps the invariant, except that it has not visited the root. -/
theorem Inv.enroll (h : Inv s v none) (ht : ¬ s.HasTenant t) :
    Inv (s.enroll t) (v.enroll t) (some (t, root)) := by
  have hsame := sameTree_enroll s t
  have hchain : (v.enroll t).chain t = [root] := Function.update_self ..
  have hchain_ne : ∀ {u}, u ≠ t → (v.enroll t).chain u = v.chain u := fun hut =>
    Function.update_of_ne hut ..
  have hnot : ∀ {n}, v.live n → ¬ s.Owns t n := fun hn ho => ht (h.tenant hn ho)
  constructor
  case shape =>
    refine hsame.shape ?_
    exact ⟨h.shape.labelled, h.shape.lt_numNodes, h.shape.parent, h.shape.parent_root,
      h.shape.text_root⟩
  case pend_live =>
    intro u n hpend
    rw [Option.some.injEq, Prod.mk.injEq] at hpend
    exact ⟨hasTenant_enroll.mpr (.inl hpend.1.symm), hpend.2 ▸ h.root_live⟩
  case tenant =>
    intro u n hn ho
    exact hasTenant_enroll.mpr (.inr (h.tenant hn (owns_enroll.mp ho)))
  case chain_head =>
    intro u hu
    by_cases hut : u = t
    · rw [hut, hchain]
      rfl
    · rw [hchain_ne hut, h.chain_head ((hasTenant_enroll.mp hu).resolve_left hut)]
  case owns_parent =>
    intro u p c m hp hm ho
    rw [child?_enroll] at hm
    exact owns_enroll.mpr (h.owns_parent hp hm (owns_enroll.mp ho))
  case owned =>
    intro n hn hroot
    obtain ⟨u, hu⟩ | ⟨u, hu⟩ := h.owned hn hroot
    · exact .inl ⟨u, owns_enroll.mpr hu⟩
    · cases hu
  case threaded =>
    intro u
    by_cases hut : u = t
    · subst hut
      rw [hchain]
      exact (h.chain_eq_nil ht ▸ h.threaded u).enroll
    · rw [hchain_ne hut]
      exact (h.threaded u).enroll_of_ne hut
  case mem_chain =>
    intro u n
    rw [owns_enroll]
    by_cases hut : u = t
    · subst hut
      rw [hchain, List.mem_singleton]
      constructor
      · rintro rfl
        exact ⟨h.root_live, .inr rfl⟩
      · rintro ⟨hn, ho | ho⟩
        · exact absurd ho (hnot hn)
        · rw [Option.some.injEq, Prod.mk.injEq] at ho
          exact ho.2.symm
    · rw [hchain_ne hut, h.mem_chain]
      simp [View.enroll, Ne.symm hut]
  case count =>
    intro u hu
    rw [hsame.counts, weight_enroll]
    by_cases hut : u = t
    · subst hut
      rw [hchain, List.map_singleton, List.sum_singleton, weight, if_neg (hnot h.root_live)]
      exact Dict.get?_set_self ..
    · rw [hchain_ne hut, ← h.count ((hasTenant_enroll.mp hu).resolve_left hut)]
      exact Dict.get?_set_ne _ _ hut

theorem AtNode.enroll (h : Inv s v none) (ht : ¬ s.HasTenant t) :
    AtNode (s.enroll t) (v.enroll t) t root where
  inv := by
    refine ⟨_, h.enroll ht, fun hpend => ?_⟩
    rw [Option.some.injEq, Prod.mk.injEq] at hpend
    exact ⟨hpend.1.symm, hpend.2.symm⟩
  tenant := hasTenant_enroll.mpr (.inl rfl)
  live := h.root_live
  parent _ _ hq hqm := absurd rfl ((h.enroll ht).shape.child_ne_root hq hqm)

theorem addTenant_visit (ht : ¬ s.HasTenant t) :
    s.addTenant t time = some ((s.enroll t).visit t time root) := by
  have hmem : (s.enroll t).HasTenant t := hasTenant_enroll.mpr (.inl rfl)
  rw [addTenant_eq ht, insert, if_neg (not_not.mpr hmem), List.length_nil, insertLoop]

end RayTfm.Serve.PrefixTree
