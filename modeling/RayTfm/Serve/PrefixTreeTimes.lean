import RayTfm.Serve.PrefixTreeInsertion
import RayTfm.Serve.PrefixTreeEvict

/-! # Times of access in the prefix tree

As long as the times of the calls do not decrease, a tenant accesses a node no later than its parent
and its list is ordered by the times of access (`Timed`).  An eviction then removes a node only
together with its descendants (`closed_of_cut`). -/

namespace RayTfm.Serve.PrefixTree
open RayTfm.Threads

variable {T : Type} [LinearOrder T] {s s' s₀ : PrefixTree T} {t u : String} {n m p a b : ℕ}
  {c d : Char} {v : View} {l R : List ℕ} {time τ : T} {now : WithBot T} {exempt : Option (String × ℕ)}
  {j : ℕ} {w : Text}

/-- A tenant has accessed the second node no later than the first one. -/
def NotLater (s : PrefixTree T) (t : String) (a b : ℕ) : Prop :=
  ∀ τ τ', s.time? a t = some τ → s.time? b t = some τ' → τ' ≤ τ

/-- The times of access are ordered along the edges and the lists; the place of one node on one list
may be exempt. -/
structure Timed (s : PrefixTree T) (v : View) (exempt : Option (String × ℕ)) (now : WithBot T) :
    Prop where
  le_now : ∀ {n t τ}, v.live n → s.time? n t = some τ → (τ : WithBot T) ≤ now
  child_le : ∀ {t p c m τ}, v.live p → s.child? p c = some m → s.time? m t = some τ →
    ∃ τ', s.time? p t = some τ' ∧ τ ≤ τ'
  sorted : ∀ t, (v.chain t).Pairwise
    (fun a b => exempt ≠ some (t, a) → exempt ≠ some (t, b) → s.NotLater t a b)

theorem Timed.mono (h : Timed s v exempt now) {now' : WithBot T} (hle : now ≤ now') :
    Timed s v exempt now' :=
  ⟨fun hn hτ => (h.le_now hn hτ).trans hle, h.child_le, h.sorted⟩

theorem Timed.allow (h : Timed s v none now) (e : Option (String × ℕ)) : Timed s v e now :=
  ⟨h.le_now, h.child_le, fun t => (h.sorted t).imp (fun hab _ _ => hab (by simp) (by simp))⟩

theorem timed_init : Timed (init : PrefixTree T) ⟨(· = root), fun _ => [], fun _ => []⟩ none ⊥ where
  le_now _ hτ := absurd hτ (by simp [init, PrefixTree.time?, Node.init])
  child_le _ hm := absurd hm (by simp [init, child?, Node.init])
  sorted _ := List.Pairwise.nil

/-! ### Inserting -/

/-- Before the visit of a node: its place on the list is exempt, its ancestors are up to date. -/
structure TimedStart (t : String) (time : T) (s : PrefixTree T) (v : View) (n : ℕ) : Prop where
  timed : Timed s v (some (t, n)) time
  parent : ∀ p c, v.live p → s.child? p c = some n → s.time? p t = some time
  root : n ≠ root → s.time? root t = some time

/-- After the visit of a node. -/
structure TimedMid (t : String) (time : T) (s : PrefixTree T) (v : View) (n : ℕ) : Prop where
  timed : Timed s v none time
  node : s.time? n t = some time
  root : s.time? root t = some time

theorem notLater_visit_of_ne (ha : ¬ (a = n ∧ u = t)) (hb : ¬ (b = n ∧ u = t))
    (h : s.NotLater u a b) : (s.visit t time n).NotLater u a b := by
  unfold NotLater
  rw [time?_visit, time?_visit, if_neg ha, if_neg hb]
  exact h

theorem notLater_visit_now (ha : (s.visit t time n).time? a t = some time)
    (hnow : ∀ {τ}, (s.visit t time n).time? b t = some τ → τ ≤ time) :
    (s.visit t time n).NotLater t a b := by
  intro τ τ' hτ hτ'
  rw [ha, Option.some.injEq] at hτ
  rw [← hτ]
  exact hnow hτ'

theorem TimedStart.visit (hat : AtNode s v t n) (h : TimedStart t time s v n) :
    TimedMid t time (s.visit t time n) (v.visit t n) n := by
  obtain ⟨pend, hinv, hpend⟩ := hat.inv
  have hnode : (s.visit t time n).time? n t = some time := by
    rw [time?_visit, if_pos ⟨rfl, rfl⟩]
  have hroot : (s.visit t time n).time? PrefixTree.root t = some time := by
    by_cases hn : n = PrefixTree.root
    · rw [← hn, hnode]
    · rw [time?_visit, if_neg (fun hand => hn hand.1.symm), h.root hn]
  have hle : ∀ {m u τ}, v.live m → (s.visit t time n).time? m u = some τ →
      (τ : WithBot T) ≤ time := by
    intro m u τ hm hτ
    rw [time?_visit] at hτ
    split_ifs at hτ with hmn
    · rw [Option.some.injEq] at hτ
      rw [hτ]
    · exact h.timed.le_now hm hτ
  refine ⟨⟨hle, ?_, ?_⟩, hnode, hroot⟩
  · intro u p c m τ hp hm hτ
    rw [child?_visit] at hm
    by_cases hpn : p = n ∧ u = t
    · refine ⟨time, by rw [time?_visit, if_pos hpn], ?_⟩
      exact WithBot.coe_le_coe.mp (hle (hinv.shape.labelled.child_live hp hm) hτ)
    · rw [time?_visit (m := p), if_neg hpn]
      rw [time?_visit] at hτ
      split_ifs at hτ with hmn
      · rw [Option.some.injEq] at hτ
        rw [hmn.2]
        exact ⟨time, h.parent p c hp (hmn.1 ▸ hm), hτ ▸ le_rfl⟩
      · exact h.timed.child_le hp hm hτ
  · intro u
    by_cases hut : u = t
    · subst hut
      obtain ⟨l, hl⟩ := List.head?_eq_some_iff.mp (hinv.chain_head hat.tenant)
      have hsorted := h.timed.sorted u
      have hnodup := hinv.nodup_chain u
      rw [hl] at hsorted hnodup
      rw [List.pairwise_cons] at hsorted
      rw [List.nodup_cons] at hnodup
      have hnow : ∀ {m}, m ∈ v.chain u → ∀ {τ}, (s.visit u time n).time? m u = some τ → τ ≤ time :=
        fun hm _ hτ => WithBot.coe_le_coe.mp (hle (hinv.live_of_mem_chain hm) hτ)
      have hrest : ∀ {l' : List ℕ}, List.Sublist l' l → n ∉ l' → l'.Pairwise (fun a b =>
          (none : Option (String × ℕ)) ≠ some (u, a) → none ≠ some (u, b) →
            (s.visit u time n).NotLater u a b) := by
        intro l' hsub hn
        refine (hsorted.2.sublist hsub).imp_of_mem (fun {a b} ha hb hab _ _ => ?_)
        have hane : a ≠ n := fun heq => hn (heq ▸ ha)
        have hbne : b ≠ n := fun heq => hn (heq ▸ hb)
        refine notLater_visit_of_ne (fun hand => hane hand.1) (fun hand => hbne hand.1) (hab ?_ ?_)
        · simp [Ne.symm hane]
        · simp [Ne.symm hbne]
      have hchain : (v.visit u n).chain u = moveToSecond n (PrefixTree.root :: l) := by
        rw [View.visit, hl]
        exact Function.update_self ..
      rw [hchain, moveToSecond]
      split_ifs with hn
      · rw [List.pairwise_cons]
        refine ⟨fun b hb _ _ => notLater_visit_now hroot (hnow ?_), hrest (.refl l) (hn ▸ hnodup.1)⟩
        rw [hl]
        exact .tail _ hb
      · have herase : n ∉ l.erase n := hnodup.2.not_mem_erase
        have hmem : ∀ {b}, b ∈ l.erase n → b ∈ v.chain u := by
          intro b hb
          rw [hl]
          exact .tail _ (List.mem_of_mem_erase hb)
        rw [List.pairwise_cons, List.pairwise_cons]
        refine ⟨fun b hb _ _ => notLater_visit_now hroot ?_,
          fun b hb _ _ => notLater_visit_now hnode (hnow (hmem hb)), hrest List.erase_sublist herase⟩
        obtain rfl | hb := List.mem_cons.mp hb
        · exact fun hτ => WithBot.coe_le_coe.mp (hle hat.live hτ)
        · exact hnow (hmem hb)
    · have hchain : (v.visit t n).chain u = v.chain u := Function.update_of_ne hut ..
      rw [hchain]
      refine (h.timed.sorted u).imp (fun hab _ _ => ?_)
      refine notLater_visit_of_ne (fun hand => hut hand.2) (fun hand => hut hand.2) (hab ?_ ?_)
      · simp [Ne.symm hut]
      · simp [Ne.symm hut]

theorem TimedMid.child (hinv : Inv s v none) (hp : v.live p) (hm : s.child? p c = some m)
    (h : TimedMid t time s v p) : TimedStart t time s v m where
  timed := h.timed.allow _
  parent q d hq hqm := by
    rw [(hinv.shape.labelled.parent_unique hq hp hqm hm).1]
    exact h.node
  root _ := h.root

theorem TimedMid.addLeaf (hinv : Inv s v none) (ht : s.HasTenant t) (hp : v.live p)
    (hnone : s.child? p c = none) (hw : w.head? = some c) (h : TimedMid t time s v p) :
    TimedStart t time (s.addLeaf t p c w) (v.addLeaf t s.numNodes p w) s.numNodes := by
  have hk := hinv.shape.not_live_numNodes
  have hpk : p ≠ s.numNodes := fun heq => hk (heq ▸ hp)
  have hroot := hinv.shape.root_ne hk
  have hkchain : ∀ u, s.numNodes ∉ v.chain u := fun u hmem => hk (hinv.live_of_mem_chain hmem)
  have hsame : SameTree (s.leafBase p c w) (s.addLeaf t p c w) := SameTree.insertNode ..
  have htime : ∀ {n u}, n ≠ s.numNodes → (s.addLeaf t p c w).time? n u = s.time? n u := by
    intro n u hn
    rw [hsame.time?, time?_leafBase, if_neg hn]
  have hnew : ∀ {u}, (s.addLeaf t p c w).time? s.numNodes u = none := by
    intro u
    rw [hsame.time?, time?_leafBase, if_pos rfl]
  have hsorted : ∀ u, (v.chain u).Pairwise (fun a b => some (t, s.numNodes) ≠ some (u, a) →
      some (t, s.numNodes) ≠ some (u, b) → (s.addLeaf t p c w).NotLater u a b) := by
    intro u
    refine (h.timed.sorted u).imp_of_mem (fun {a b} ha hb hab _ _ => ?_)
    unfold NotLater
    rw [htime (fun heq => hkchain u (heq ▸ ha)), htime (fun heq => hkchain u (heq ▸ hb))]
    exact hab (by simp) (by simp)
  refine ⟨⟨?_, ?_, ?_⟩, ?_, fun _ => (htime hroot.symm).trans h.root⟩
  · rintro n u τ (hn | rfl) hτ
    · rw [htime (fun heq => hk (heq ▸ hn))] at hτ
      exact h.timed.le_now hn hτ
    · rw [hnew] at hτ
      exact absurd hτ (by simp)
  · intro u q d m τ hq hm hτ
    rw [hsame.child?, child?_leafBase hpk] at hm
    split_ifs at hm with hqp hqk
    · rw [Option.some.injEq] at hm
      rw [← hm, hnew] at hτ
      exact absurd hτ (by simp)
    · have hqlive := hq.resolve_right hqk
      have hmlive := hinv.shape.labelled.child_live hqlive hm
      rw [htime (fun heq => hk (heq ▸ hmlive))] at hτ
      rw [htime hqk]
      exact h.timed.child_le hqlive hm hτ
  · intro u
    by_cases hut : u = t
    · subst hut
      have hchain : (v.addLeaf u s.numNodes p w).chain u = v.chain u ++ [s.numNodes] :=
        Function.update_self ..
      rw [hchain, List.pairwise_append]
      refine ⟨hsorted u, List.pairwise_singleton .., fun a _ b hb _ hex => ?_⟩
      rw [List.mem_singleton.mp hb] at hex
      exact absurd rfl hex
    · have hchain : (v.addLeaf t s.numNodes p w).chain u = v.chain u :=
        Function.update_of_ne hut ..
      rw [hchain]
      exact hsorted u
  · intro q d hq hqm
    have hedge : (s.addLeaf t p c w).child? p c = some s.numNodes := by
      rw [hsame.child?, child?_leafBase hpk, if_pos ⟨rfl, rfl⟩]
    have hlabelled := (hinv.addLeaf ht hp hnone hw).shape.labelled
    rw [(hlabelled.parent_unique hq (.inl hp) hqm hedge).1, htime hpk, h.node]

theorem TimedMid.split (hinv : Inv s v none) (ht : s.HasTenant t) (hp : v.live p)
    (hm : s.child? p c = some m) (hj : 0 < j) (hlt : j < (s.nodes m).text.length)
    (h : TimedMid t time s v p) :
    TimedStart t time (s.split t p c m j).1
      (v.split t s.numNodes p m ((s.nodes m).text.take j)) s.numNodes := by
  have hk := hinv.shape.not_live_numNodes
  have hold : ∀ {n}, v.live n → n ≠ s.numNodes := fun hn heq => hk (heq ▸ hn)
  have hmlive := hinv.shape.labelled.child_live hp hm
  obtain ⟨d, r, hr⟩ : ∃ d r, (s.nodes m).text.drop j = d :: r :=
    List.exists_cons_of_length_pos (by rw [List.length_drop]; omega)
  have htime : ∀ {n u}, n ≠ s.numNodes → (s.split t p c m j).1.time? n u = s.time? n u := by
    intro n u hn
    rw [time?_split hr (hold hmlive), if_neg hn]
  have hnew : ∀ {u}, (s.split t p c m j).1.time? s.numNodes u = s.time? m u := by
    intro u
    rw [time?_split hr (hold hmlive), if_pos rfl]
  have hkeep : ∀ {u a b}, a ≠ s.numNodes → b ≠ s.numNodes → s.NotLater u a b →
      (s.split t p c m j).1.NotLater u a b := by
    intro u a b ha hb hab
    unfold NotLater
    rw [htime ha, htime hb]
    exact hab
  have hkchain : ∀ {u n}, n ∈ v.chain u → n ≠ s.numNodes := fun hn =>
    hold (hinv.live_of_mem_chain hn)
  refine ⟨⟨?_, ?_, ?_⟩, ?_, fun _ => (htime (hinv.shape.root_ne hk).symm).trans h.root⟩
  · rintro n u τ (hn | rfl) hτ
    · rw [htime (hold hn)] at hτ
      exact h.timed.le_now hn hτ
    · rw [hnew] at hτ
      exact h.timed.le_now hmlive hτ
  · intro u q b n τ hq hn hτ
    rw [child?_split hr] at hn
    split_ifs at hn with hqp hqk hbd
    · rw [Option.some.injEq] at hn
      rw [← hn, hnew] at hτ
      rw [hqp.1, htime (hold hp)]
      exact h.timed.child_le hp hm hτ
    · rw [Option.some.injEq] at hn
      rw [← hn, htime (hold hmlive)] at hτ
      rw [hqk, hnew]
      exact ⟨τ, hτ, le_rfl⟩
    · have hqlive := hq.resolve_right hqk
      rw [htime (hold (hinv.shape.labelled.child_live hqlive hn))] at hτ
      rw [htime hqk]
      exact h.timed.child_le hqlive hn hτ
  · intro u
    by_cases hut : u = t
    · subst hut
      have hchain : (v.split u s.numNodes p m ((s.nodes m).text.take j)).chain u =
          v.chain u ++ [s.numNodes] := if_pos rfl
      rw [hchain, List.pairwise_append]
      refine ⟨?_, List.pairwise_singleton .., fun a _ b hb _ hex => ?_⟩
      · exact (h.timed.sorted u).imp_of_mem (fun ha hb hab _ _ =>
          hkeep (hkchain ha) (hkchain hb) (hab (by simp) (by simp)))
      · rw [List.mem_singleton.mp hb] at hex
        exact absurd rfl hex
    · have hchain : (v.split t s.numNodes p m ((s.nodes m).text.take j)).chain u =
          insertBefore m s.numNodes (v.chain u) := if_neg hut
      have hsorted := (h.timed.sorted u).imp_of_mem (fun {a b} ha hb hab =>
        hkeep (hkchain ha) (hkchain hb) (hab (by simp) (by simp)))
      have hnodup := hinv.nodup_chain u
      rw [hchain]
      refine List.Pairwise.imp (fun hab _ _ => hab) ?_
      by_cases hmem : m ∈ v.chain u
      · obtain ⟨l₁, l₂, hl⟩ := List.append_of_mem hmem
        rw [hl] at hsorted hnodup
        rw [hl, insertBefore_middle (notMem_of_nodup_middle hnodup).1]
        rw [List.pairwise_append, List.pairwise_cons] at hsorted
        rw [List.pairwise_append, List.pairwise_cons, List.pairwise_cons]
        -- the new node has the time of the lower part
        have hsame : (s.split t p c m j).1.time? s.numNodes u =
            (s.split t p c m j).1.time? m u := by rw [hnew, htime (hold hmlive)]
        refine ⟨hsorted.1, ⟨fun b hb => ?_, hsorted.2.1⟩, fun a ha b hb => ?_⟩
        · unfold NotLater
          rw [hsame]
          obtain rfl | hb := List.mem_cons.mp hb
          · intro τ τ' hτ hτ'
            rw [hτ, Option.some.injEq] at hτ'
            exact hτ' ▸ le_rfl
          · exact hsorted.2.1.1 b hb
        · obtain rfl | hb := List.mem_cons.mp hb
          · unfold NotLater
            rw [hsame]
            exact hsorted.2.2 a ha m (.head _)
          · exact hsorted.2.2 a ha b hb
      · rw [insertBefore_of_notMem hmem]
        exact hsorted
  · intro q b hq hqm
    have hedge : (s.split t p c m j).1.child? p c = some s.numNodes := by
      rw [child?_split hr, if_pos ⟨rfl, rfl⟩]
    have hlabelled := (hinv.split ht hp hm hj hr).shape.labelled
    rw [(hlabelled.parent_unique hq (.inl hp) hqm hedge).1, htime (hold hp), h.node]

theorem Timed.insert (h : Timed s v none now) (hinv : Inv s v none) (hnow : now ≤ time)
    (text : Text) (t : String) :
    ∃ s' v', s.insert text t time = some s' ∧ Inv s' v' none ∧ Timed s' v' none time := by
  by_cases ht : s.HasTenant t
  · have hstart : TimedStart t time s v root :=
      ⟨(h.mono hnow).allow _, fun _ _ hq hqm => absurd rfl (hinv.shape.child_ne_root hq hqm),
        fun hne => absurd rfl hne⟩
    obtain ⟨s', v', _, hloop, hinv', _, _, _, hmid⟩ :=
      insertLoop_rule time (TimedStart t time) (TimedMid t time)
        (fun hat hst => hst.visit hat) (fun hi hp hm hmid => hmid.child hi hp hm)
        (fun hi ht hp hnone hw hmid => hmid.addLeaf hi ht hp hnone hw)
        (fun hi ht hp hm hj hlt hmid => hmid.split hi ht hp hm hj hlt)
        (Nat.lt_succ_self text.length) (.start hinv ht)
        (by rw [hinv.shape.labelled.label_root, List.nil_append]) hstart
    refine ⟨s', v', ?_, hinv', hmid.timed⟩
    rw [PrefixTree.insert, if_neg (not_not.mpr ht), hloop]
  · exact ⟨s, v, if_pos ht, hinv, h.mono hnow⟩

/-! ### Adding and removing tenants -/

theorem Timed.addTenant (h : Timed s v none now) (hinv : Inv s v none) (hnow : now ≤ time)
    (t : String) :
    ∃ s' v', s.addTenant t time = some s' ∧ Inv s' v' none ∧ Timed s' v' none time := by
  by_cases ht : s.HasTenant t
  · exact ⟨s, v, if_pos ht, hinv, h.mono hnow⟩
  · have hat := AtNode.enroll hinv ht
    have hchain : (v.enroll t).chain t = [root] := Function.update_self ..
    have hstart : TimedStart t time (s.enroll t) (v.enroll t) root := by
      refine ⟨⟨?_, ?_, ?_⟩, fun p c hp hm => absurd rfl ((hinv.enroll ht).shape.child_ne_root hp hm),
        fun hne => absurd rfl hne⟩
      · intro n u τ hn hτ
        rw [time?_enroll] at hτ
        exact (h.le_now hn hτ).trans hnow
      · intro u p c m τ hp hm hτ
        rw [child?_enroll] at hm
        rw [time?_enroll] at hτ ⊢
        exact h.child_le hp hm hτ
      · intro u
        by_cases hut : u = t
        · rw [hut, hchain]
          exact List.pairwise_singleton ..
        · have hchain : (v.enroll t).chain u = v.chain u := Function.update_of_ne hut ..
          rw [hchain]
          refine (h.sorted u).imp (fun hab _ _ => ?_)
          unfold NotLater
          rw [time?_enroll]
          exact hab (by simp) (by simp)
    exact ⟨_, _, addTenant_visit ht, hat.visit, (hstart.visit hat).timed⟩

theorem Timed.prune (h : Timed s₀ v none now) {s' : PrefixTree T}
    (htimes : ∀ n u, s'.time? n u = none ∨ s'.time? n u = s₀.time? n u)
    (hchild : ∀ p c m, v.live p → s'.child? p c = some m → s₀.child? p c = some m)
    (hinv' : Inv s' (v.prune s t l R) none) (hl : v.chain t = l ++ R) :
    Timed s' (v.prune s t l R) none now := by
  have hsome : ∀ {n u τ}, s'.time? n u = some τ → s₀.time? n u = some τ := by
    intro n u τ hτ
    obtain hnone | hsame := htimes n u
    · rw [hnone] at hτ
      exact absurd hτ (by simp)
    · rw [← hsame, hτ]
  have hsorted : ∀ {u l'}, List.Sublist l' (v.chain u) → l'.Pairwise (fun a b =>
      (none : Option (String × ℕ)) ≠ some (u, a) → none ≠ some (u, b) → s'.NotLater u a b) := by
    intro u l' hsub
    refine ((h.sorted u).sublist hsub).imp (fun hab _ _ τ τ' hτ hτ' => ?_)
    exact hab (by simp) (by simp) τ τ' (hsome hτ) (hsome hτ')
  refine ⟨fun hn hτ => h.le_now hn.1 (hsome hτ), ?_, ?_⟩
  · intro u p c m τ hp hm hτ
    obtain ⟨τ', hτ', hle⟩ := h.child_le hp.1 (hchild p c m hp.1 hm) (hsome hτ)
    have hown : s'.Owns u p := hinv'.owns_parent hp hm (owns_iff.mpr (by rw [hτ]; rfl))
    obtain ⟨τ'', hτ''⟩ := Option.isSome_iff_exists.mp (owns_iff.mp hown)
    have heq : τ'' = τ' := by
      have := hsome hτ''
      rw [hτ', Option.some.injEq] at this
      exact this.symm
    exact ⟨τ', heq ▸ hτ'', hle⟩
  · intro u
    by_cases hut : u = t
    · have hchain : (v.prune s t l R).chain t = l := Function.update_self ..
      rw [hut, hchain]
      exact hsorted (by rw [hl]; exact List.sublist_append_left ..)
    · have hchain : (v.prune s t l R).chain u = v.chain u := Function.update_of_ne hut ..
      rw [hchain]
      exact hsorted (.refl _)

theorem Timed.removeTenant (h : Timed s v none now) (hinv : Inv s v none) (t : String) :
    ∃ s' v' k, s.removeTenant t = some (s', k) ∧ Inv s' v' none ∧ Timed s' v' none now := by
  by_cases ht : s.HasTenant t
  · obtain ⟨s', hrun, hinv', _, htimes, _, hchild⟩ := hinv.removeTenant ht
    exact ⟨s', _, _, hrun, hinv', h.prune htimes hchild hinv' (List.nil_append _).symm⟩
  · exact ⟨s, v, 0, if_pos ht, hinv, h⟩

/-- Where the time of access changes, what is left of the list but the root is later than the
rest. -/
theorem lt_of_cut (h : Timed s v none now) (hinv : Inv s v none) (hchain : v.chain t = l ++ R)
    (hcut : Cut s t l R) (hal : a ∈ l) (hroot : a ≠ root) (hbR : b ∈ R) {τa τb : T}
    (hτa : s.time? a t = some τa) (hτb : s.time? b t = some τb) : τb < τa := by
  obtain ⟨l, x, rfl⟩ := (List.eq_nil_or_concat' l).resolve_left (List.ne_nil_of_mem hal)
  obtain ⟨y, R, rfl⟩ := List.exists_cons_of_ne_nil (List.ne_nil_of_mem hbR)
  have hsorted := h.sorted t
  have hmem : ∀ {n}, n ∈ (l ++ [x]) ++ y :: R → v.live n ∧ s.Owns t n := by
    intro n hn
    rw [← hchain, hinv.mem_chain] at hn
    exact ⟨hn.1, hn.2.resolve_right (by simp)⟩
  obtain ⟨τx, hτx⟩ := Option.isSome_iff_exists.mp (owns_iff.mp (hmem (n := x) (by simp)).2)
  obtain ⟨τy, hτy⟩ := Option.isSome_iff_exists.mp (owns_iff.mp (hmem (n := y) (by simp)).2)
  rw [hchain] at hsorted
  obtain ⟨hleft, hright, hacross⟩ := List.pairwise_append.mp hsorted
  have hxa : τx ≤ τa := by
    obtain hal | hax := List.mem_append.mp hal
    · exact (List.pairwise_append.mp hleft).2.2 a hal x (by simp) (by simp) (by simp) _ _ hτa hτx
    · rw [List.mem_singleton.mp hax, hτx, Option.some.injEq] at hτa
      exact hτa.le
  have hby : τb ≤ τy := by
    obtain rfl | hbR := List.mem_cons.mp hbR
    · rw [hτy, Option.some.injEq] at hτb
      exact hτb.ge
    · exact (List.pairwise_cons.mp hright).1 b hbR (by simp) (by simp) _ _ hτy hτb
  have hyx : τy ≤ τx := hacross x (by simp) y (by simp) (by simp) (by simp) _ _ hτx hτy
  have hne : τx ≠ τy := by
    obtain rfl | hne := hcut x y List.getLast?_concat rfl
    · -- the last node left is the root only if nothing else is left
      have ht := hinv.tenant (hmem (n := root) (by simp)).1 (hmem (by simp)).2
      have hnil : l = [] := by
        by_contra hnil
        exact hinv.last_ne_root ht (by rw [hchain, List.append_assoc]; rfl) hnil rfl
      rw [hnil, List.nil_append, List.mem_singleton] at hal
      exact absurd hal hroot
    · rw [hτx, hτy] at hne
      exact fun heq => hne (congrArg some heq)
  exact (hby.trans_lt (lt_of_le_of_ne hyx hne.symm)).trans_le hxa

/-- So all descendants of the removed nodes are removed. -/
theorem closed_of_cut (h : Timed s v none now) (hinv : Inv s v none) (hchain : v.chain t = l ++ R)
    (hcut : Cut s t l R) : Closed s v t R := by
  intro p c m hp hm ho hpR
  have hmem : m ∈ v.chain t :=
    hinv.mem_chain.mpr ⟨hinv.shape.labelled.child_live hp hm, .inl ho⟩
  rw [hchain, List.mem_append] at hmem
  refine hmem.resolve_left (fun hml => ?_)
  obtain ⟨τm, hτm⟩ := Option.isSome_iff_exists.mp (owns_iff.mp ho)
  obtain ⟨τp, hτp, hle⟩ := h.child_le hp hm hτm
  exact absurd (lt_of_cut h hinv hchain hcut hml (hinv.shape.child_ne_root hp hm) hpR hτm
    hτp) hle.not_gt

theorem Timed.evict (h : Timed s v none now) (hinv : Inv s v none) (t : String) (k : ℤ) :
    ∃ s' v' r, s.evictTenantByLru t k = some (s', r) ∧ Inv s' v' none ∧ Timed s' v' none now := by
  cases hk : s.tenantToCharCount.get? t with
  | none => exact ⟨s, v, 0, by rw [evictTenantByLru, hk], hinv, h⟩
  | some count =>
    have ht : s.HasTenant t := Dict.get?_isSome_iff.mp (by rw [hk]; rfl)
    obtain ⟨s', l, R, hrun, hrem, hl, _, hcut⟩ := evictTenantByLru_spec hinv ht hk k
    have hinv' := hrem.inv hinv hl (closed_of_cut h hinv hrem.chain hcut)
    refine ⟨s', _, _, hrun, hinv', h.prune hrem.pruned.time?_cases ?_ hinv' hrem.chain⟩
    exact fun p c m hp hm => ((hrem.pruned.child p c m hp).mp hm).1

end RayTfm.Serve.PrefixTree
