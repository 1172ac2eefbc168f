import RayTfm.Serve.PrefixTreeInsertion
import RayTfm.Serve.PrefixTreeRemove

/-! # The strings of the prefix tree

What the tree stands for: the strings inserted for each tenant.  A tenant owns a node if and only if
the node's label is a prefix of one of its strings, and every string is the label of a node
(`Spells`).  The times of the calls do not matter here. -/

namespace RayTfm.Serve.PrefixTree
open RayTfm.Threads

variable {T : Type} {s s' : PrefixTree T} {t u : String} {n m p : ℕ} {c d : Char} {v : View}
  {j : ℕ} {w x text : Text} {time : T}

/-- The strings inserted for each tenant; a tenant that does not exist has none. -/
abbrev Strings := String → List Text

/-- A tenant owns the nodes on the way to its strings. -/
structure Spells (s : PrefixTree T) (v : View) (S : Strings) : Prop where
  owns : ∀ {u n}, v.live n → (s.Owns u n ↔ ∃ x ∈ S u, v.label n <+: x)
  ends : ∀ {u x}, x ∈ S u → ∃ n, v.live n ∧ v.label n = x
  tenants : ∀ u, s.HasTenant u ↔ S u ≠ []

/-- Before the visit of a node: the tenant owns the strict prefixes of its label as well. -/
structure SpellsStart (S : Strings) (t : String) (s : PrefixTree T) (v : View) (n : ℕ) : Prop where
  owns : ∀ {u m}, v.live m → (s.Owns u m ↔ (∃ x ∈ S u, v.label m <+: x) ∨
    (u = t ∧ v.label m <+: v.label n ∧ m ≠ n))
  ends : ∀ {u x}, x ∈ S u → ∃ m, v.live m ∧ v.label m = x

/-- After the visit of a node: the tenant owns all prefixes of its label. -/
structure SpellsMid (S : Strings) (t : String) (s : PrefixTree T) (v : View) (n : ℕ) : Prop where
  owns : ∀ {u m}, v.live m → (s.Owns u m ↔ (∃ x ∈ S u, v.label m <+: x) ∨
    (u = t ∧ v.label m <+: v.label n))
  ends : ∀ {u x}, x ∈ S u → ∃ m, v.live m ∧ v.label m = x

variable {S : Strings}

theorem SpellsStart.visit (h : SpellsStart S t s v n) :
    SpellsMid S t (s.visit t time n) (v.visit t n) n := by
  refine ⟨?_, h.ends⟩
  intro u m hm
  rw [show (s.visit t time n).Owns u m ↔ s.Owns u m ∨ (m = n ∧ u = t) from
    (SameTree.visit s t time n).owns.trans owns_touch, h.owns hm, or_assoc]
  refine or_congr Iff.rfl ?_
  constructor
  · rintro (⟨hu, hpre, _⟩ | ⟨rfl, hu⟩)
    · exact ⟨hu, hpre⟩
    · exact ⟨hu, List.prefix_rfl⟩
  · rintro ⟨hu, hpre⟩
    by_cases hmn : m = n
    · exact .inr ⟨hmn, hu⟩
    · exact .inl ⟨hu, hpre, hmn⟩

theorem SpellsMid.child (h : SpellsMid S t s v p)
    (hlabelled : Radix.Labelled (fun n => (s.nodes n).text) s.child? root v.live v.label)
    (hp : v.live p) (hm : s.child? p c = some m) : SpellsStart S t s v m := by
  refine ⟨?_, h.ends⟩
  intro u n hn
  rw [h.owns hn]
  refine or_congr Iff.rfl (and_congr_right (fun _ => ?_))
  have hppre : v.label p <+: v.label m := by
    rw [hlabelled.child_label hp hm]
    exact List.prefix_append ..
  constructor
  · intro hpre
    refine ⟨hpre.trans hppre, ?_⟩
    rintro rfl
    have hlt := hlabelled.child_label_lt hp hm
    have hle := hpre.length_le
    omega
  · rintro ⟨hpre, hnm⟩
    exact (hlabelled.label_prefix_child hp hm hn hpre).resolve_left hnm

/-- A new node inside or below an edge: its owners are those with a string through it. -/
theorem SpellsMid.grow {k : ℕ} {v' : View} (h : SpellsMid S t s v p)
    (hlabelled' : Radix.Labelled (fun n => (s'.nodes n).text) s'.child? root v'.live v'.label)
    (hlive : ∀ {n}, v'.live n ↔ v.live n ∨ n = k) (hk : ¬ v.live k)
    (hlabel : ∀ {n}, v.live n → v'.label n = v.label n)
    (howns : ∀ {u n}, v.live n → (s'.Owns u n ↔ s.Owns u n)) (hp : v.live p)
    (hedge : s'.child? p c = some k)
    (hnew : ∀ {u}, s'.Owns u k ↔ ∃ x ∈ S u, v'.label k <+: x) : SpellsStart S t s' v' k := by
  refine ⟨?_, ?_⟩
  · intro u n hn
    obtain hold | rfl := hlive.mp hn
    · have hnk : n ≠ k := fun heq => hk (heq ▸ hold)
      rw [howns hold, h.owns hold, hlabel hold]
      refine or_congr Iff.rfl (and_congr_right (fun _ => ?_))
      rw [and_iff_left hnk, ← hlabel hold, ← hlabel hp]
      constructor
      · intro hpre
        rw [hlabelled'.child_label (hlive.mpr (.inl hp)) hedge]
        exact hpre.trans (List.prefix_append ..)
      · intro hpre
        exact (hlabelled'.label_prefix_child (hlive.mpr (.inl hp)) hedge hn hpre).resolve_left hnk
    · rw [hnew, or_iff_left (fun hand => hand.2.2 rfl)]
  · intro u x hx
    obtain ⟨n, hn, rfl⟩ := h.ends hx
    exact ⟨n, hlive.mpr (.inl hn), hlabel hn⟩

theorem SpellsMid.addLeaf (h : SpellsMid S t s v p) (hinv : Inv s v none) (ht : s.HasTenant t)
    (hp : v.live p) (hnone : s.child? p c = none) (hw : w.head? = some c) :
    SpellsStart S t (s.addLeaf t p c w) (v.addLeaf t s.numNodes p w) s.numNodes := by
  have hk := hinv.shape.not_live_numNodes
  have hold : ∀ {n}, v.live n → n ≠ s.numNodes := fun hn heq => hk (heq ▸ hn)
  have hsame : SameTree (s.leafBase p c w) (s.addLeaf t p c w) := SameTree.insertNode ..
  refine h.grow (c := c) (hinv.addLeaf ht hp hnone hw).shape.labelled Iff.rfl hk ?_ ?_ hp ?_ ?_
  · exact fun hn => Function.update_of_ne (hold hn) ..
  · intro u n hn
    rw [hsame.owns, owns_leafBase, and_iff_right (hold hn)]
  · rw [hsame.child?, child?_leafBase (hold hp), if_pos ⟨rfl, rfl⟩]
  · -- a string through the new leaf would have had a child in its direction
    intro u
    rw [hsame.owns, owns_leafBase]
    refine iff_of_false (fun hand => hand.1 rfl) ?_
    rintro ⟨x, hx, hpre⟩
    obtain ⟨e, he, rfl⟩ := h.ends hx
    obtain ⟨r, rfl⟩ := Radix.exists_cons_of_head? hw
    have hlab : (v.addLeaf t s.numNodes p (c :: r)).label s.numNodes = v.label p ++ c :: r :=
      Function.update_self ..
    rw [hlab] at hpre
    obtain ⟨y, hy⟩ := hpre
    rw [List.append_assoc, List.cons_append] at hy
    obtain ⟨m, hm, _⟩ := hinv.shape.labelled.exists_child hp he hy.symm
    rw [hnone] at hm
    cases hm

theorem SpellsMid.split (h : SpellsMid S t s v p) (hinv : Inv s v none) (ht : s.HasTenant t)
    (hp : v.live p) (hm : s.child? p c = some m) (hj : 0 < j) (hlt : j < (s.nodes m).text.length) :
    SpellsStart S t (s.split t p c m j).1
      (v.split t s.numNodes p m ((s.nodes m).text.take j)) s.numNodes := by
  have hk := hinv.shape.not_live_numNodes
  have hold : ∀ {n}, v.live n → n ≠ s.numNodes := fun hn heq => hk (heq ▸ hn)
  have hlabelled := hinv.shape.labelled
  have hmlive := hlabelled.child_live hp hm
  obtain ⟨d, r, hr⟩ : ∃ d r, (s.nodes m).text.drop j = d :: r :=
    List.exists_cons_of_length_pos (by rw [List.length_drop]; omega)
  refine h.grow (c := c) (hinv.split ht hp hm hj hr).shape.labelled Iff.rfl hk ?_ ?_ hp ?_ ?_
  · exact fun hn => Function.update_of_ne (hold hn) ..
  · intro u n hn
    rw [owns_split hr (hold hmlive), if_neg (hold hn)]
  · rw [child?_split hr, if_pos ⟨rfl, rfl⟩]
  · -- every string through the new node goes on to the lower part
    intro u
    have hlab : (v.split t s.numNodes p m ((s.nodes m).text.take j)).label s.numNodes =
        v.label p ++ (s.nodes m).text.take j := Function.update_self ..
    rw [owns_split hr (hold hmlive), if_pos rfl, h.owns hmlive, hlab, or_iff_left]
    · constructor
      · rintro ⟨x, hx, hpre⟩
        refine ⟨x, hx, List.IsPrefix.trans ?_ hpre⟩
        rw [hlabelled.child_label hp hm]
        exact (List.prefix_append_right_inj _).mpr (List.take_prefix ..)
      · rintro ⟨x, hx, hpre⟩
        refine ⟨x, hx, ?_⟩
        obtain ⟨e, he, rfl⟩ := h.ends hx
        obtain ⟨r', hr'⟩ := Radix.exists_cons_of_head? (hlabelled.child_head hp hm)
        obtain ⟨i, rfl⟩ : ∃ i, j = i + 1 := ⟨j - 1, by omega⟩
        rw [hr', List.take_succ_cons] at hpre
        exact hlabelled.child_label_prefix hp hm he hpre
    · rintro ⟨_, hpre⟩
      have hlen := hpre.length_le
      have hlt' := hlabelled.child_label_lt hp hm
      omega

/-! ### The strings after a call -/

namespace Strings

/-- A new tenant has the empty string. -/
def addTenant (S : Strings) (t : String) : Strings :=
  if S t = [] then Function.update S t [[]] else S

/-- One string more for a tenant that exists. -/
def insert (S : Strings) (text : Text) (t : String) : Strings :=
  if S t = [] then S else Function.update S t (text :: S t)

/-- A removed tenant has no strings. -/
def removeTenant (S : Strings) (t : String) : Strings := Function.update S t []

end Strings

theorem SpellsMid.spells (h : SpellsMid S t s v n) (hn : v.live n)
    (htenants : ∀ u, s.HasTenant u ↔ u = t ∨ S u ≠ []) :
    Spells s v (Function.update S t (v.label n :: S t)) := by
  refine ⟨?_, ?_, ?_⟩
  · intro u m hm
    rw [h.owns hm, Function.update_apply]
    split_ifs with hu
    · subst hu
      rw [List.exists_mem_cons_iff, and_iff_right rfl, or_comm]
    · rw [or_iff_left (fun hand => hu hand.1)]
  · intro u x hx
    rw [Function.update_apply] at hx
    split_ifs at hx with hu
    · obtain rfl | hx := List.mem_cons.mp hx
      · exact ⟨n, hn, rfl⟩
      · exact h.ends hx
    · exact h.ends hx
  · intro u
    rw [htenants, Function.update_apply]
    split_ifs with hu
    · simp [hu]
    · simp [hu]

theorem Spells.start (h : Spells s v S) (hinv : Inv s v none) (t : String) :
    SpellsStart S t s v root := by
  refine ⟨?_, h.ends⟩
  intro u m hm
  rw [h.owns hm, or_iff_left]
  rintro ⟨_, hpre, hne⟩
  have hlabelled := hinv.shape.labelled
  rw [hlabelled.label_root, List.prefix_nil] at hpre
  exact hne (hlabelled.label_injective hm hinv.root_live (hpre.trans hlabelled.label_root.symm))

theorem Spells.insert (h : Spells s v S) (hinv : Inv s v none) (text : Text) (t : String) (time : T) :
    ∃ s' v', s.insert text t time = some s' ∧ Inv s' v' none ∧ Spells s' v' (S.insert text t) := by
  by_cases ht : s.HasTenant t
  · obtain ⟨s', v', n, hloop, hinv', hten, hlive, hlabel, hmid⟩ :=
      insertLoop_rule time (SpellsStart S t) (SpellsMid S t)
        (fun _ hst => hst.visit)
        (fun hi hp hm hmid => hmid.child hi.shape.labelled hp hm)
        (fun hi ht hp hnone hw hmid => hmid.addLeaf hi ht hp hnone hw)
        (fun hi ht hp hm hj hlt hmid => hmid.split hi ht hp hm hj hlt)
        (Nat.lt_succ_self text.length) (.start hinv ht)
        (by rw [hinv.shape.labelled.label_root, List.nil_append]) (h.start hinv t)
    have hne := (h.tenants t).mp ht
    refine ⟨s', v', ?_, hinv', ?_⟩
    · rw [PrefixTree.insert, if_neg (not_not.mpr ht), hloop]
    · rw [Strings.insert, if_neg hne, ← hlabel]
      refine hmid.spells hlive (fun u => ?_)
      rw [hten, h.tenants, or_iff_right_of_imp]
      rintro rfl
      exact hne
  · refine ⟨s, v, if_pos ht, hinv, ?_⟩
    rw [Strings.insert, if_pos (not_not.mp (fun hne => ht ((h.tenants t).mpr hne)))]
    exact h

theorem Spells.addTenant (h : Spells s v S) (hinv : Inv s v none) (t : String) (time : T) :
    ∃ s' v', s.addTenant t time = some s' ∧ Inv s' v' none ∧ Spells s' v' (S.addTenant t) := by
  by_cases ht : s.HasTenant t
  · refine ⟨s, v, if_pos ht, hinv, ?_⟩
    rw [Strings.addTenant, if_neg ((h.tenants t).mp ht)]
    exact h
  · have hat := AtNode.enroll hinv ht
    have hnil : S t = [] := not_not.mp (fun hne => ht ((h.tenants t).mpr hne))
    have hstart : SpellsStart S t (s.enroll t) (v.enroll t) root :=
      ⟨fun hm => owns_enroll.trans ((h.start hinv t).owns hm), h.ends⟩
    have hmid : SpellsMid S t ((s.enroll t).visit t time root) ((v.enroll t).visit t root) root :=
      hstart.visit
    have hspells := hmid.spells hinv.root_live (fun u => ?_)
    · refine ⟨_, _, addTenant_visit ht, hat.visit, ?_⟩
      rw [show ((v.enroll t).visit t root).label root = [] from hinv.shape.labelled.label_root, hnil]
        at hspells
      rw [Strings.addTenant, if_pos hnil]
      exact hspells
    · rw [hat.hasTenant_visit, hasTenant_enroll, h.tenants]

theorem Spells.removeTenant (h : Spells s v S) (hinv : Inv s v none) (t : String) :
    ∃ s' v' k, s.removeTenant t = some (s', k) ∧ Inv s' v' none ∧
      Spells s' v' (S.removeTenant t) := by
  by_cases ht : s.HasTenant t
  · obtain ⟨s', hrun, hinv', hten, _, htimes, _⟩ := hinv.removeTenant ht
    have howns : ∀ {u n}, u ≠ t → (s'.Owns u n ↔ s.Owns u n) := by
      intro u n hu
      rw [owns_iff, owns_iff, htimes n u hu]
    refine ⟨s', _, _, hrun, hinv', ?_, ?_, ?_⟩
    · intro u n hn
      rw [Strings.removeTenant, Function.update_apply]
      split_ifs with hu
      · refine iff_of_false (fun ho => ?_) (fun ⟨x, hx, _⟩ => List.not_mem_nil hx)
        exact ((hten u).mp (hinv'.tenant hn ho)).1 hu
      · rw [howns hu]
        exact h.owns hn.1
    · intro u x hx
      rw [Strings.removeTenant, Function.update_apply] at hx
      split_ifs at hx with hu
      · cases hx
      · obtain ⟨n, hn, rfl⟩ := h.ends hx
        have hown := (howns hu).mpr ((h.owns hn).mpr ⟨_, hx, List.prefix_rfl⟩)
        exact ⟨n, ⟨hn, .inr (fun hand => hown.not_empty hand.2)⟩, rfl⟩
    · intro u
      rw [hten, h.tenants, Strings.removeTenant, Function.update_apply]
      split_ifs with hu
      · simp [hu]
      · simp [hu]
  · refine ⟨s, v, 0, if_pos ht, hinv, ?_⟩
    have hnil : S t = [] := not_not.mp (fun hne => ht ((h.tenants t).mpr hne))
    rw [Strings.removeTenant, ← hnil, Function.update_eq_self]
    exact h

end RayTfm.Serve.PrefixTree
