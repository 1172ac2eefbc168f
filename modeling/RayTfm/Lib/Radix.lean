import Mathlib

/-! # Radix trees in a heap

A radix tree whose nodes live in a heap: `text` gives a node's piece of text and `child` its
children by first letter.  `Labelled` says that the live nodes form a radix tree below the root, in
which the label of a node is the text on its path from the root.

Labels name the live nodes (`Labelled.label_injective`), and whenever a label goes on below a node,
that node has a child in this direction, whose label the longer one passes through
(`Labelled.exists_child`).  Adding a leaf, splitting an edge and pruning keep the tree. -/

namespace RayTfm.Radix

variable {α ν : Type}

/-- The live nodes form a radix tree with these labels. -/
structure Labelled (text : ν → List α) (child : ν → α → Option ν) (root : ν) (live : ν → Prop)
    (label : ν → List α) : Prop where
  root_live : live root
  label_root : label root = []
  child_live : ∀ {p c m}, live p → child p c = some m → live m
  child_label : ∀ {p c m}, live p → child p c = some m → label m = label p ++ text m
  child_head : ∀ {p c m}, live p → child p c = some m → (text m).head? = some c
  reached : ∀ {m}, live m → m = root ∨ ∃ p c, live p ∧ child p c = some m

variable {text text' : ν → List α} {child child' : ν → α → Option ν} {root : ν} {live : ν → Prop}
  {label : ν → List α} {a b e m n p q : ν} {c d : α} {r u v w : List α}

theorem exists_cons_of_head? (h : w.head? = some c) : ∃ r, w = c :: r := by
  cases w with
  | nil => simp at h
  | cons d w =>
    rw [List.head?_cons, Option.some.injEq] at h
    exact ⟨w, by rw [h]⟩

namespace Labelled

/-- A child's label begins with the letter of its edge. -/
theorem child_label_cons (h : Labelled text child root live label) (hp : live p)
    (hm : child p c = some m) : ∃ r, label m = label p ++ c :: r := by
  obtain ⟨r, hr⟩ := exists_cons_of_head? (h.child_head hp hm)
  exact ⟨r, by rw [h.child_label hp hm, hr]⟩

theorem child_label_lt (h : Labelled text child root live label) (hp : live p)
    (hm : child p c = some m) : (label p).length < (label m).length := by
  obtain ⟨r, hr⟩ := h.child_label_cons hp hm
  rw [hr, List.length_append, List.length_cons]
  omega

theorem child_ne_root (h : Labelled text child root live label) (hp : live p)
    (hm : child p c = some m) : m ≠ root := by
  rintro rfl
  have hlt := h.child_label_lt hp hm
  rw [h.label_root, List.length_nil] at hlt
  omega

/-- Labels are injective and directed, for labels up to a length. -/
private def Directed (child : ν → α → Option ν) (live : ν → Prop) (label : ν → List α) (k : ℕ) :
    Prop :=
  (∀ a b, live a → live b → (label a).length ≤ k → label a = label b → a = b) ∧
  ∀ p e c r, live p → live e → (label e).length ≤ k → label e = label p ++ c :: r →
    ∃ m, child p c = some m ∧ live m ∧ label m <+: label e

/-- Where two labels lead to one word, one goes on below the other or they are equal. -/
private theorem label_cases (hu : u <+: w) (hv : v <+: w) :
    u = v ∨ (∃ c r, v = u ++ c :: r) ∨ ∃ c r, u = v ++ c :: r := by
  obtain ⟨x, rfl⟩ | ⟨x, rfl⟩ := List.prefix_or_prefix_of_prefix hu hv
  · cases x with
    | nil => exact .inl (List.append_nil u).symm
    | cons c x => exact .inr (.inl ⟨c, x, rfl⟩)
  · cases x with
    | nil => exact .inl (List.append_nil v)
    | cons c x => exact .inr (.inr ⟨c, x, rfl⟩)

/-- The letter after a common front is determined. -/
private theorem head_eq_of_prefix {s : List α} (h₁ : u ++ c :: r <+: w) (h₂ : u ++ d :: s <+: w) :
    c = d := by
  obtain ⟨x, rfl⟩ := h₁
  obtain ⟨y, hy⟩ := h₂
  rw [List.append_assoc, List.append_assoc, List.append_cancel_left_eq, List.cons_append,
    List.cons_append, List.cons.injEq] at hy
  exact hy.1.symm

private theorem directed_step (h : Labelled text child root live label) {k : ℕ}
    (ih : ∀ j < k, Directed child live label j) : Directed child live label k := by
  -- a strict ancestor's child towards a node is on the way to it
  have below : ∀ {p q c d r e}, live p → live q → live e → child q d = some e →
      (label e).length ≤ k → label p = label q ++ c :: r → label p <+: label e → p = e ∨
      (label e).length ≤ (label p).length := by
    intro p q c d r e hp hq he hchild hk hlp hpre
    obtain ⟨s, hs⟩ := h.child_label_cons hq hchild
    obtain hlt | hge := Nat.lt_or_ge (label p).length (label e).length
    · obtain ⟨m, hm, _, hmp⟩ := (ih (label p).length (by omega)).2 q p c r hq hp le_rfl hlp
      have hcd : c = d := head_eq_of_prefix (hlp ▸ hpre) (by rw [← hs])
      rw [hcd, hchild, Option.some.injEq] at hm
      exact .inr (hm ▸ hmp.length_le)
    · exact .inr hge
  constructor
  · intro a b ha hb hk heq
    obtain rfl | ⟨p, c, hp, hpc⟩ := h.reached ha
    · obtain rfl | ⟨q, d, hq, hqd⟩ := h.reached hb
      · rfl
      · have hlt := h.child_label_lt hq hqd
        rw [← heq, h.label_root, List.length_nil] at hlt
        omega
    · have hpa := h.child_label_lt hp hpc
      obtain rfl | ⟨q, d, hq, hqd⟩ := h.reached hb
      · rw [heq, h.label_root, List.length_nil] at hpa
        omega
      · have hqb := h.child_label_lt hq hqd
        obtain ⟨r, hr⟩ := h.child_label_cons hp hpc
        obtain ⟨s, hs⟩ := h.child_label_cons hq hqd
        have hpre : label p <+: label a := ⟨_, hr.symm⟩
        have hqre : label q <+: label a := ⟨_, (heq.trans hs).symm⟩
        obtain hpq | ⟨x, y, hpq⟩ | ⟨x, y, hpq⟩ := label_cases hpre hqre
        · have hsame := (ih (label p).length (by omega)).1 p q hp hq le_rfl hpq
          subst hsame
          have hcd : c = d := by
            rw [hr, hs, List.append_cancel_left_eq, List.cons.injEq] at heq
            exact heq.1
          rw [hcd, hqd, Option.some.injEq] at hpc
          exact hpc.symm
        · obtain hqa | hle := below hq hp ha hpc hk hpq hqre
          · rw [hqa, heq] at hqb
            omega
          · rw [heq] at hle
            omega
        · rw [heq] at hk hpre
          obtain hpb | hle := below hp hq hb hqd hk hpq hpre
          · rw [hpb, heq] at hpa
            omega
          · rw [← heq] at hle
            omega
  · intro p e c r hp he hk hle
    have hpe : (label p).length < (label e).length := by
      rw [hle, List.length_append, List.length_cons]
      omega
    obtain rfl | ⟨q, d, hq, hqd⟩ := h.reached he
    · rw [h.label_root, List.length_nil] at hpe
      omega
    · have hqe := h.child_label_lt hq hqd
      obtain ⟨s, hs⟩ := h.child_label_cons hq hqd
      have hpre : label p <+: label e := ⟨_, hle.symm⟩
      have hqre : label q <+: label e := ⟨_, hs.symm⟩
      obtain hpq | ⟨x, y, hpq⟩ | ⟨x, y, hpq⟩ := label_cases hpre hqre
      · have hsame := (ih (label p).length (by omega)).1 p q hp hq le_rfl hpq
        subst hsame
        have hcd : c = d := by
          rw [hle, List.append_cancel_left_eq, List.cons.injEq] at hs
          exact hs.1
        exact ⟨e, hcd ▸ hqd, he, List.prefix_rfl⟩
      · obtain ⟨m, hm, hlive, hmq⟩ :=
          (ih (label q).length (by omega)).2 p q x y hp hq le_rfl hpq
        have hcx : c = x := head_eq_of_prefix (w := label e) (by rw [hle]) (hpq ▸ hqre)
        exact ⟨m, hcx ▸ hm, hlive, hmq.trans hqre⟩
      · obtain hpb | hge := below hp hq he hqd hk hpq hpre
        · rw [hpb] at hpe
          omega
        · omega

private theorem directed (h : Labelled text child root live label) (k : ℕ) :
    Directed child live label k := by
  induction k using Nat.strong_induction_on with
  | _ k ih => exact directed_step h ih

/-- A live node is determined by its label. -/
theorem label_injective (h : Labelled text child root live label) (ha : live a) (hb : live b)
    (heq : label a = label b) : a = b :=
  (directed h (label a).length).1 a b ha hb le_rfl heq

/-- Where a label goes on below a node, the node has a child in that direction, on the way. -/
theorem exists_child (h : Labelled text child root live label) (hp : live p) (he : live e)
    (hle : label e = label p ++ c :: r) :
    ∃ m, child p c = some m ∧ live m ∧ label m <+: label e :=
  (directed h (label e).length).2 p e c r hp he le_rfl hle

/-- Every label beyond an edge passes through its end. -/
theorem child_label_prefix (h : Labelled text child root live label) (hp : live p)
    (hm : child p c = some m) (he : live e) (hle : label p ++ c :: r <+: label e) :
    label m <+: label e := by
  obtain ⟨w, hw⟩ := hle
  rw [List.append_assoc, List.cons_append] at hw
  obtain ⟨m', hm', _, hpre⟩ := h.exists_child hp he hw.symm
  rw [hm, Option.some.injEq] at hm'
  rw [hm']
  exact hpre

/-- No live node lies inside an edge. -/
theorem label_prefix_child (h : Labelled text child root live label) (hp : live p)
    (hm : child p c = some m) (hn : live n) (hpre : label n <+: label m) :
    n = m ∨ label n <+: label p := by
  obtain ⟨r, hr⟩ := h.child_label_cons hp hm
  have hppre : label p <+: label m := ⟨_, hr.symm⟩
  obtain heq | ⟨x, y, hnp⟩ | ⟨x, y, hpn⟩ := label_cases hpre hppre
  · exact .inr (heq ▸ List.prefix_rfl)
  · exact .inr ⟨_, hnp.symm⟩
  · have hcx : x = c := head_eq_of_prefix (hpn ▸ hpre) (by rw [hr])
    have hmn := h.child_label_prefix (r := y) hp hm hn (by rw [hpn, hcx])
    exact .inl (h.label_injective hn (h.child_live hp hm) (hpre.eq_of_length_le hmn.length_le))

theorem parent_unique (h : Labelled text child root live label) (hp : live p) (hq : live q)
    (hpm : child p c = some m) (hqm : child q d = some m) : p = q ∧ c = d := by
  have hpq : label p = label q := by
    have hlabel := h.child_label hp hpm
    rwa [h.child_label hq hqm, List.append_cancel_right_eq, eq_comm] at hlabel
  refine ⟨h.label_injective hp hq hpq, ?_⟩
  have hhead := h.child_head hp hpm
  rwa [h.child_head hq hqm, Option.some.injEq, eq_comm] at hhead

/-! ### Changing the tree -/

section
variable [DecidableEq ν]

theorem addLeaf (h : Labelled text child root live label) (hp : live p) (hm : ¬ live m)
    (hw : w.head? = some c) (hnone : child p c = none)
    (htext : ∀ n, n ≠ m → text' n = text n) (htextm : text' m = w)
    (hchild : child' p c = some m) (hchildm : ∀ d, child' m d = none)
    (hrest : ∀ n d, n ≠ m → ¬ (n = p ∧ d = c) → child' n d = child n d) :
    Labelled text' child' root (fun n => live n ∨ n = m)
      (Function.update label m (label p ++ w)) := by
  have hkeep : ∀ n, live n → Function.update label m (label p ++ w) n = label n := fun n hn =>
    Function.update_of_ne (fun heq : n = m => hm (heq ▸ hn)) ..
  -- an edge of the new tree is the new one or an old one
  have hedge : ∀ q d e, live q ∨ q = m → child' q d = some e →
      (q = p ∧ d = c ∧ e = m) ∨ (live q ∧ live e ∧ child q d = some e) := by
    intro q d e hq he
    by_cases hqm : q = m
    · rw [hqm, hchildm] at he
      cases he
    · have hlive := hq.resolve_right hqm
      by_cases hpc : q = p ∧ d = c
      · rw [hpc.1, hpc.2, hchild, Option.some.injEq] at he
        exact .inl ⟨hpc.1, hpc.2, he.symm⟩
      · rw [hrest q d hqm hpc] at he
        exact .inr ⟨hlive, h.child_live hlive he, he⟩
  refine ⟨.inl h.root_live, ?_, ?_, ?_, ?_, ?_⟩
  · rw [hkeep root h.root_live, h.label_root]
  · intro q d e hq he
    obtain ⟨_, _, hem⟩ | ⟨_, hlive, _⟩ := hedge q d e hq he
    · exact .inr hem
    · exact .inl hlive
  · intro q d e hq he
    obtain ⟨hqp, _, hem⟩ | ⟨hlive, helive, hold⟩ := hedge q d e hq he
    · rw [hqp, hem, Function.update_self, hkeep p hp, htextm]
    · rw [hkeep q hlive, hkeep e helive, htext e (fun heq => hm (heq ▸ helive)),
        h.child_label hlive hold]
  · intro q d e hq he
    obtain ⟨_, hdc, hem⟩ | ⟨hlive, helive, hold⟩ := hedge q d e hq he
    · rw [hem, htextm, hdc, hw]
    · rw [htext e (fun heq => hm (heq ▸ helive)), h.child_head hlive hold]
  · intro n hn
    obtain hn | hn := hn
    · refine (h.reached hn).imp_right ?_
      rintro ⟨q, d, hq, hqd⟩
      refine ⟨q, d, .inl hq, ?_⟩
      rw [hrest q d (fun heq => hm (heq ▸ hq)), hqd]
      rintro ⟨rfl, rfl⟩
      rw [hnone] at hqd
      cases hqd
    · exact .inr ⟨p, c, .inl hp, hn ▸ hchild⟩

theorem split (h : Labelled text child root live label) (hp : live p) (hk : ¬ live n)
    (hm : child p c = some m) (huv : text m = u ++ v) (hu : u ≠ []) (hv : v.head? = some d)
    (htextn : text' n = u) (htextm : text' m = v)
    (htext : ∀ e, e ≠ n → e ≠ m → text' e = text e)
    (hchild : child' p c = some n) (hchildn : child' n d = some m)
    (hchildn' : ∀ b, b ≠ d → child' n b = none)
    (hrest : ∀ e b, e ≠ n → ¬ (e = p ∧ b = c) → child' e b = child e b) :
    Labelled text' child' root (fun e => live e ∨ e = n)
      (Function.update label n (label p ++ u)) := by
  have hmlive := h.child_live hp hm
  have hkeep : ∀ e, live e → Function.update label n (label p ++ u) e = label e := fun e he =>
    Function.update_of_ne (fun heq : e = n => hk (heq ▸ he)) ..
  have hmlabel : label m = label p ++ u ++ v := by
    rw [h.child_label hp hm, huv, List.append_assoc]
  have hne : ∀ {e}, live e → e ≠ n := fun he heq => hk (heq ▸ he)
  -- an edge of the new tree is one of the two parts or an old one
  have hedge : ∀ q b e, live q ∨ q = n → child' q b = some e →
      (q = p ∧ b = c ∧ e = n) ∨ (q = n ∧ b = d ∧ e = m) ∨
        (live q ∧ live e ∧ e ≠ m ∧ child q b = some e) := by
    intro q b e hq he
    by_cases hqn : q = n
    · by_cases hbd : b = d
      · rw [hqn, hbd, hchildn, Option.some.injEq] at he
        exact .inr (.inl ⟨hqn, hbd, he.symm⟩)
      · rw [hqn, hchildn' b hbd] at he
        cases he
    · have hlive := hq.resolve_right hqn
      by_cases hpc : q = p ∧ b = c
      · rw [hpc.1, hpc.2, hchild, Option.some.injEq] at he
        exact .inl ⟨hpc.1, hpc.2, he.symm⟩
      · rw [hrest q b hqn hpc] at he
        refine .inr (.inr ⟨hlive, h.child_live hlive he, ?_, he⟩)
        rintro rfl
        exact hpc (h.parent_unique hlive hp he hm)
  refine ⟨.inl h.root_live, ?_, ?_, ?_, ?_, ?_⟩
  · rw [hkeep root h.root_live, h.label_root]
  · intro q b e hq he
    obtain ⟨_, _, hen⟩ | ⟨_, _, hem⟩ | ⟨_, hlive, _⟩ := hedge q b e hq he
    · exact .inr hen
    · exact .inl (hem ▸ hmlive)
    · exact .inl hlive
  · intro q b e hq he
    obtain ⟨hqp, _, hen⟩ | ⟨hqn, _, hem⟩ | ⟨hlive, helive, hem, hold⟩ := hedge q b e hq he
    · rw [hqp, hen, Function.update_self, hkeep p hp, htextn]
    · rw [hqn, hem, Function.update_self, hkeep m hmlive, htextm, hmlabel]
    · rw [hkeep q hlive, hkeep e helive, htext e (hne helive) hem, h.child_label hlive hold]
  · intro q b e hq he
    obtain ⟨_, hbc, hen⟩ | ⟨_, hbd, hem⟩ | ⟨hlive, helive, hem, hold⟩ := hedge q b e hq he
    · have hhead := h.child_head hp hm
      rw [huv, List.head?_append_of_ne_nil _ hu] at hhead
      rw [hen, htextn, hbc, hhead]
    · rw [hem, htextm, hbd, hv]
    · rw [htext e (hne helive) hem, h.child_head hlive hold]
  · intro e he
    obtain he | he := he
    · by_cases hem : e = m
      · exact .inr ⟨n, d, .inr rfl, hem ▸ hchildn⟩
      · refine (h.reached he).imp_right ?_
        rintro ⟨q, b, hq, hqb⟩
        refine ⟨q, b, .inl hq, ?_⟩
        rw [hrest q b (hne hq), hqb]
        rintro ⟨rfl, rfl⟩
        rw [hm, Option.some.injEq] at hqb
        exact hem hqb.symm
    · exact .inr ⟨p, c, .inl hp, he ▸ hchild⟩

end

/-- Part of the nodes are cut off, together with all below them. -/
theorem prune (h : Labelled text child root live label) {live' : ν → Prop}
    (hsub : ∀ n, live' n → live n) (hroot : live' root)
    (hup : ∀ p c m, live p → child p c = some m → live' m → live' p)
    (hchild : ∀ p c m, live p → (child' p c = some m ↔ child p c = some m ∧ live' m)) :
    Labelled text child' root live' label := by
  refine ⟨hroot, h.label_root, ?_, ?_, ?_, ?_⟩
  · intro p c m hp hm
    exact ((hchild p c m (hsub p hp)).mp hm).2
  · intro p c m hp hm
    exact h.child_label (hsub p hp) ((hchild p c m (hsub p hp)).mp hm).1
  · intro p c m hp hm
    exact h.child_head (hsub p hp) ((hchild p c m (hsub p hp)).mp hm).1
  · intro m hm
    refine (h.reached (hsub m hm)).imp_right ?_
    rintro ⟨p, c, hp, hpc⟩
    exact ⟨p, c, hup p c m hp hpc hm, (hchild p c m hp).mpr ⟨hpc, hm⟩⟩

end Labelled
end RayTfm.Radix
