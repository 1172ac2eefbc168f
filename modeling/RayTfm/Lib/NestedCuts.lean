import RayTfm.Lib.Merging

/-! # Cutting sorted lists at the same places

A predicate that holds of a front of a sorted list cuts it in two (`Front`).  Several such
predicates, each implied by the one before, cut several lists into ranges: the slices of one list at
the counts of the predicates are its rows in each range (`slicesAt_fronts`), together the ranges
have all rows (`ranges_perm`), and sorting each range sorts the whole
(`pairwise_flatten_ranges`). -/

namespace RayTfm

variable {α : Type}

/-! ### Fronts -/

/-- The predicate holds of a front of the list. -/
def Front (p : α → Bool) (l : List α) : Prop := l.Pairwise (fun a b => p b = true → p a = true)

variable {p : α → Bool} {l : List α}
variable {a : α}

theorem Front.cons_false (h : Front p (a :: l)) (ha : p a = false) :
    ∀ b ∈ l, p b = false := by
  intro b hb
  by_contra hpb
  rw [Bool.not_eq_false] at hpb
  rw [(List.pairwise_cons.mp h).1 b hb hpb] at ha
  cases ha

theorem Front.take_countP (h : Front p l) : l.take (l.countP p) = l.filter p := by
  induction l with
  | nil => rfl
  | cons a l ih =>
    cases ha : p a with
    | true =>
      rw [List.countP_cons_of_pos ha, List.take_succ_cons, List.filter_cons_of_pos ha,
        ih (List.pairwise_cons.mp h).2]
    | false =>
      have hnone := h.cons_false ha
      rw [List.countP_cons_of_neg (by simp [ha]),
        List.countP_eq_zero.mpr (fun b hb => by simp [hnone b hb]),
        List.filter_cons_of_neg (by simp [ha]),
        List.filter_eq_nil_iff.mpr (fun b hb => by simp [hnone b hb])]
      rfl

theorem Front.takeWhile (h : Front p l) : l.takeWhile p = l.filter p := by
  induction l with
  | nil => rfl
  | cons a l ih =>
    cases ha : p a with
    | true =>
      rw [List.takeWhile_cons_of_pos ha, List.filter_cons_of_pos ha, ih (List.pairwise_cons.mp h).2]
    | false =>
      have hnone := h.cons_false ha
      rw [List.takeWhile_cons_of_neg (by simp [ha]), List.filter_cons_of_neg (by simp [ha]),
        List.filter_eq_nil_iff.mpr (fun b hb => by simp [hnone b hb])]

variable {q : α → Bool}

/-- What a scan of mapped rows takes, if it takes a front. -/
theorem length_takeWhile_map {β : Type} {p : β → Bool} {f : α → β} (hq : Front q l)
    (h : ∀ a ∈ l, p (f a) = q a) : ((l.map f).takeWhile p).length = l.countP q := by
  have hfront : Front (p ∘ f) l := hq.imp_of_mem (fun {a b} ha hb hab hpb => by
    rw [Function.comp_apply, h a ha]
    rw [Function.comp_apply, h b hb] at hpb
    exact hab hpb)
  rw [List.takeWhile_map, List.length_map, hfront.takeWhile, ← List.countP_eq_length_filter]
  exact List.countP_congr (fun a ha => by rw [Function.comp_apply, h a ha])

/-- Backwards the scan takes what is not in the front. -/
theorem length_takeWhile_map_reverse {β : Type} {p : β → Bool} {f : α → β}
    (hq : Front q l) (h : ∀ a ∈ l, p (f a) = !q a) :
    (l.map f).length - ((l.map f).reverse.takeWhile p).length = l.countP q := by
  have hfront : Front (fun a => !q a) l.reverse := by
    refine List.pairwise_reverse.mpr (hq.imp (fun {a b} hab hb => ?_))
    rw [Bool.not_eq_true'] at hb ⊢
    by_contra ha
    rw [Bool.not_eq_false] at ha
    rw [hab ha] at hb
    cases hb
  rw [← List.map_reverse, length_takeWhile_map hfront (fun a ha => h a (List.mem_reverse.mp ha)),
    List.countP_reverse, List.length_map, List.length_eq_countP_add_countP q (l := l)]
  have hnot : l.countP (fun a => !q a) = l.countP (fun a => ¬ q a = true) :=
    List.countP_congr (fun a _ => by simp)
  omega

theorem Front.segment (hp : Front p l) (hq : Front q l) :
    segment l (l.countP p) (l.countP q) = l.filter (fun a => !p a && q a) := by
  unfold RayTfm.segment
  rw [hq.take_countP]
  induction l with
  | nil => rfl
  | cons a l ih =>
    have ih := ih (List.pairwise_cons.mp hp).2 (List.pairwise_cons.mp hq).2
    cases ha : p a with
    | true =>
      rw [List.countP_cons_of_pos ha,
        List.filter_cons_of_neg (p := fun a => !p a && q a) (by simp [ha])]
      cases hb : q a with
      | true => rw [List.filter_cons_of_pos hb, List.drop_succ_cons, ih]
      | false =>
        have hnone := hq.cons_false hb
        rw [List.filter_cons_of_neg (by simp [hb]),
          List.filter_eq_nil_iff.mpr (fun b hb => by simp [hnone b hb]),
          List.filter_eq_nil_iff.mpr (fun b hb => by simp [hnone b hb]), List.drop_nil]
    | false =>
      have hnone := hp.cons_false ha
      have hall : ∀ b ∈ a :: l, p b = false := by
        rw [List.forall_mem_cons]
        exact ⟨ha, hnone⟩
      rw [List.countP_eq_zero.mpr (fun b hb => by simp [hall b hb]), List.drop_zero]
      exact List.filter_congr (fun b hb => by simp [hall b hb])

/-- Of two fronts the one with fewer rows is in the other. -/
theorem Front.of_countP_le (hp : Front p l) (hq : Front q l)
    (hle : l.countP p ≤ l.countP q) : ∀ a ∈ l, p a = true → q a = true := by
  intro a ha hpa
  have hmem : a ∈ l.take (l.countP p) := by
    rw [hp.take_countP]
    exact List.mem_filter.mpr ⟨ha, hpa⟩
  have hmem' := List.take_subset_take_left l hle hmem
  rw [hq.take_countP] at hmem'
  exact (List.mem_filter.mp hmem').2

/-! ### Ranges -/

/-- The rows that are not before the first predicate, between each predicate and the next, and after
the last. -/
def rangesFrom (p : α → Bool) : List (α → Bool) → List α → List (List α)
  | [], l => [l.filter (fun a => !p a)]
  | q :: ps, l => l.filter (fun a => !p a && q a) :: rangesFrom q ps l

/-- The ranges between predicates. -/
def ranges (ps : List (α → Bool)) (l : List α) : List (List α) := rangesFrom (fun _ => false) ps l

@[simp] theorem length_rangesFrom (p : α → Bool) (ps : List (α → Bool)) (l : List α) :
    (rangesFrom p ps l).length = ps.length + 1 := by
  induction ps generalizing p with
  | nil => rfl
  | cons q ps ih => exact congrArg (· + 1) (ih q)

@[simp] theorem length_ranges (ps : List (α → Bool)) (l : List α) :
    (ranges ps l).length = ps.length + 1 :=
  length_rangesFrom _ ps l

variable {ps : List (α → Bool)}

/-- The slices of a list at the counts of fronts are the ranges between them. -/
theorem slicesAt_fronts (h : ∀ p ∈ ps, Front p l) :
    slicesAt l (0 :: (ps.map (fun p => l.countP p) ++ [l.length])) = ranges ps l := by
  have hfrom : ∀ (ps : List (α → Bool)) (p : α → Bool), Front p l → (∀ q ∈ ps, Front q l) →
      slicesAt l (l.countP p :: (ps.map (fun p => l.countP p) ++ [l.length])) = rangesFrom p ps l := by
    intro ps
    induction ps with
    | nil =>
      intro p hp _
      have htrue : Front (fun _ : α => true) l := List.pairwise_of_forall (fun _ _ h => h)
      have hsegment := hp.segment htrue
      simp only [List.countP_true, Bool.and_true] at hsegment
      show [segment l (l.countP p) l.length] = [_]
      rw [hsegment]
    | cons q ps ih =>
      intro p hp hps
      rw [List.forall_mem_cons] at hps
      rw [List.map_cons, List.cons_append, slicesAt_cons_cons, ih q hps.1 hps.2, hp.segment hps.1]
      rfl
  have hfalse : Front (fun _ : α => false) l := List.pairwise_of_forall (fun _ _ h => h)
  have h := hfrom ps _ hfalse h
  rw [List.countP_false] at h
  exact h

/-- Cutting several lists and putting the pieces of each range together is cutting all rows. -/
theorem getElem?_ranges_flatten (ps : List (α → Bool)) (ls : List (List α)) {j : ℕ}
    (hj : j ≤ ps.length) :
    (ranges ps ls.flatten)[j]? = some (ls.flatMap (fun l => ((ranges ps l)[j]?).getD [])) := by
  have hfrom : ∀ (ps : List (α → Bool)) (p : α → Bool) (j : ℕ), j ≤ ps.length →
      (rangesFrom p ps ls.flatten)[j]? =
        some (ls.flatMap (fun l => ((rangesFrom p ps l)[j]?).getD [])) := by
    intro ps
    induction ps with
    | nil =>
      intro p j hj
      obtain rfl : j = 0 := Nat.le_zero.mp hj
      show some (ls.flatten.filter (fun a => !p a)) =
        some (ls.flatMap (fun l => l.filter (fun a => !p a)))
      rw [List.filter_flatten, List.flatMap_def]
    | cons q ps ih =>
      intro p j hj
      cases j with
      | zero =>
        show some (ls.flatten.filter (fun a => !p a && q a)) =
          some (ls.flatMap (fun l => l.filter (fun a => !p a && q a)))
        rw [List.filter_flatten, List.flatMap_def]
      | succ j => exact ih q j (Nat.le_of_succ_le_succ hj)
  exact hfrom ps _ j hj

/-- Each predicate is implied by the one before, on the rows. -/
def Nested (ps : List (α → Bool)) (l : List α) : Prop :=
  ps.Pairwise (fun p q => ∀ a ∈ l, p a = true → q a = true)

/-- Nested predicates lose no rows and double none. -/
theorem ranges_perm (h : Nested ps l) : (ranges ps l).flatten.Perm l := by
  have hfrom : ∀ (ps : List (α → Bool)) (p : α → Bool), Nested (p :: ps) l →
      (rangesFrom p ps l).flatten.Perm (l.filter (fun a => !p a)) := by
    intro ps
    induction ps with
    | nil =>
      intro p _
      show (l.filter _ ++ []).Perm _
      rw [List.append_nil]
    | cons q ps ih =>
      intro p hps
      obtain ⟨hpq, hps⟩ := List.pairwise_cons.mp hps
      have hrest := ih q hps
      have hfirst : l.filter (fun a => !p a && q a) = (l.filter (fun a => !p a)).filter q := by
        rw [List.filter_filter]
        exact List.filter_congr (fun a _ => Bool.and_comm _ _)
      have hlast : l.filter (fun a => !q a) = (l.filter (fun a => !p a)).filter (fun a => !q a) := by
        rw [List.filter_filter]
        refine List.filter_congr (fun a ha => ?_)
        have hpqa := hpq q (.head _) a ha
        cases hp : p a with
        | false => rw [Bool.not_false, Bool.and_true]
        | true => rw [hpqa hp]; rfl
      show (l.filter (fun a => !p a && q a) ++ (rangesFrom q ps l).flatten).Perm _
      rw [hlast] at hrest
      rw [hfirst]
      exact (hrest.append_left _).trans (List.filter_append_perm q _)
  have hnested : Nested ((fun _ => false) :: ps) l :=
    List.pairwise_cons.mpr ⟨fun q _ a _ h => (nomatch h), h⟩
  have hperm := hfrom ps _ hnested
  rwa [List.filter_eq_self.mpr (fun a _ => show (!false) = true from rfl)] at hperm

variable {part : List α}

theorem mem_rangesFrom (hpart : part ∈ rangesFrom p ps l) (ha : a ∈ part) : a ∈ l := by
  induction ps generalizing p with
  | nil =>
    obtain rfl := List.mem_singleton.mp hpart
    exact (List.mem_filter.mp ha).1
  | cons q ps ih =>
    obtain rfl | hpart := List.mem_cons.mp hpart
    · exact (List.mem_filter.mp ha).1
    · exact ih hpart

/-- What comes in a later range is not before an earlier predicate. -/
theorem not_of_mem_rangesFrom (h : Nested (p :: ps) l)
    (hpart : part ∈ rangesFrom p ps l) (ha : a ∈ part) : p a = false := by
  induction ps generalizing p with
  | nil =>
    obtain rfl := List.mem_singleton.mp hpart
    simpa using (List.mem_filter.mp ha).2
  | cons q ps ih =>
    obtain ⟨hpq, hps⟩ := List.pairwise_cons.mp h
    obtain rfl | hpart := List.mem_cons.mp hpart
    · have hboth := (List.mem_filter.mp ha).2
      rw [Bool.and_eq_true, Bool.not_eq_true'] at hboth
      exact hboth.1
    · by_contra hpa
      rw [Bool.not_eq_false] at hpa
      have hqa := hpq q (.head _) a (mem_rangesFrom hpart ha) hpa
      rw [ih hps hpart] at hqa
      cases hqa

/-- An element is in the range after the predicates that it is not before. -/
theorem index_eq_countP (h : Nested ps l) {j : ℕ}
    (hpart : (ranges ps l)[j]? = some part) (ha : a ∈ part) : j = ps.countP (fun p => !p a) := by
  have hfrom : ∀ (ps : List (α → Bool)) (p : α → Bool), Nested (p :: ps) l → ∀ (j : ℕ) (part : List α),
      (rangesFrom p ps l)[j]? = some part → a ∈ part → j = ps.countP (fun p => !p a) := by
    intro ps
    induction ps with
    | nil =>
      intro p _ j part hpart _
      cases j with
      | zero => rfl
      | succ j => cases hpart
    | cons q ps ih =>
      intro p hps j part hpart ha
      have hqs := (List.pairwise_cons.mp hps).2
      cases j with
      | zero =>
        cases hpart
        obtain ⟨hal, hboth⟩ := List.mem_filter.mp ha
        rw [Bool.and_eq_true] at hboth
        have hall : ∀ p' ∈ q :: ps, p' a = true := by
          rw [List.forall_mem_cons]
          exact ⟨hboth.2, fun p' hp' => (List.pairwise_cons.mp hqs).1 p' hp' a hal hboth.2⟩
        exact (List.countP_eq_zero.mpr (fun p' hp' => by simp [hall p' hp'])).symm
      | succ j =>
        have hqa := not_of_mem_rangesFrom hqs (List.mem_of_getElem? hpart) ha
        rw [List.countP_cons_of_pos (by simp [hqa]), ← ih q hqs j part hpart ha]
  exact hfrom ps (fun _ => false) (List.pairwise_cons.mpr ⟨fun q _ a _ h => (nomatch h), h⟩) j
    part hpart ha

/-- Sorting each range sorts all: an order for which the predicates are fronts is kept across
ranges. -/
theorem pairwise_flatten_ranges {le : α → α → Prop} (htotal : ∀ a b, le a b ∨ le b a)
    {sort : List α → List α}
    (hperm : ∀ l, (sort l).Perm l) (hsorted : ∀ l, (sort l).Pairwise le)
    (hnested : Nested ps l) (hfront : ∀ p ∈ ps, ∀ a ∈ l, ∀ b ∈ l, le a b → p b = true → p a = true) :
    ((ranges ps l).map sort).flatten.Pairwise le := by
  have hfrom : ∀ (ps : List (α → Bool)) (p : α → Bool), Nested (p :: ps) l →
      (∀ p ∈ ps, ∀ a ∈ l, ∀ b ∈ l, le a b → p b = true → p a = true) →
      ((rangesFrom p ps l).map sort).flatten.Pairwise le := by
    intro ps
    induction ps with
    | nil =>
      intro p _ _
      show (sort _ ++ []).Pairwise le
      rw [List.append_nil]
      exact hsorted _
    | cons q ps ih =>
      intro p hps hfront
      rw [List.forall_mem_cons] at hfront
      have hps := (List.pairwise_cons.mp hps).2
      show (sort _ ++ ((rangesFrom q ps l).map sort).flatten).Pairwise le
      rw [List.pairwise_append]
      refine ⟨hsorted _, ih q hps hfront.2, fun a ha b hb => ?_⟩
      rw [(hperm _).mem_iff, List.mem_filter, Bool.and_eq_true] at ha
      obtain ⟨part, hpart, hb⟩ := List.mem_flatten.mp hb
      obtain ⟨part', hpart', rfl⟩ := List.mem_map.mp hpart
      rw [(hperm _).mem_iff] at hb
      have hqb := not_of_mem_rangesFrom hps hpart' hb
      obtain hab | hba := htotal a b
      · exact hab
      · have hqb' := hfront.1 b (mem_rangesFrom hpart' hb) a ha.1 hba ha.2.2
        rw [hqb] at hqb'
        cases hqb'
  exact hfrom ps _ (List.pairwise_cons.mpr ⟨fun q _ a _ h => (nomatch h), hnested⟩) hfront

end RayTfm
