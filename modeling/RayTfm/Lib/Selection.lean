import RayTfm.Lib.Sorting

/-! # The first of a stable sort

The first entry of a list that is sorted by a key is the one that leads all others: it has the least
key, and of the entries with this key it stands first (`head?_sortBy_eq_some_iff`).  If only some of
the entries are sorted, the same entry comes first if and only if each of the others is led by one
that was kept (`head?_sortBy_filter`). -/

namespace RayTfm

variable {α K : Type} [LinearOrder K] {key : α → K} {pos : α → ℕ} {l : List α} {m a : α}

/-- The entry `m` comes before `a` in the sorted list; `pos` is the place in the list that is
sorted. -/
def Leads (key : α → K) (pos : α → ℕ) (m a : α) : Prop := key m < key a ∨ key m ≤ key a ∧ pos m < pos a

theorem Leads.asymm (h : Leads key pos m a) : ¬ Leads key pos a m := by
  rintro (hlt | ⟨hle, hpos⟩)
  · obtain h | ⟨h, -⟩ := h
    · exact absurd h (not_lt.mpr hlt.le)
    · exact absurd h (not_le.mpr hlt)
  · obtain h | ⟨-, h⟩ := h
    · exact absurd h (not_lt.mpr hle)
    · omega

/-- The first entry of the sorted list leads the others. -/
theorem leads_of_head? (hl : l.Pairwise (fun a b => pos a < pos b))
    (h : (sortBy key l).head? = some m) :
    m ∈ l ∧ ∀ a ∈ l, a ≠ m → Leads key pos m a := by
  have hsort := isStableSort_sortBy key l
  obtain ⟨rest, hrest⟩ := List.head?_eq_some_iff.mp h
  have hmem : m ∈ l := hsort.perm.mem_iff.mp (by rw [hrest]; exact List.mem_cons_self)
  refine ⟨hmem, fun a ha hne => ?_⟩
  have ha' : a ∈ m :: rest := hrest ▸ hsort.perm.mem_iff.mpr ha
  have hsorted := hsort.sorted
  rw [hrest, List.pairwise_cons] at hsorted
  have hle : key m ≤ key a := hsorted.1 a ((List.mem_cons.mp ha').resolve_left hne)
  by_cases hlt : key m < key a
  · exact .inl hlt
  -- of the entries with the same key, `m` stands first in both lists
  have hkey : key a = key m := le_antisymm (not_lt.mp hlt) hle
  have hstable := hsort.stable (key m)
  rw [hrest, List.filter_cons_of_pos (by simp)] at hstable
  have hpos := hl.filter (fun a => decide (key a = key m))
  rw [← hstable, List.pairwise_cons] at hpos
  have hfilter : a ∈ l.filter (fun a => decide (key a = key m)) :=
    List.mem_filter.mpr ⟨ha, by simp [hkey]⟩
  rw [← hstable] at hfilter
  exact .inr ⟨hle, hpos.1 a ((List.mem_cons.mp hfilter).resolve_left hne)⟩

theorem head?_sortBy_eq_none_iff : (sortBy key l).head? = none ↔ l = [] := by
  rw [List.head?_eq_none_iff]
  constructor
  · intro h
    have hperm := (isStableSort_sortBy key l).perm
    rw [h] at hperm
    exact hperm.symm.eq_nil
  · rintro rfl
    rfl

theorem head?_sortBy_eq_some_iff (hl : l.Pairwise (fun a b => pos a < pos b)) :
    (sortBy key l).head? = some m ↔ m ∈ l ∧ ∀ a ∈ l, a ≠ m → Leads key pos m a := by
  refine ⟨leads_of_head? hl, ?_⟩
  rintro ⟨hmem, hleads⟩
  cases h : (sortBy key l).head? with
  | none =>
    rw [head?_sortBy_eq_none_iff] at h
    rw [h] at hmem
    cases hmem
  | some m' =>
    obtain ⟨hmem', hleads'⟩ := leads_of_head? hl h
    by_cases heq : m' = m
    · rw [heq]
    · exact absurd (hleads m' hmem' heq) (hleads' m hmem (Ne.symm heq)).asymm

/-- Sorting only some entries brings the same one to the front if and only if they lead the
others. -/
theorem head?_sortBy_filter (hl : l.Pairwise (fun a b => pos a < pos b)) (p : α → Bool) :
    (sortBy key (l.filter p)).head? = (sortBy key l).head? ↔
      ∀ a ∈ l, p a = false → ∃ b ∈ l, p b = true ∧ Leads key pos b a := by
  constructor
  · intro h a ha hpa
    cases hm : (sortBy key l).head? with
    | none =>
      rw [head?_sortBy_eq_none_iff] at hm
      rw [hm] at ha
      cases ha
    | some m =>
      obtain ⟨hmem, hleads⟩ := leads_of_head? hl hm
      rw [hm] at h
      obtain ⟨hmem', -⟩ := leads_of_head? (hl.filter p) h
      have hpm := (List.mem_filter.mp hmem').2
      refine ⟨m, hmem, hpm, hleads a ha ?_⟩
      rintro rfl
      rw [hpa] at hpm
      cases hpm
  · intro h
    cases hm : (sortBy key l).head? with
    | none =>
      rw [head?_sortBy_eq_none_iff] at hm ⊢
      rw [hm]
      rfl
    | some m =>
      obtain ⟨hmem, hleads⟩ := leads_of_head? hl hm
      rw [head?_sortBy_eq_some_iff (hl.filter p)]
      have hpm : p m = true := by
        by_contra hpm
        obtain ⟨b, hb, hpb, hlead⟩ := h m hmem (Bool.of_not_eq_true hpm)
        have hne : b ≠ m := by
          rintro rfl
          exact hpm hpb
        exact hlead.asymm (hleads b hb hne)
      exact ⟨List.mem_filter.mpr ⟨hmem, hpm⟩, fun a ha => hleads a (List.mem_of_mem_filter ha)⟩

end RayTfm
