import RayTfm.Lib.Dict

/-! # Dictionaries of dictionaries

A table with two keys is a dictionary of dictionaries in which no inner one is empty: `insert` makes
an inner dictionary for a new first key, and `remove` erases one that has become empty.  `items` are
the entries with both keys; an insertion adds one of them, a removal takes one away.

`begin?` is the entry with the least key, which is the first one of a sorted map. -/

namespace RayTfm

namespace Dict

variable {K V : Type}

section
variable [LinearOrder K]

/-- The entry with the least key. -/
def begin? (d : Dict K V) : Option (K × V) := d.entries.argmin Prod.fst

theorem get?_of_begin? {d : Dict K V} {k : K} {v : V} (h : d.begin? = some (k, v)) :
    d.get? k = some v := get?_eq_some_iff.mpr (List.argmin_mem h)

end

variable [DecidableEq K]

theorem entries_erase_set (d : Dict K V) (k : K) (v : V) :
    ((d.set k v).erase k).entries = (d.erase k).entries := by
  rw [entries_erase, entries_erase]
  by_cases hk : k ∈ d.keys
  · rw [entries_set_of_mem v hk]
    induction d.entries with
    | nil => rfl
    | cons e l ih =>
      rw [List.map_cons, List.filter_cons, List.filter_cons, ih]
      by_cases hek : e.1 = k
      · simp [hek]
      · simp [hek]
  · rw [entries_set_of_notMem v hk, List.filter_append, List.filter_cons_of_neg (by simp),
      List.filter_nil, List.append_nil]

theorem perm_set (d : Dict K V) (k : K) (v : V) :
    (d.set k v).entries.Perm ((k, v) :: (d.erase k).entries) := by
  rw [← entries_erase_set d k v]
  exact perm_erase (get?_set_self d k v)

theorem sum_set {M : Type} [AddCommMonoid M] (d : Dict K V) (k : K) (v : V) (f : K → V → M) :
    (d.set k v).sum f = f k v + (d.erase k).sum f := by
  rw [sum, (List.Perm.map (fun e => f e.1 e.2) (perm_set d k v)).sum_eq, List.map_cons, List.sum_cons]
  rfl

/-- Dictionaries with the same lookups have the same entries in some order. -/
theorem perm_of_get?_eq {d d' : Dict K V} (h : ∀ k, d.get? k = d'.get? k) :
    d.entries.Perm d'.entries := by
  have hnodup : ∀ d : Dict K V, d.entries.Nodup := fun d => List.Nodup.of_map Prod.fst d.nodup
  refine (List.perm_ext_iff_of_nodup (hnodup d) (hnodup d')).mpr (fun e => ?_)
  rw [← get?_eq_some_iff (d := d), ← get?_eq_some_iff (d := d'), h]

theorem get?_eq_of_perm {d d' : Dict K V} (h : d.entries.Perm d'.entries) (k : K) :
    d.get? k = d'.get? k := by
  apply Option.ext
  intro v
  rw [get?_eq_some_iff, get?_eq_some_iff, h.mem_iff]

theorem erase_of_get?_eq_none {d : Dict K V} {k : K} (h : d.get? k = none) : d.erase k = d := by
  apply Dict.ext
  rw [entries_erase, List.filter_eq_self]
  intro e he
  refine decide_eq_true (fun hk => get?_eq_none_iff.mp h ?_)
  exact hk ▸ List.mem_map_of_mem he

end Dict

namespace Nested

variable {K L V : Type} {m : Dict K (Dict L V)} {k k' : K} {l l' : L} {v v' : V} {d : Dict L V}

/-- The entries with both keys. -/
def items (m : Dict K (Dict L V)) : List (K × L × V) :=
  m.entries.flatMap (fun e => e.2.entries.map (fun x => (e.1, x)))

/-- No inner dictionary is empty. -/
def Filled (m : Dict K (Dict L V)) : Prop := ∀ d ∈ m.values, d.entries ≠ []

theorem filled_empty : Filled (Dict.empty : Dict K (Dict L V)) := fun _ hd =>
  absurd hd List.not_mem_nil

variable [DecidableEq K] [DecidableEq L]

/-- The value under two keys. -/
def find? (m : Dict K (Dict L V)) (k : K) (l : L) : Option V := (m.get? k).bind (fun d => d.get? l)

/-- Store a value under two keys. -/
def insert (m : Dict K (Dict L V)) (k : K) (l : L) (v : V) : Dict K (Dict L V) :=
  m.set k (((m.get? k).getD Dict.empty).set l v)

/-- Remove the value under two keys, and an inner dictionary that becomes empty. -/
def remove (m : Dict K (Dict L V)) (k : K) (l : L) : Dict K (Dict L V) :=
  match m.get? k with
  | none => m
  | some d => if (d.erase l).entries = [] then m.erase k else m.set k (d.erase l)

theorem mem_items : (k, l, v) ∈ items m ↔ find? m k l = some v := by
  unfold items find?
  simp only [List.mem_flatMap, List.mem_map, Prod.mk.injEq, Option.bind_eq_some_iff,
    Dict.get?_eq_some_iff]
  constructor
  · rintro ⟨e, he, x, hx, rfl, rfl⟩
    exact ⟨e.2, he, hx⟩
  · rintro ⟨d, hd, hx⟩
    exact ⟨(k, d), hd, (l, v), hx, rfl, rfl⟩

@[simp] theorem find?_empty : find? (Dict.empty : Dict K (Dict L V)) k l = none := rfl

theorem find?_insert : find? (insert m k l v) k' l' =
    if k' = k ∧ l' = l then some v else find? m k' l' := by
  unfold find? insert
  rw [Dict.get?_set]
  by_cases hk : k' = k
  · subst hk
    rw [if_pos rfl, Option.bind_some, Dict.get?_set]
    by_cases hl : l' = l
    · rw [if_pos hl, if_pos ⟨rfl, hl⟩]
    · rw [if_neg hl, if_neg (fun h => hl h.2)]
      cases m.get? k' <;> rfl
  · rw [if_neg hk, if_neg (fun h => hk h.1)]

theorem find?_remove : find? (remove m k l) k' l' =
    if k' = k ∧ l' = l then none else find? m k' l' := by
  unfold find? remove
  cases hm : m.get? k with
  | none =>
    split_ifs with h
    · rw [h.1, hm]
      rfl
    · rfl
  | some d =>
    simp only
    by_cases hnil : (d.erase l).entries = []
    · rw [if_pos hnil, Dict.get?_erase]
      by_cases hk : k' = k
      · subst hk
        rw [if_pos rfl, Option.bind_none, hm, Option.bind_some]
        have hnone : (d.erase l).get? l' = none :=
          Dict.get?_eq_none_iff.mpr (by rw [Dict.keys, hnil]; exact List.not_mem_nil)
        rw [Dict.get?_erase] at hnone
        by_cases hl : l' = l
        · rw [if_pos ⟨rfl, hl⟩]
        · rw [if_neg hl] at hnone
          rw [if_neg (fun h => hl h.2), hnone]
      · rw [if_neg hk, if_neg (fun h => hk h.1)]
    · rw [if_neg hnil, Dict.get?_set]
      by_cases hk : k' = k
      · subst hk
        rw [if_pos rfl, Option.bind_some, Dict.get?_erase, hm, Option.bind_some]
        simp
      · rw [if_neg hk, if_neg (fun h => hk h.1)]

omit [DecidableEq L] in
/-- The items of one first key, and the others. -/
theorem items_perm (h : m.get? k = some d) :
    (items m).Perm (d.entries.map (fun x => (k, x)) ++ items (m.erase k)) :=
  (Dict.perm_erase h).flatMap_right _

omit [DecidableEq L] in
theorem items_set_perm (m : Dict K (Dict L V)) (k : K) (d : Dict L V) :
    (items (m.set k d)).Perm (d.entries.map (fun x => (k, x)) ++ items (m.erase k)) :=
  (Dict.perm_set m k d).flatMap_right _

theorem items_insert (h : find? m k l = none) (v : V) :
    (items (insert m k l v)).Perm ((k, l, v) :: items m) := by
  unfold find? at h
  refine (items_set_perm m k _).trans ?_
  cases hm : m.get? k with
  | none => rw [Dict.erase_of_get?_eq_none hm]; exact .refl _
  | some d =>
    rw [hm, Option.bind_some] at h
    have hinner : (d.set l v).entries.Perm ((l, v) :: d.entries) := by
      have hset := Dict.perm_set d l v
      rwa [Dict.erase_of_get?_eq_none h] at hset
    refine ((hinner.map _).append_right _).trans ?_
    rw [List.map_cons, List.cons_append]
    exact (items_perm hm).symm.cons _

theorem items_remove (h : find? m k l = some v) :
    (items m).Perm ((k, l, v) :: items (remove m k l)) := by
  unfold find? at h
  rw [Option.bind_eq_some_iff] at h
  obtain ⟨d, hm, hd⟩ := h
  have hinner : (d.entries.map (fun x => (k, x))).Perm
      ((k, l, v) :: (d.erase l).entries.map (fun x => (k, x))) := (Dict.perm_erase hd).map _
  refine (items_perm hm).trans ((hinner.append_right _).trans ?_)
  rw [List.cons_append, remove, hm]
  simp only
  refine List.Perm.cons _ ?_
  split_ifs with hnil
  · rw [hnil]
    exact .refl _
  · exact (items_set_perm m k _).symm

theorem items_insert_of_mem (h : find? m k l = some v) (v' : V) :
    (items (insert m k l v')).Perm ((k, l, v') :: items (remove m k l)) := by
  unfold find? at h
  rw [Option.bind_eq_some_iff] at h
  obtain ⟨d, hm, hd⟩ := h
  refine (items_set_perm m k _).trans ?_
  rw [hm, Option.getD_some, remove, hm]
  simp only
  refine (((Dict.perm_set d l v').map _).append_right _).trans ?_
  rw [List.map_cons, List.cons_append]
  refine List.Perm.cons _ ?_
  split_ifs with hnil
  · rw [hnil]
    exact .refl _
  · exact (items_set_perm m k _).symm

theorem Filled.insert (h : Filled m) : Filled (insert m k l v) := by
  intro d hd
  obtain ⟨e, he, rfl⟩ := List.mem_map.mp hd
  obtain rfl | ⟨_, he⟩ := Dict.mem_entries_set.mp he
  · intro hnil
    have hmem : (l, v) ∈ (((m.get? k).getD Dict.empty).set l v).entries :=
      Dict.mem_entries_set.mpr (.inl rfl)
    rw [hnil] at hmem
    cases hmem
  · exact h _ (List.mem_map_of_mem he)

theorem Filled.remove (h : Filled m) : Filled (remove m k l) := by
  unfold Nested.remove
  cases hm : m.get? k with
  | none => exact h
  | some d =>
    simp only
    split_ifs with hnil
    · intro d' hd'
      obtain ⟨e, he, rfl⟩ := List.mem_map.mp hd'
      exact h _ (List.mem_map_of_mem (List.mem_of_mem_filter he))
    · intro d' hd'
      obtain ⟨e, he, rfl⟩ := List.mem_map.mp hd'
      obtain rfl | ⟨_, he⟩ := Dict.mem_entries_set.mp he
      · exact hnil
      · exact h _ (List.mem_map_of_mem he)

end Nested
end RayTfm
