import Mathlib

/-! # Insertion-ordered dictionaries

`Dict K V` is a finite map that remembers the order in which its keys were first written: a
write to a present key changes the value in place, a write to a new key appends.  The list of
entries is kept together with the proof that no key occurs twice, so a lookup is determined by
membership (`get?_eq_some_iff`).

Dictionaries are mostly built by folding writes over a list (`ofList`); the value of a key is
then the one written last (`get?_ofList`), and a list without repeated keys is stored as it is
(`entries_ofList`). -/

namespace RayTfm

/-- A finite map from `K` to `V` that remembers the insertion order of its keys. -/
structure Dict (K V : Type) where
  entries : List (K × V)
  nodup : (entries.map Prod.fst).Nodup
deriving DecidableEq, Repr

namespace Dict

variable {K V W : Type}
variable {d : Dict K V}

@[ext] theorem ext {e : Dict K V} (h : d.entries = e.entries) : d = e := by
  cases d; cases e; simp only at h; subst h; rfl

/-- The dictionary without entries. -/
def empty : Dict K V := ⟨[], List.nodup_nil⟩

/-- The keys, in insertion order. -/
def keys (d : Dict K V) : List K := d.entries.map Prod.fst

/-- The values, in insertion order of their keys. -/
def values (d : Dict K V) : List V := d.entries.map Prod.snd

/-- The number of keys. -/
def size (d : Dict K V) : ℕ := d.entries.length

@[simp] theorem entries_empty : (empty : Dict K V).entries = [] := rfl
@[simp] theorem keys_empty : (empty : Dict K V).keys = [] := rfl

theorem keys_nodup (d : Dict K V) : d.keys.Nodup := d.nodup

variable [DecidableEq K]

/-- The value stored under `k`. -/
def get? (d : Dict K V) (k : K) : Option V := d.entries.lookup k

@[simp] theorem get?_empty (k : K) : (empty : Dict K V).get? k = none := rfl

variable {k : K} {v : V}

/-- A lookup finds exactly the entries. -/
theorem get?_eq_some_iff :
    d.get? k = some v ↔ (k, v) ∈ d.entries := by
  unfold get?
  rw [List.lookup_eq_some_iff]
  constructor
  · rintro ⟨l₁, l₂, h, _⟩
    rw [h]; simp
  · intro h
    obtain ⟨l₁, l₂, e⟩ := List.append_of_mem h
    refine ⟨l₁, l₂, e, fun p hp => ?_⟩
    have hn := d.nodup
    rw [e, List.map_append, List.map_cons, List.nodup_append] at hn
    have := hn.2.2 p.1 (List.mem_map_of_mem hp) k (.head _)
    simpa [bne_iff_ne] using this.symm

theorem mem_values_of_get? (h : d.get? k = some v) :
    v ∈ d.values :=
  List.mem_map.mpr ⟨(k, v), get?_eq_some_iff.mp h, rfl⟩

theorem get?_eq_none_iff : d.get? k = none ↔ k ∉ d.keys := by
  unfold get? keys
  rw [List.lookup_eq_none_iff]
  constructor
  · intro h hk
    obtain ⟨p, hp, rfl⟩ := List.mem_map.mp hk
    simpa using h p hp
  · intro h p hp
    have : p.1 ≠ k := fun e => h (e ▸ List.mem_map_of_mem hp)
    simpa [bne_iff_ne] using this.symm

theorem get?_isSome_iff : (d.get? k).isSome ↔ k ∈ d.keys := by
  rw [← not_iff_not, ← get?_eq_none_iff, Option.not_isSome_iff_eq_none]

omit [DecidableEq K] in
theorem map_fst_overwrite (l : List (K × V)) (k : K) (v : V) [DecidablePred (· = k)] :
    (l.map (fun p => if p.1 = k then (k, v) else p)).map Prod.fst = l.map Prod.fst := by
  rw [List.map_map]
  apply List.map_congr_left
  intro p _
  by_cases hp : p.1 = k <;> simp [hp]

/-- The write `d[k] = v`: in place for a present key, at the end for a new one. -/
def set (d : Dict K V) (k : K) (v : V) : Dict K V :=
  if h : k ∈ d.keys then
    ⟨d.entries.map (fun p => if p.1 = k then (k, v) else p), by
      rw [map_fst_overwrite]; exact d.nodup⟩
  else
    ⟨d.entries ++ [(k, v)], by
      rw [List.map_append, List.nodup_append]
      refine ⟨d.nodup, by simp, ?_⟩
      intro a ha b hb
      simp only [List.map_cons, List.map_nil, List.mem_singleton] at hb
      subst hb
      exact fun e => h (e ▸ ha)⟩

theorem entries_set_of_mem (v : V) (h : k ∈ d.keys) :
    (d.set k v).entries = d.entries.map (fun p => if p.1 = k then (k, v) else p) := by
  simp [set, h]

theorem keys_set_of_mem (v : V) (h : k ∈ d.keys) :
    (d.set k v).keys = d.keys := by
  rw [keys, entries_set_of_mem v h, map_fst_overwrite]
  rfl

theorem entries_set_of_notMem (v : V) (h : k ∉ d.keys) :
    (d.set k v).entries = d.entries ++ [(k, v)] := by
  simp [set, h]

theorem mem_keys_set {j : K} :
    j ∈ (d.set k v).keys ↔ j = k ∨ j ∈ d.keys := by
  by_cases h : k ∈ d.keys
  · rw [keys_set_of_mem v h]
    exact ⟨Or.inr, fun hj => hj.elim (fun e => e ▸ h) id⟩
  · rw [keys, entries_set_of_notMem v h]
    simp [keys, or_comm]

/-- A write is seen at its own key and nowhere else. -/
theorem get?_set (d : Dict K V) (k j : K) (v : V) :
    (d.set k v).get? j = if j = k then some v else d.get? j := by
  by_cases h : k ∈ d.keys
  · have e := entries_set_of_mem v h
    split_ifs with hj
    · subst hj
      rw [get?_eq_some_iff, e]
      obtain ⟨p, hp, rfl⟩ := List.mem_map.mp h
      exact List.mem_map.mpr ⟨p, hp, by simp⟩
    · apply Option.ext
      intro w
      rw [get?_eq_some_iff, get?_eq_some_iff, e, List.mem_map]
      constructor
      · rintro ⟨p, hp, hpe⟩
        split_ifs at hpe with hpk
        · exact absurd (Prod.mk.inj hpe).1.symm hj
        · rwa [← hpe]
      · intro hw
        exact ⟨(j, w), hw, by simp [hj]⟩
  · unfold get?
    rw [entries_set_of_notMem v h, List.lookup_append]
    split_ifs with hj
    · subst hj
      have hn : d.entries.lookup j = none := get?_eq_none_iff.mpr h
      simp [hn]
    · have hjk : (j == k) = false := by simpa using hj
      simp only [List.lookup_cons, hjk, List.lookup_nil, Option.or_none]

@[simp] theorem get?_set_self (d : Dict K V) (k : K) (v : V) : (d.set k v).get? k = some v := by
  simp [get?_set]

theorem get?_set_ne (d : Dict K V) {j : K} (v : V) (h : j ≠ k) :
    (d.set k v).get? j = d.get? j := by
  simp [get?_set, h]

theorem mem_entries_set {e : K × V} :
    e ∈ (d.set k v).entries ↔ e = (k, v) ∨ (e.1 ≠ k ∧ e ∈ d.entries) := by
  obtain ⟨j, w⟩ := e
  rw [← get?_eq_some_iff, get?_set, ← get?_eq_some_iff]
  by_cases h : j = k
  · simp [h, eq_comm]
  · simp [h]

/-- What is read off all entries, when only the written one gives something. -/
theorem flatMap_entries_set {W : Type} (d : Dict K V) (k : K) (v : V) {g : K × V → List W}
    (h : ∀ e ∈ d.entries, e.1 ≠ k → g e = []) :
    (d.set k v).entries.flatMap g = g (k, v) := by
  obtain ⟨l₁, l₂, hl⟩ := List.append_of_mem (mem_entries_set.mpr (.inl rfl) :
    (k, v) ∈ (d.set k v).entries)
  have hn := (d.set k v).nodup
  rw [hl, List.map_append, List.map_cons, List.nodup_append, List.nodup_cons] at hn
  have hother : ∀ e, e.1 ≠ k → e ∈ (d.set k v).entries → g e = [] := by
    intro e hk he
    obtain rfl | ⟨-, he⟩ := mem_entries_set.mp he
    · exact absurd rfl hk
    · exact h e he hk
  have h₁ : l₁.flatMap g = [] := by
    rw [List.flatMap_eq_nil_iff]
    intro e he
    refine hother e (fun hk => ?_) (by rw [hl]; exact List.mem_append_left _ he)
    exact hn.2.2 e.1 (List.mem_map_of_mem he) k (.head _) hk
  have h₂ : l₂.flatMap g = [] := by
    rw [List.flatMap_eq_nil_iff]
    intro e he
    refine hother e (fun hk => ?_) (by
      rw [hl]
      exact List.mem_append_right _ (.tail _ he))
    exact hn.2.1.1 (List.mem_map.mpr ⟨e, he, hk⟩)
  rw [hl, List.flatMap_append, List.flatMap_cons, h₁, h₂, List.nil_append, List.append_nil]

/-- Remove a key. -/
def erase (d : Dict K V) (k : K) : Dict K V :=
  ⟨d.entries.filter (fun e => e.1 ≠ k), (List.filter_sublist.map Prod.fst).nodup d.nodup⟩

theorem entries_erase (d : Dict K V) (k : K) :
    (d.erase k).entries = d.entries.filter (fun e => e.1 ≠ k) := rfl

theorem get?_erase (d : Dict K V) (k j : K) :
    (d.erase k).get? j = if j = k then none else d.get? j := by
  apply Option.ext
  intro v
  rw [get?_eq_some_iff, erase, List.mem_filter, ← get?_eq_some_iff]
  split_ifs with h
  · simp [h]
  · simp [h]

/-! ### Dictionaries from lists of writes -/

/-- Carry out a list of writes, first to last. -/
def setAll (d : Dict K V) (l : List (K × V)) : Dict K V :=
  l.foldl (fun d p => d.set p.1 p.2) d

/-- The dictionary of a list of writes. -/
def ofList (l : List (K × V)) : Dict K V := empty.setAll l

@[simp] theorem setAll_nil (d : Dict K V) : d.setAll [] = d := rfl

@[simp] theorem setAll_cons (d : Dict K V) (p : K × V) (l : List (K × V)) :
    d.setAll (p :: l) = (d.set p.1 p.2).setAll l := rfl

theorem setAll_append (d : Dict K V) (l l' : List (K × V)) :
    d.setAll (l ++ l') = (d.setAll l).setAll l' := List.foldl_append

theorem get?_setAll (d : Dict K V) (l : List (K × V)) (k : K) :
    (d.setAll l).get? k = (l.reverse.lookup k).or (d.get? k) := by
  induction l generalizing d with
  | nil => simp
  | cons p l ih =>
    obtain ⟨j, v⟩ := p
    rw [setAll_cons, ih, get?_set, List.reverse_cons, List.lookup_append, List.lookup_cons,
      List.lookup_nil]
    by_cases h : k = j
    · subst h
      simp
    · have hk : (k == j) = false := by simpa using h
      simp [h, hk]

/-- The value of a key is the one written last. -/
theorem get?_ofList (l : List (K × V)) (k : K) : (ofList l).get? k = l.reverse.lookup k := by
  simp [ofList, get?_setAll]

theorem lookup_filter (l : List (K × V)) (p : K → Bool) (k : K) :
    (l.filter (fun e => p e.1)).lookup k = if p k then l.lookup k else none := by
  induction l with
  | nil => simp
  | cons e l ih =>
    obtain ⟨j, v⟩ := e
    by_cases hkj : k = j
    · subst hkj
      by_cases hp : p k <;> simp [hp, ih]
    · have hkj : (k == j) = false := by simpa using hkj
      by_cases hp : p j <;> simp [hp, ih, List.lookup_cons, hkj]

theorem get?_ofList_filter (l : List (K × V)) (p : K → Bool) (k : K) :
    (ofList (l.filter (fun e => p e.1))).get? k = if p k then (ofList l).get? k else none := by
  rw [get?_ofList, get?_ofList, ← List.filter_reverse, lookup_filter]

variable {l : List (K × V)}

theorem mem_of_mem_entries_ofList {e : K × V} (h : e ∈ (ofList l).entries) :
    e ∈ l := by
  have hget : (ofList l).get? e.1 = some e.2 := get?_eq_some_iff.mpr h
  rw [get?_ofList, List.lookup_eq_some_iff] at hget
  obtain ⟨l₁, l₂, hl, -⟩ := hget
  rw [← List.mem_reverse, hl]
  simp

theorem mem_keys_setAll :
    k ∈ (d.setAll l).keys ↔ k ∈ l.map Prod.fst ∨ k ∈ d.keys := by
  induction l generalizing d with
  | nil => simp
  | cons p l ih =>
    rw [setAll_cons, ih, mem_keys_set, List.map_cons, List.mem_cons]
    tauto

@[simp] theorem mem_keys_ofList :
    k ∈ (ofList l).keys ↔ k ∈ l.map Prod.fst := by
  simp [ofList, mem_keys_setAll]

theorem ofList_entries_eq_nil_iff : (ofList l).entries = [] ↔ l = [] := by
  constructor
  · intro h
    cases l with
    | nil => rfl
    | cons p l =>
      have hp : p.1 ∈ (ofList (p :: l)).keys := mem_keys_ofList.mpr (by simp)
      rw [keys, h] at hp
      simp at hp
  · rintro rfl
    rfl

theorem entries_setAll (hl : (l.map Prod.fst).Nodup)
    (hd : ∀ k ∈ l.map Prod.fst, k ∉ d.keys) : (d.setAll l).entries = d.entries ++ l := by
  induction l generalizing d with
  | nil => simp
  | cons p l ih =>
    rw [List.map_cons, List.nodup_cons] at hl
    have hp := hd p.1 (by simp)
    rw [setAll_cons, ih hl.2, entries_set_of_notMem p.2 hp, List.append_assoc]
    · rfl
    · intro k hk hmem
      rcases mem_keys_set.mp hmem with rfl | hmem
      · exact hl.1 hk
      · exact hd k (by rw [List.map_cons]; exact .tail _ hk) hmem

/-- A list without repeated keys is stored as it is. -/
theorem entries_ofList (hl : (l.map Prod.fst).Nodup) :
    (ofList l).entries = l := by
  rw [ofList, entries_setAll hl (by simp)]
  simp

theorem get?_ofList_of_nodup (hl : (l.map Prod.fst).Nodup) (k : K) :
    (ofList l).get? k = l.lookup k := by rw [get?, entries_ofList hl]

theorem lookup_map_snd (l : List (K × V)) (f : V → W) (k : K) :
    (l.map (fun e => (e.1, f e.2))).lookup k = (l.lookup k).map f := by
  induction l with
  | nil => rfl
  | cons e l ih =>
    rw [List.map_cons, List.lookup_cons, List.lookup_cons, ih]
    cases k == e.1 <;> rfl

/-- The entries that a partial function gives for some keys. -/
theorem get?_ofList_filterMap (ks : List K) (f : K → Option V) (k : K) :
    (ofList (ks.filterMap (fun k => (f k).map (fun v => (k, v))))).get? k = if k ∈ ks then f k
      else none := by
  rw [get?_ofList, ← List.filterMap_reverse]
  have hmem : k ∈ ks ↔ k ∈ ks.reverse := List.mem_reverse.symm
  simp only [hmem]
  induction ks.reverse with
  | nil => rfl
  | cons j ks ih =>
    rw [List.filterMap_cons]
    cases hj : f j with
    | none =>
      simp only [Option.map_none]
      rw [ih]
      by_cases hk : k = j
      · simp [hk, hj]
      · simp [hk]
    | some v =>
      simp only [Option.map_some]
      rw [List.lookup_cons, ih]
      by_cases hk : k = j
      · simp [hk, hj]
      · have hne : (k == j) = false := by simpa using hk
        simp [hk, hne]

theorem keys_ofList_map {ks : List K} (h : ks.Nodup) (f : K → V) :
    (ofList (ks.map (fun k => (k, f k)))).keys = ks := by
  rw [keys, entries_ofList]
  · simp [List.map_map, Function.comp_def]
  · simpa [List.map_map, Function.comp_def] using h

theorem get?_ofList_map {ks : List K} (h : ks.Nodup) (f : K → V) (k : K) :
    (ofList (ks.map (fun k => (k, f k)))).get? k = if k ∈ ks then some (f k) else none := by
  split_ifs with hk
  · rw [get?_eq_some_iff, entries_ofList]
    · exact List.mem_map_of_mem hk
    · simpa [List.map_map, Function.comp_def] using h
  · rwa [get?_eq_none_iff, keys_ofList_map h]

theorem get?_setAll_append (d : Dict K V) {l₁ l₂ : List (K × V)}
    (h : k ∉ l₂.map Prod.fst) : (d.setAll (l₁ ++ (k, v) :: l₂)).get? k = some v := by
  have hn : l₂.reverse.lookup k = none := by
    rw [List.lookup_eq_none_iff]
    intro p hp
    have : p.1 ≠ k := fun e => h (e ▸ List.mem_map_of_mem (List.mem_reverse.mp hp))
    simpa [bne_iff_ne] using this.symm
  rw [get?_setAll, List.reverse_append, List.reverse_cons, List.lookup_append, List.lookup_append,
    hn]
  simp

/-- A key written once is found with the value written. -/
theorem get?_setAll_of_mem (d : Dict K V) (hl : (l.map Prod.fst).Nodup)
    (h : (k, v) ∈ l) : (d.setAll l).get? k = some v := by
  obtain ⟨l₁, l₂, rfl⟩ := List.append_of_mem h
  refine get?_setAll_append d ?_
  rw [List.map_append, List.map_cons, List.nodup_append] at hl
  exact (List.nodup_cons.mp hl.2.1).1

/-- The dictionary with the given keys in order of first occurrence. -/
def fromkeys (l : List K) : List K := (ofList (l.map (fun k => (k, ())))).keys

@[simp] theorem mem_fromkeys {l : List K} : k ∈ fromkeys l ↔ k ∈ l := by
  simp [fromkeys]

theorem keys_set (d : Dict K V) (k : K) (v : V) :
    (d.set k v).keys = if k ∈ d.keys then d.keys else d.keys ++ [k] := by
  split_ifs with h
  · exact keys_set_of_mem v h
  · rw [keys, entries_set_of_notMem v h, List.map_append]
    rfl

/-- The keys of a list of writes do not depend on the values. -/
theorem keys_setAll_congr {e : Dict K W} {l' : List (K × W)}
    (hd : d.keys = e.keys) (hl : l.map Prod.fst = l'.map Prod.fst) :
    (d.setAll l).keys = (e.setAll l').keys := by
  induction l generalizing d e l' with
  | nil =>
    obtain rfl : l' = [] := List.map_eq_nil_iff.mp hl.symm
    exact hd
  | cons p l ih =>
    cases l' with
    | nil => cases hl
    | cons p' l' =>
      obtain ⟨hp, hl⟩ := List.cons.inj hl
      rw [setAll_cons, setAll_cons]
      apply ih _ hl
      rw [keys_set, keys_set, hd, hp]

theorem keys_ofList_congr {l' : List (K × W)} (h : l.map Prod.fst = l'.map Prod.fst) :
    (ofList l).keys = (ofList l').keys :=
  keys_setAll_congr rfl h

/-- A dictionary is its keys in their order and the value of each. -/
theorem ext_get? {e : Dict K V} (hkeys : d.keys = e.keys) (hget : ∀ k ∈ d.keys, d.get? k = e.get? k) :
    d = e := by
  have hentries : ∀ f : Dict K V, f.entries.map some = f.keys.map
    (fun k => (f.get? k).map (Prod.mk k)) := by
    intro f
    rw [keys, List.map_map]
    apply List.map_congr_left
    intro p hp
    rw [Function.comp_apply, get?_eq_some_iff.mpr hp]
    rfl
  apply ext
  apply List.map_injective_iff.mpr (Option.some_injective _)
  rw [hentries, hentries, ← hkeys]
  apply List.map_congr_left
  intro k hk
  rw [hget k hk]

/-! ### Dictionaries without some keys -/

/-- Remove several keys. -/
def eraseAll (d : Dict K V) (ks : List K) : Dict K V :=
  ⟨d.entries.filter (fun e => e.1 ∉ ks), (List.filter_sublist.map Prod.fst).nodup d.nodup⟩

theorem keys_eraseAll (d : Dict K V) (ks : List K) :
    (d.eraseAll ks).keys = d.keys.filter (fun k => k ∉ ks) := by
  rw [keys, eraseAll, keys, List.filter_map]
  rfl

theorem get?_eraseAll (d : Dict K V) (ks : List K) (j : K) :
    (d.eraseAll ks).get? j = if j ∈ ks then none else d.get? j := by
  apply Option.ext
  intro v
  rw [get?_eq_some_iff, eraseAll, List.mem_filter, ← get?_eq_some_iff]
  split_ifs with h
  · simp [h]
  · simp [h]

theorem eraseAll_keys (d : Dict K V) : d.eraseAll d.keys = empty := by
  apply ext
  apply List.filter_eq_nil_iff.mpr
  intro e he
  have hmem : e.1 ∈ d.keys := List.mem_map_of_mem he
  simpa using hmem

theorem eraseAll_set (d : Dict K V) (ks : List K) (k : K) (v : V) :
    (d.set k v).eraseAll ks = if k ∈ ks then d.eraseAll ks else (d.eraseAll ks).set k v := by
  split_ifs with h
  · apply ext_get?
    · rw [keys_eraseAll, keys_eraseAll, keys_set]
      split_ifs
      · rfl
      · simp [h]
    · intro j _
      rw [get?_eraseAll, get?_eraseAll, get?_set]
      split_ifs with hj hjk
      · rfl
      · exact absurd (hjk ▸ h) hj
      · rfl
  · apply ext_get?
    · rw [keys_eraseAll, keys_set, keys_set, keys_eraseAll]
      by_cases hk : k ∈ d.keys <;> simp [hk, h]
    · intro j _
      rw [get?_eraseAll, get?_set, get?_set, get?_eraseAll]
      by_cases hjk : j = k
      · simp [hjk, h]
      · simp [hjk]

/-- Of a list of writes, those to other keys are left. -/
theorem eraseAll_setAll (d : Dict K V) (ks : List K) (l : List (K × V)) :
    (d.setAll l).eraseAll ks = (d.eraseAll ks).setAll (l.filter (fun p => p.1 ∉ ks)) := by
  induction l generalizing d with
  | nil => rfl
  | cons p l ih =>
    rw [setAll_cons, ih, eraseAll_set]
    by_cases hp : p.1 ∈ ks
    · rw [if_pos hp, List.filter_cons_of_neg (by simpa using hp)]
    · rw [if_neg hp, List.filter_cons_of_pos (by simpa using hp), setAll_cons]

theorem eraseAll_ofList (ks : List K) (l : List (K × V)) :
    (ofList l).eraseAll ks = ofList (l.filter (fun p => p.1 ∉ ks)) :=
  eraseAll_setAll empty ks l

/-! ### Totals over the entries -/

/-- The total of a quantity of the entries. -/
def total (d : Dict K V) (f : K → V → ℕ) : ℕ := (d.entries.map (fun e => f e.1 e.2)).sum

omit [DecidableEq K] in
@[simp] theorem total_empty (f : K → V → ℕ) : (empty : Dict K V).total f = 0 := rfl

theorem total_set_of_get?_eq_none (h : d.get? k = none) (v : V) (f : K → V → ℕ) :
    (d.set k v).total f = d.total f + f k v := by
  rw [total, entries_set_of_notMem v (get?_eq_none_iff.mp h), List.map_append, List.sum_append,
    List.map_singleton, List.sum_singleton]
  rfl

theorem total_erase (h : d.get? k = some v) (f : K → V → ℕ) :
    (d.erase k).total f + f k v = d.total f := by
  have hmem := get?_eq_some_iff.mp h
  have hnodup := d.nodup
  rw [total, total, entries_erase]
  obtain ⟨l₁, l₂, hl⟩ := List.append_of_mem hmem
  rw [hl, List.map_append, List.map_cons, List.nodup_append, List.nodup_cons] at hnodup
  have hother : ∀ e ∈ l₁ ++ l₂, e.1 ≠ k := by
    intro e he hek
    obtain he | he := List.mem_append.mp he
    · exact hnodup.2.2 e.1 (List.mem_map_of_mem he) k (.head _) hek
    · exact hnodup.2.1.1 (List.mem_map.mpr ⟨e, he, hek⟩)
  rw [List.forall_mem_append] at hother
  have hfilter : ∀ l : List (K × V), (∀ e ∈ l, e.1 ≠ k) → l.filter (fun e => e.1 ≠ k) = l :=
    fun l h => List.filter_eq_self.mpr (fun e he => decide_eq_true (h e he))
  rw [hl, List.filter_append, List.filter_cons_of_neg (by simp), hfilter l₁ hother.1,
    hfilter l₂ hother.2]
  simp only [List.map_append, List.map_cons, List.sum_append, List.sum_cons]
  omega

theorem total_set_of_get?_eq_some (h : d.get? k = some v) (w : V) (f : K → V → ℕ) :
    (d.set k w).total f + f k v = d.total f + f k w := by
  have hset : (d.set k w).get? k = some w := get?_set_self d k w
  have hentries : ((d.set k w).erase k).entries = (d.erase k).entries := by
    rw [entries_erase, entries_erase, entries_set_of_mem w (get?_isSome_iff.mp (by rw [h]; rfl))]
    induction d.entries with
    | nil => rfl
    | cons e l ih =>
      rw [List.map_cons, List.filter_cons, List.filter_cons, ih]
      by_cases hek : e.1 = k
      · simp [hek]
      · simp [hek]
  have herase := total_erase hset f
  rw [total, hentries] at herase
  have herase' := total_erase h f
  rw [total] at herase'
  omega

theorem total_pos_iff {f : K → V → ℕ} : 0 < d.total f ↔ ∃ k v, d.get? k = some v ∧ 0 < f k v := by
  have hsum : d.total f = 0 ↔ ∀ n ∈ d.entries.map (fun e => f e.1 e.2), n = 0 := List.sum_eq_zero_iff
  rw [Nat.pos_iff_ne_zero, ne_eq, hsum]
  constructor
  · intro h
    push Not at h
    obtain ⟨n, hn, hpos⟩ := h
    obtain ⟨e, he, rfl⟩ := List.mem_map.mp hn
    exact ⟨e.1, e.2, get?_eq_some_iff.mpr he, Nat.pos_of_ne_zero hpos⟩
  · rintro ⟨k, v, hget, hpos⟩ h
    have hzero := h _ (List.mem_map.mpr ⟨(k, v), get?_eq_some_iff.mp hget, rfl⟩)
    exact Nat.pos_iff_ne_zero.mp hpos hzero

theorem perm_erase (h : d.get? k = some v) :
    d.entries.Perm ((k, v) :: (d.erase k).entries) := by
  obtain ⟨l₁, l₂, hl⟩ := List.append_of_mem (get?_eq_some_iff.mp h)
  have hnodup := d.nodup
  rw [hl, List.map_append, List.map_cons, List.nodup_append, List.nodup_cons] at hnodup
  have hfilter : ∀ l : List (K × V), (∀ e ∈ l, e.1 ≠ k) → l.filter (fun e => e.1 ≠ k) = l :=
    fun l h => List.filter_eq_self.mpr (fun e he => decide_eq_true (h e he))
  have hfront : ∀ e ∈ l₁, e.1 ≠ k :=
    fun e he hek => hnodup.2.2 e.1 (List.mem_map_of_mem he) k (.head _) hek
  have hback : ∀ e ∈ l₂, e.1 ≠ k := fun e he hek => hnodup.2.1.1 (List.mem_map.mpr ⟨e, he, hek⟩)
  rw [entries_erase, hl, List.filter_append, List.filter_cons_of_neg (by simp), hfilter l₁ hfront,
    hfilter l₂ hback]
  exact List.perm_middle

/-! ### Sums over the entries -/

section sums
variable {M : Type} [AddCommMonoid M]

/-- The sum of a quantity of the entries. -/
def sum (d : Dict K V) (f : K → V → M) : M := (d.entries.map (fun e => f e.1 e.2)).sum

omit [DecidableEq K] in
@[simp] theorem sum_empty (f : K → V → M) : (empty : Dict K V).sum f = 0 := rfl

theorem sum_set_of_get?_eq_none {d : Dict K V} {k : K} (h : d.get? k = none) (v : V) (f : K → V → M) :
    (d.set k v).sum f = d.sum f + f k v := by
  rw [sum, entries_set_of_notMem v (get?_eq_none_iff.mp h), List.map_append, List.sum_append,
    List.map_singleton, List.sum_singleton]
  rfl

theorem sum_erase {d : Dict K V} {k : K} {v : V} (h : d.get? k = some v) (f : K → V → M) :
    d.sum f = f k v + (d.erase k).sum f := by
  rw [sum, (List.Perm.map (fun e => f e.1 e.2) (perm_erase h)).sum_eq, List.map_cons, List.sum_cons]
  rfl

end sums

theorem sum_nonneg {f : K → V → ℤ} (h : ∀ k v, d.get? k = some v → 0 ≤ f k v) : 0 ≤ d.sum f := by
  apply List.sum_nonneg
  intro a ha
  obtain ⟨e, he, rfl⟩ := List.mem_map.mp ha
  exact h e.1 e.2 (get?_eq_some_iff.mpr he)

/-- Of a sum of nonnegative quantities each is a part. -/
theorem le_sum {f : K → V → ℤ} (h : ∀ k v, d.get? k = some v → 0 ≤ f k v)
    (hk : d.get? k = some v) : f k v ≤ d.sum f := by
  have hrest : 0 ≤ (d.erase k).sum f := by
    apply sum_nonneg
    intro j w hj
    rw [get?_erase] at hj
    split_ifs at hj
    exact h j w hj
  rw [sum_erase hk]
  omega

end Dict
end RayTfm
