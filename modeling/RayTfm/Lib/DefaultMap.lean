import RayTfm.Lib.Dict

/-! # Finite maps with default values

A `DefaultMap K V dflt` gives every key a value; only the values that are not the default of their
key are stored.  Two maps that give every key the same value therefore store the same entries
(`lookup_eq_of_get_eq`), and a write of the default removes the entry.  A loop that rewrites one key
for each entry of a list without repeated keys changes each of these keys once
(`get_foldl_step`). -/

namespace RayTfm

/-- A finite map that stores no default value. -/
structure DefaultMap (K V : Type) (dflt : K → V) where
  entries : Dict K V
  explicit : ∀ e ∈ entries.entries, e.2 ≠ dflt e.1
deriving DecidableEq

namespace DefaultMap

variable {K V : Type} {dflt : K → V}

/-- The map that gives every key its default. -/
def empty : DefaultMap K V dflt := ⟨Dict.empty, nofun⟩

/-- The keys that are stored. -/
def keys (m : DefaultMap K V dflt) : List K := m.entries.keys

variable [DecidableEq K]

/-- The value of a key. -/
def get (m : DefaultMap K V dflt) (k : K) : V := (m.entries.get? k).getD (dflt k)
@[simp] theorem get_empty (k : K) : (empty : DefaultMap K V dflt).get k = dflt k := rfl

variable {m : DefaultMap K V dflt}
variable {k : K}

theorem get_of_get? {v : V} (h : m.entries.get? k = some v) : m.get k = v := by
  rw [get, h, Option.getD_some]

/-- A key is stored exactly if its value is not the default. -/
theorem mem_keys_iff : k ∈ m.keys ↔ m.get k ≠ dflt k := by
  unfold keys
  rw [← Dict.get?_isSome_iff, get]
  cases h : m.entries.get? k with
  | none => simp
  | some v =>
    have := m.explicit (k, v) (Dict.get?_eq_some_iff.mp h)
    simpa using this

theorem get?_eq (m : DefaultMap K V dflt) (k : K) [Decidable (m.get k = dflt k)] :
    m.entries.get? k = if m.get k = dflt k then none else some (m.get k) := by
  split_ifs with h
  · rw [Dict.get?_eq_none_iff]
    exact fun hk => mem_keys_iff.mp hk h
  · obtain ⟨v, hv⟩ := Option.isSome_iff_exists.mp (Dict.get?_isSome_iff.mpr (mem_keys_iff.mpr h))
    rw [hv, get_of_get? hv]

theorem mem_entries_iff {v : V} :
    (k, v) ∈ m.entries.entries ↔ m.get k = v ∧ v ≠ dflt k := by
  constructor
  · intro h
    exact ⟨get_of_get? (Dict.get?_eq_some_iff.mpr h), m.explicit (k, v) h⟩
  · rintro ⟨rfl, h⟩
    classical
    rw [← Dict.get?_eq_some_iff, get?_eq, if_neg h]

/-- Maps with the same values store the same entries. -/
theorem lookup_eq_of_get_eq {m' : DefaultMap K V dflt} (h : ∀ k, m.get k = m'.get k) (k : K) :
    m.entries.get? k = m'.entries.get? k := by
  classical
  rw [get?_eq, get?_eq, h k]

/-- Remove the entries that satisfy a predicate: their keys get their defaults back. -/
def reset (m : DefaultMap K V dflt) (p : K → V → Bool) : DefaultMap K V dflt :=
  ⟨⟨m.entries.entries.filter (fun e => !p e.1 e.2),
      (List.filter_sublist.map Prod.fst).nodup m.entries.nodup⟩,
    fun e he => m.explicit e (List.mem_of_mem_filter he)⟩

/-- Removing entries that do not occur changes nothing. -/
theorem get_reset_of_forall {p : K → V → Bool}
    (h : ∀ k, p k (m.get k) = false) (k : K) : (m.reset p).get k = m.get k := by
  have hentries : (m.reset p).entries = m.entries := by
    apply Dict.ext
    apply List.filter_eq_self.mpr
    rintro ⟨j, v⟩ he
    have hv := (mem_entries_iff.mp he).1
    have hj := h j
    rw [hv] at hj
    rw [Bool.not_eq_true']
    exact hj
  rw [get, hentries, get]

variable [DecidableEq V]

/-- A write: the default is not stored. -/
def set (m : DefaultMap K V dflt) (k : K) (v : V) : DefaultMap K V dflt :=
  if h : v = dflt k then
    ⟨m.entries.erase k, fun e he => m.explicit e (List.mem_of_mem_filter he)⟩
  else
    ⟨m.entries.set k v, fun e he => by
      obtain rfl | ⟨-, he⟩ := Dict.mem_entries_set.mp he
      · exact h
      · exact m.explicit e he⟩

theorem get_set (m : DefaultMap K V dflt) (k j : K) (v : V) :
    (m.set k v).get j = if j = k then v else m.get j := by
  unfold set get
  split_ifs with hv hj hj
  · subst hj
    rw [Dict.get?_erase, if_pos rfl, hv]
    rfl
  · rw [Dict.get?_erase, if_neg hj]
  · rw [Dict.get?_set, if_pos hj]
    rfl
  · rw [Dict.get?_set, if_neg hj]

@[simp] theorem get_set_self (m : DefaultMap K V dflt) (k : K) (v : V) : (m.set k v).get k = v := by
  rw [get_set, if_pos rfl]

theorem get_set_ne (m : DefaultMap K V dflt) {j : K} (v : V) (h : j ≠ k) :
    (m.set k v).get j = m.get j := by
  rw [get_set, if_neg h]

/-! ### Loops that rewrite one key for each entry -/

section loop
omit [DecidableEq V]

variable {W : Type} {step : DefaultMap K V dflt → K × W → DefaultMap K V dflt} {f : K → V → W → V}

theorem get_foldl_of_notMem (hstep : ∀ m e k, (step m e).get k = if k = e.1 then f k (m.get k) e.2
    else m.get k)
    {l : List (K × W)} {k : K} (h : k ∉ l.map Prod.fst) (m : DefaultMap K V dflt) :
    (l.foldl step m).get k = m.get k := by
  induction l generalizing m with
  | nil => rfl
  | cons e l ih =>
    rw [List.map_cons, List.mem_cons, not_or] at h
    rw [List.foldl_cons, ih h.2, hstep, if_neg h.1]

/-- Each key of the list is rewritten once, with its own entry; the others keep their value. -/
theorem get_foldl_step (hstep : ∀ m e k, (step m e).get k = if k = e.1 then f k (m.get k) e.2
    else m.get k)
    {l : List (K × W)} (hl : (l.map Prod.fst).Nodup) (m : DefaultMap K V dflt) (k : K) :
    (l.foldl step m).get k = (l.lookup k).elim (m.get k) (f k (m.get k)) := by
  induction l generalizing m with
  | nil => rfl
  | cons e l ih =>
    obtain ⟨j, w⟩ := e
    rw [List.map_cons, List.nodup_cons] at hl
    rw [List.foldl_cons]
    by_cases hk : k = j
    · subst hk
      rw [get_foldl_of_notMem hstep hl.1, hstep, if_pos rfl, List.lookup_cons, beq_self_eq_true]
      rfl
    · have hjk : (k == j) = false := by simpa using hk
      rw [ih hl.2, hstep, if_neg hk, List.lookup_cons, hjk]

end loop

end DefaultMap

end RayTfm
