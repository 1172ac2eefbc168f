import Mathlib

/-! # Threads through a heap

A list of distinct nodes can be threaded through them by two partial functions: `succOf l` gives
each node of `l` the next one and `predOf l` the one before, and both give nothing for a node that
is not on the list.  Linking a node between two neighbours and unlinking it change the two functions
at three places only (`succOf_insert`, `succOf_remove` and their mirror images), whichever of the
neighbours exist.  `follow` reads the list back (`follow_succOf`). -/

namespace RayTfm.Threads

variable {α : Type} [DecidableEq α]

/-- The successor on the list. -/
def succOf : List α → α → Option α
  | [], _ => none
  | b :: l, a => if a = b then l.head? else succOf l a

/-- The predecessor on the list. -/
def predOf (l : List α) (a : α) : Option α := succOf l.reverse a

/-- Write to a function at a place that may be missing. -/
def writeAt (f : α → Option α) (k : Option α) (v : Option α) : α → Option α :=
  match k with
  | some k => Function.update f k v
  | none => f

variable {l : List α} {a : α}

theorem succOf_of_notMem (h : a ∉ l) : succOf l a = none := by
  induction l with
  | nil => rfl
  | cons b l ih =>
    rw [List.mem_cons, not_or] at h
    rw [succOf, if_neg h.1, ih h.2]

theorem predOf_of_notMem (h : a ∉ l) : predOf l a = none :=
  succOf_of_notMem (by rwa [List.mem_reverse])

theorem succOf_singleton (a b : α) : succOf [a] b = none := by
  rw [succOf]
  split_ifs <;> rfl

theorem succOf_append (l₁ l₂ : List α) (a : α) :
    succOf (l₁ ++ l₂) a = if a ∈ l₁ then (succOf l₁ a).or l₂.head? else succOf l₂ a := by
  induction l₁ with
  | nil => rfl
  | cons b l₁ ih =>
    rw [List.cons_append, succOf, succOf, ih]
    by_cases h : a = b
    · simp only [h, if_true, List.mem_cons, true_or, List.head?_append]
    · simp only [h, if_false, List.mem_cons, false_or]

theorem succOf_concat_last (h : a ∉ l) : succOf (l ++ [a]) a = none := by
  rw [succOf_append, if_neg h, succOf, if_pos rfl, List.head?_nil]

variable {b : α}

theorem succOf_concat_isSome (h : b ∈ l) : (succOf (l ++ [a]) b).isSome := by
  rw [succOf_append, if_pos h, List.head?_cons]
  cases succOf l b <;> rfl

variable {l₁ l₂ : List α}

theorem succOf_middle (h : a ∉ l₁) :
    succOf (l₁ ++ a :: l₂) a = l₂.head? := by
  rw [succOf_append, if_neg h, succOf, if_pos rfl]

theorem predOf_middle (h : a ∉ l₂) :
    predOf (l₁ ++ a :: l₂) a = l₁.getLast? := by
  rw [predOf, List.reverse_append, List.reverse_cons, List.append_assoc, List.singleton_append,
    succOf_middle (by rwa [List.mem_reverse]), List.head?_reverse]

theorem succOf_insert (hn : (l₁ ++ l₂).Nodup) (ha : a ∉ l₁ ++ l₂) :
    succOf (l₁ ++ a :: l₂) =
      writeAt (Function.update (succOf (l₁ ++ l₂)) a l₂.head?) l₁.getLast? (some a) := by
  rw [List.mem_append, not_or] at ha
  funext b
  obtain rfl | ⟨l, x, rfl⟩ := List.eq_nil_or_concat' l₁
  · simp only [List.nil_append, List.getLast?_nil, writeAt, Function.update_apply, succOf]
  · have hx : x ∉ l := by
      have hl := (List.nodup_append.mp hn).1
      exact fun hmem => (List.nodup_append.mp hl).2.2 x hmem x (List.mem_singleton_self x) rfl
    rw [List.getLast?_append, List.getLast?_singleton, Option.some_or, writeAt]
    simp only [Function.update_apply]
    rw [succOf_append, succOf_append (l ++ [x]) l₂]
    by_cases hbx : b = x
    · subst hbx
      rw [if_pos (by simp), succOf_concat_last hx, if_pos rfl]
      rfl
    · rw [if_neg hbx]
      by_cases hb : b ∈ l ++ [x]
      · have hbl : b ∈ l := by
          rw [List.mem_append, List.mem_singleton] at hb
          exact hb.resolve_right hbx
        obtain ⟨c, hc⟩ := Option.isSome_iff_exists.mp (succOf_concat_isSome (a := x) hbl)
        have hba : b ≠ a := fun h => ha.1 (h ▸ hb)
        rw [if_pos hb, if_pos hb, hc, if_neg hba, Option.some_or, Option.some_or]
      · rw [if_neg hb, if_neg hb, succOf]

theorem succOf_remove (hn : (l₁ ++ a :: l₂).Nodup) :
    succOf (l₁ ++ l₂) =
      Function.update (writeAt (succOf (l₁ ++ a :: l₂)) l₁.getLast? l₂.head?) a none := by
  obtain ⟨hn', ha⟩ := List.nodup_middle.mp hn |> List.nodup_cons.mp |>.symm
  rw [succOf_insert hn' ha]
  funext b
  rw [Function.update_apply]
  by_cases hba : b = a
  · rw [if_pos hba, hba, succOf_of_notMem ha]
  · rw [if_neg hba]
    rw [List.mem_append, not_or] at ha
    obtain rfl | ⟨l, x, rfl⟩ := List.eq_nil_or_concat' l₁
    · simp only [List.getLast?_nil, writeAt, Function.update_apply, if_neg hba]
    · rw [List.getLast?_append, List.getLast?_singleton, Option.some_or]
      simp only [writeAt, Function.update_apply, if_neg hba]
      by_cases hbx : b = x
      · subst hbx
        have hx : b ∉ l := by
          have hl := (List.nodup_append.mp hn').1
          exact fun hmem => (List.nodup_append.mp hl).2.2 b hmem b (List.mem_singleton_self b) rfl
        rw [if_pos rfl, succOf_append, if_pos (by simp), succOf_concat_last hx, Option.none_or]
      · rw [if_neg hbx, if_neg hbx]

theorem predOf_insert (hn : (l₁ ++ l₂).Nodup) (ha : a ∉ l₁ ++ l₂) :
    predOf (l₁ ++ a :: l₂) =
      writeAt (Function.update (predOf (l₁ ++ l₂)) a l₁.getLast?) l₂.head? (some a) := by
  have hn' : (l₂.reverse ++ l₁.reverse).Nodup := by
    rw [← List.reverse_append]
    exact List.nodup_reverse.mpr hn
  have ha' : a ∉ l₂.reverse ++ l₁.reverse := by
    rwa [← List.reverse_append, List.mem_reverse]
  have h := succOf_insert hn' ha'
  rw [List.head?_reverse, List.getLast?_reverse, ← List.reverse_append] at h
  unfold predOf
  rw [List.reverse_append, List.reverse_cons, List.append_assoc, List.singleton_append, h]

theorem predOf_remove (hn : (l₁ ++ a :: l₂).Nodup) :
    predOf (l₁ ++ l₂) =
      Function.update (writeAt (predOf (l₁ ++ a :: l₂)) l₂.head? l₁.getLast?) a none := by
  have hrev : (l₁ ++ a :: l₂).reverse = l₂.reverse ++ a :: l₁.reverse := by simp
  have hn' : (l₂.reverse ++ a :: l₁.reverse).Nodup := by
    rw [← hrev]
    exact List.nodup_reverse.mpr hn
  have h := succOf_remove hn'
  rw [List.head?_reverse, List.getLast?_reverse, ← List.reverse_append, ← hrev] at h
  exact h

/-- The successor is the node that comes next. -/
theorem succOf_eq_some_iff (hn : l.Nodup) :
    succOf l a = some b ↔ ∃ l₁ l₂, l = l₁ ++ a :: b :: l₂ := by
  constructor
  · intro h
    have ha : a ∈ l := by
      by_contra ha
      rw [succOf_of_notMem ha] at h
      cases h
    obtain ⟨l₁, l₂, rfl⟩ := List.append_of_mem ha
    have ha₁ : a ∉ l₁ := fun hmem =>
      (List.nodup_append.mp hn).2.2 a hmem a (.head _) rfl
    rw [succOf_middle ha₁] at h
    obtain ⟨l₂, rfl⟩ := List.head?_eq_some_iff.mp h
    exact ⟨l₁, l₂, rfl⟩
  · rintro ⟨l₁, l₂, rfl⟩
    have ha₁ : a ∉ l₁ := fun hmem =>
      (List.nodup_append.mp hn).2.2 a hmem a (.head _) rfl
    rw [succOf_middle ha₁, List.head?_cons]

/-- The predecessor is the inverse of the successor. -/
theorem predOf_eq_some_iff (hn : l.Nodup) :
    predOf l b = some a ↔ succOf l a = some b := by
  rw [predOf, succOf_eq_some_iff (List.nodup_reverse.mpr hn), succOf_eq_some_iff hn]
  constructor
  · rintro ⟨l₁, l₂, h⟩
    refine ⟨l₂.reverse, l₁.reverse, ?_⟩
    rw [← List.reverse_reverse l, h]
    simp
  · rintro ⟨l₁, l₂, rfl⟩
    exact ⟨l₂.reverse, l₁.reverse, by simp⟩

/-- Link a node right before another one. -/
def insertBefore (m a : α) : List α → List α
  | [] => []
  | b :: l => if b = m then a :: b :: l else b :: insertBefore m a l

variable {m : α}

theorem insertBefore_middle (h : m ∉ l₁) :
    insertBefore m a (l₁ ++ m :: l₂) = l₁ ++ a :: m :: l₂ := by
  induction l₁ with
  | nil => rw [List.nil_append, insertBefore, if_pos rfl, List.nil_append]
  | cons b l₁ ih =>
    rw [List.mem_cons, not_or] at h
    rw [List.cons_append, insertBefore, if_neg (Ne.symm h.1), ih h.2, List.cons_append]

theorem insertBefore_of_notMem (h : m ∉ l) : insertBefore m a l = l := by
  induction l with
  | nil => rfl
  | cons b l ih =>
    rw [List.mem_cons, not_or] at h
    rw [insertBefore, if_neg (Ne.symm h.1), ih h.2]

theorem perm_insertBefore (h : m ∈ l) :
    (insertBefore m a l).Perm (a :: l) := by
  induction l with
  | nil => cases h
  | cons b l ih =>
    rw [insertBefore]
    split_ifs with hb
    · exact .refl _
    · exact ((ih ((List.mem_cons.mp h).resolve_left (Ne.symm hb))).cons b).trans (.swap ..)

/-- Move a node behind the first one of the list. -/
def moveToSecond (a : α) (l : List α) : List α :=
  match l with
  | [] => []
  | b :: l => if a = b then b :: l else b :: a :: l.erase a

theorem perm_moveToSecond_of_mem (h : a ∈ l) : (moveToSecond a l).Perm l := by
  cases l with
  | nil => exact .refl _
  | cons b l =>
    rw [moveToSecond]
    split_ifs with hab
    · exact .refl _
    · exact ((List.perm_cons_erase ((List.mem_cons.mp h).resolve_left hab)).symm).cons b

theorem perm_moveToSecond_of_notMem (h : a ∉ l) (hl : l ≠ []) :
    (moveToSecond a l).Perm (a :: l) := by
  cases l with
  | nil => exact absurd rfl hl
  | cons b l =>
    rw [List.mem_cons, not_or] at h
    rw [moveToSecond, if_neg h.1, List.erase_of_not_mem h.2]
    exact .swap ..

theorem mem_moveToSecond (hl : l ≠ []) :
    b ∈ moveToSecond a l ↔ b ∈ l ∨ b = a := by
  by_cases ha : a ∈ l
  · rw [(perm_moveToSecond_of_mem ha).mem_iff]
    exact ⟨.inl, fun h => h.elim id (fun heq => heq ▸ ha)⟩
  · rw [(perm_moveToSecond_of_notMem ha hl).mem_iff, List.mem_cons, or_comm]

/-- A sum over a list in which one summand changes. -/
theorem sum_map_change {f f' : α → ℤ} (hn : l.Nodup) (hm : m ∈ l)
    (h : ∀ a ∈ l, a ≠ m → f' a = f a) : (l.map f').sum = (l.map f).sum + (f' m - f m) := by
  have hperm := List.perm_cons_erase hm
  rw [(hperm.map f').sum_eq, (hperm.map f).sum_eq, List.map_cons, List.map_cons, List.sum_cons,
    List.sum_cons, List.map_congr_left (fun a ha => h a (List.mem_of_mem_erase ha) ?_)]
  · omega
  · rintro rfl
    exact hn.not_mem_erase ha

/-- The nodes found from a start by at most so many steps; `none` if there are more. -/
def follow (next : α → Option α) : ℕ → Option α → Option (List α)
  | _, none => some []
  | 0, some _ => none
  | steps + 1, some a => (follow next steps (next a)).map (a :: ·)

theorem follow_succOf_append (done : List α) (hn : (done ++ l).Nodup) {steps : ℕ}
    (hs : l.length ≤ steps) : follow (succOf (done ++ l)) steps l.head? = some l := by
  induction l generalizing done steps with
  | nil => cases steps <;> rfl
  | cons a l ih =>
    rw [List.length_cons] at hs
    obtain ⟨steps, rfl⟩ : ∃ n, steps = n + 1 := ⟨steps - 1, by omega⟩
    have ha : a ∉ done := fun hmem =>
      (List.nodup_append.mp hn).2.2 a hmem a (.head _) rfl
    rw [List.head?_cons, follow, succOf_middle ha]
    have hlen : l.length ≤ steps := by omega
    have hrest := ih (done ++ [a]) (by simpa using hn) hlen
    rw [List.append_assoc, List.singleton_append] at hrest
    rw [hrest, Option.map_some]

/-- Following the successors from the first node gives the list. -/
theorem follow_succOf (hn : l.Nodup) {steps : ℕ} (hs : l.length ≤ steps) :
    follow (succOf l) steps l.head? = some l :=
  follow_succOf_append [] hn hs

end RayTfm.Threads
