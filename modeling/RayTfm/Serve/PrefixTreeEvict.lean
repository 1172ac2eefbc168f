import RayTfm.Serve.PrefixTreeRemove

/-! # Evicting from the prefix tree

`evict_tenant_by_lru` takes whole groups of nodes with one time of access off the end of the list,
until enough characters are removed or the root is reached (`evictTenantByLru_spec`). -/

namespace RayTfm.Serve.PrefixTree
open RayTfm.Threads

variable {T : Type} {s s' s₀ : PrefixTree T} {t u : String} {n m p : ℕ} {c : Char}
  {v : View} {l R : List ℕ} {τ : T}

/-- The number of characters the removed nodes counted. -/
def removedChars (s₀ : PrefixTree T) (t : String) (R : List ℕ) : ℤ := (R.map (s₀.weight t)).sum

/-- Between the nodes left and the nodes removed the time of access changes. -/
def Cut (s₀ : PrefixTree T) (t : String) (l R : List ℕ) : Prop :=
  ∀ a b, l.getLast? = some a → R.head? = some b → a = root ∨ s₀.time? a t ≠ s₀.time? b t

theorem Removing.exists_time (h : Removing s₀ v t l R s) (hinv : Inv s₀ v none) (hn : n ∈ l) :
    ∃ τ, s₀.time? n t = some τ ∧ s.time? n t = some τ := by
  have hmem := hinv.mem_chain (t := t) (n := n)
  have hnodup := hinv.nodup_chain t
  rw [h.chain] at hmem hnodup
  have hown : s₀.Owns t n :=
    (hmem.mp (List.mem_append_left _ hn)).2.resolve_right (by simp)
  obtain ⟨τ, hτ⟩ := Option.isSome_iff_exists.mp (owns_iff.mp hown)
  refine ⟨τ, hτ, ?_⟩
  rw [h.pruned.time?, if_neg (fun hand => ?_), hτ]
  exact (List.nodup_append.mp hnodup).2.2 n hn n hand.1 rfl

variable [DecidableEq T]

/-- The inner loop removes the nodes with one time of access. -/
theorem evictGroup_spec (hinv : Inv s₀ v none) (ht : s₀.HasTenant t) {rounds : ℕ}
    (hrounds : l.length ≤ rounds) (hl : l ≠ []) (h : Removing s₀ v t l R s) :
    ∃ s' l' R', evictGroup t τ rounds s l.getLast? (removedChars s₀ t R) =
        some (s', l'.getLast?, removedChars s₀ t R') ∧
      Removing s₀ v t l' R' s' ∧ l' ≠ [] ∧ l'.length ≤ l.length ∧
      (∀ a, l'.getLast? = some a → a = root ∨ s₀.time? a t ≠ some τ) ∧
      (l' = l ∧ R' = R ∨ l'.length < l.length ∧ ∀ b, R'.head? = some b → s₀.time? b t = some τ) := by
  induction rounds generalizing l R s with
  | zero => exact absurd (List.length_eq_zero_iff.mp (Nat.le_zero.mp hrounds)) hl
  | succ rounds ih =>
    obtain ⟨l, n, rfl⟩ := (List.eq_nil_or_concat' l).resolve_left hl
    have hlast : ∀ {a}, (l ++ [n]).getLast? = some a → a = n := by
      intro a ha
      rw [List.getLast?_concat, Option.some.injEq] at ha
      exact ha.symm
    rw [List.getLast?_concat, evictGroup]
    by_cases hroot : n = root
    · rw [if_pos hroot, ← List.getLast?_concat (l := l)]
      exact ⟨s, l ++ [n], R, rfl, h, hl, le_rfl, fun a ha => .inl ((hlast ha).trans hroot),
        .inl ⟨rfl, rfl⟩⟩
    · obtain ⟨τ', hτ₀, hτ⟩ := h.exists_time hinv (n := n) (by simp)
      have htime : (s.nodes n).tenantToLastAccessTime.get? t = some τ' := hτ
      rw [if_neg hroot, htime]
      simp only
      by_cases heq : τ' = τ
      · subst heq
        have hchain : v.chain t = l ++ n :: R := by
          rw [h.chain, List.append_assoc, List.singleton_append]
        have hnil : l ≠ [] := by
          rintro rfl
          have hhead := hinv.chain_head ht
          rw [hchain, List.nil_append, List.head?_cons, Option.some.injEq] at hhead
          exact hroot hhead
        have hsum : removedChars s₀ t R + (s.removeTenantSingleNode t n).2 =
            removedChars s₀ t (n :: R) := by
          rw [(h.step hinv ht).2.1, removedChars, removedChars, List.map_cons, List.sum_cons,
            add_comm]
        rw [List.length_append, List.length_singleton] at hrounds
        obtain ⟨s', l', R', hloop, hrem, hne, hle, hstop, hgroup⟩ :=
          ih (by omega) hnil (h.next hinv ht hroot)
        rw [if_pos rfl, h.newer, hsum]
        refine ⟨s', l', R', hloop, hrem, hne, ?_, hstop, .inr ?_⟩
        · rw [List.length_append]
          omega
        · rw [List.length_append, List.length_singleton]
          obtain ⟨rfl, rfl⟩ | ⟨_, hhead⟩ := hgroup
          · refine ⟨by omega, fun b hb => ?_⟩
            rw [List.head?_cons, Option.some.injEq] at hb
            rw [← hb, hτ₀]
          · exact ⟨by omega, hhead⟩
      · rw [if_neg heq, ← List.getLast?_concat (l := l)]
        refine ⟨s, l ++ [n], R, rfl, h, hl, le_rfl, fun a ha => .inr ?_, .inl ⟨rfl, rfl⟩⟩
        rw [hlast ha, hτ₀]
        exact fun hsome => heq (Option.some.inj hsome)

/-- The outer loop ends when enough is removed or only the root is left. -/
theorem evictLoop_spec (minRemoveSize : ℤ) (hinv : Inv s₀ v none) (ht : s₀.HasTenant t)
    {rounds : ℕ} (hrounds : l.length ≤ rounds) (hl : l ≠ []) (h : Removing s₀ v t l R s)
    (hcut : Cut s₀ t l R) :
    ∃ s' l' R', evictLoop t minRemoveSize rounds s l.getLast? (removedChars s₀ t R) =
        some (s', removedChars s₀ t R') ∧
      Removing s₀ v t l' R' s' ∧ l' ≠ [] ∧ (minRemoveSize ≤ removedChars s₀ t R' ∨ l' = [root]) ∧
      Cut s₀ t l' R' := by
  induction rounds generalizing l R s with
  | zero => exact absurd (List.length_eq_zero_iff.mp (Nat.le_zero.mp hrounds)) hl
  | succ rounds ih =>
    obtain ⟨l, n, rfl⟩ := (List.eq_nil_or_concat' l).resolve_left hl
    rw [List.getLast?_concat, evictLoop]
    by_cases hdone : minRemoveSize ≤ removedChars s₀ t R ∨ n = root
    · rw [if_pos hdone]
      refine ⟨s, l ++ [n], R, rfl, h, hl, hdone.imp_right ?_, hcut⟩
      rintro rfl
      by_contra hne
      have hnil : l ≠ [] := fun hnil => hne (by rw [hnil]; rfl)
      refine hinv.last_ne_root ht (l := l) (n := root) (R := R) ?_ hnil rfl
      rw [h.chain, List.append_assoc, List.singleton_append]
    · rw [if_neg hdone]
      rw [not_or] at hdone
      obtain ⟨τ, hτ₀, hτ⟩ := h.exists_time hinv (n := n) (by simp)
      have htime : (s.nodes n).tenantToLastAccessTime.get? t = some τ := hτ
      have hlen : (l ++ [n]).length ≤ s.numNodes + 1 := by
        have hle := hinv.length_chain_le t
        rw [h.chain, List.length_append] at hle
        rw [h.pruned.numNodes]
        omega
      obtain ⟨s', l', R', hgroup, hrem, hne, _, hstop, hprogress⟩ :=
        evictGroup_spec (τ := τ) hinv ht hlen hl h
      rw [List.getLast?_concat] at hgroup
      have hless : l'.length < (l ++ [n]).length := by
        obtain ⟨rfl, _⟩ | ⟨hlt, _⟩ := hprogress
        · exact absurd hτ₀ ((hstop n List.getLast?_concat).resolve_left hdone.2)
        · exact hlt
      have hcut' : Cut s₀ t l' R' := by
        intro a b ha hb
        obtain ⟨rfl, _⟩ | ⟨_, hhead⟩ := hprogress
        · exact absurd hless (Nat.lt_irrefl _)
        · rw [hhead b hb]
          exact hstop a ha
      obtain ⟨s'', l'', R'', hloop, hrest⟩ := ih (by omega) hne hrem hcut'
      refine ⟨s'', l'', R'', ?_, hrest⟩
      rw [htime]
      change (evictGroup t τ (s.numNodes + 1) s (some n) (removedChars s₀ t R)).bind
        (fun r => evictLoop t minRemoveSize rounds r.1 r.2.1 r.2.2) = _
      rw [hgroup]
      exact hloop

/-- An eviction removes enough characters from the end of the list. -/
theorem evictTenantByLru_spec (hinv : Inv s v none) (ht : s.HasTenant t) {k : ℤ}
    (hk : s.tenantToCharCount.get? t = some k) (minRemoveSize : ℤ) :
    ∃ s' l R, s.evictTenantByLru t minRemoveSize = some (s', removedChars s t R) ∧
      Removing s v t l R s' ∧ l ≠ [] ∧ min minRemoveSize k ≤ removedChars s t R ∧ Cut s t l R := by
  have hne : v.chain t ≠ [] := List.ne_nil_of_mem (hinv.root_mem_chain ht)
  have hcut : Cut s t (v.chain t) [] := fun a b _ hb => absurd hb (by simp)
  obtain ⟨s', l, R, hloop, hrem, hl, henough, hcut'⟩ :=
    evictLoop_spec (if k < minRemoveSize then k else minRemoveSize) hinv ht
      (Nat.le_succ_of_le (hinv.length_chain_le t)) hne (.start hinv t) hcut
  rw [← (hinv.threaded t).tail] at hloop
  refine ⟨s', l, R, ?_, hrem, hl, ?_, hcut'⟩
  · rw [evictTenantByLru, hk]
    exact hloop
  · obtain hle | rfl := henough
    · split_ifs at hle <;> omega
    · -- everything but the root is removed, and the root counts nothing
      have hcount := hinv.count ht
      rw [hk, hrem.chain, Option.some.injEq, List.singleton_append, List.map_cons, List.sum_cons,
        show s.weight t root = 0 from ?_, zero_add] at hcount
      · rw [removedChars, ← hcount]
        exact min_le_right _ _
      · rw [weight, hinv.shape.text_root]
        split_ifs <;> rfl

end RayTfm.Serve.PrefixTree
