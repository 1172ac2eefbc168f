import RayTfm.Raylet.LeaseDependencies

/-! # The bookkeeping of lease dependencies

What `LeaseDependencyManager` promises over whole runs.  `Needs` says who needs an object; the map
of required objects has an entry for the objects that somebody needs and the entry lists exactly who
(`Tracks`).  Every pull is held by one holder, a lease, a get request or the entry of an object,
until it is cancelled (`PullsAccounted`).  Both are carried through the loops of the operations
(`Good`) and, with the counters of the leases, through the operations (`Inv`). -/

namespace RayTfm.Raylet

variable {O W L K : Type} [DecidableEq O] [DecidableEq W] [DecidableEq L] [DecidableEq K]

/-! ### Who needs an object -/

/-- The leases, the get requests of each worker and the waiting workers that need an object. -/
@[ext] structure Needs (W L : Type) where
  leases : L → Prop
  gets : W → ℕ
  waits : W → Prop

/-- Nobody needs the object. -/
def Needs.Nobody (n : Needs W L) : Prop := (∀ l, ¬ n.leases l) ∧ (∀ w, n.gets w = 0) ∧ ∀ w, ¬ n.waits w

/-- A count of get requests in a map that has no zero counts. -/
def requestCount (k : ℕ) : Option ℤ := if k = 0 then none else some k
@[simp] theorem requestCount_zero : requestCount 0 = none := rfl

theorem requestCount_of_ne_zero {k : ℕ} (h : k ≠ 0) : requestCount k = some (k : ℤ) := if_neg h

theorem getD_requestCount (k : ℕ) : (requestCount k).getD 0 = (k : ℤ) := by
  cases k with
  | zero => rfl
  | succ k => rfl

/-- An entry lists exactly who needs the object. -/
structure Describes (d : ObjectDependencies W L) (n : Needs W L) : Prop where
  leases_nodup : d.dependentLeases.Nodup
  mem_leases : ∀ l, l ∈ d.dependentLeases ↔ n.leases l
  gets : ∀ w, d.dependentGetRequests.get? w = requestCount (n.gets w)
  waits_nodup : d.dependentWaitRequests.Nodup
  mem_waits : ∀ w, w ∈ d.dependentWaitRequests ↔ n.waits w

/-- The objects that somebody needs have an entry, which lists who does, and no others have one. -/
def Tracks (required : Dict O (ObjectDependencies W L)) (needs : O → Needs W L) : Prop :=
  ∀ o, match required.get? o with
    | none => (needs o).Nobody
    | some d => Describes d (needs o) ∧ ¬ (needs o).Nobody

omit [DecidableEq L] in
theorem describes_nobody {n : Needs W L} (h : n.Nobody) (id : ℕ) :
    Describes ⟨[], Dict.empty, [], id⟩ n where
  leases_nodup := List.nodup_nil
  mem_leases l := iff_of_false List.not_mem_nil (h.1 l)
  gets w := by rw [h.2.1 w]; rfl
  waits_nodup := List.nodup_nil
  mem_waits w := iff_of_false List.not_mem_nil (h.2.2 w)

omit [DecidableEq L] in
theorem isEmpty_iff_nobody {d : ObjectDependencies W L} {n : Needs W L} (h : Describes d n) :
    d.isEmpty = true ↔ n.Nobody := by
  unfold ObjectDependencies.isEmpty Needs.Nobody
  rw [Bool.and_eq_true, Bool.and_eq_true, List.isEmpty_iff, List.isEmpty_iff, List.isEmpty_iff,
    and_assoc]
  refine and_congr ?_ (and_congr ?_ ?_)
  · rw [List.eq_nil_iff_forall_not_mem]
    exact forall_congr' (fun l => not_congr (h.mem_leases l))
  · constructor
    · intro hnil w
      have hget : d.dependentGetRequests.get? w = none := by
        unfold Dict.get?
        rw [hnil]
        rfl
      rw [h.gets w] at hget
      by_contra hw
      rw [requestCount_of_ne_zero hw] at hget
      cases hget
    · intro hzero
      rw [List.eq_nil_iff_forall_not_mem]
      intro e he
      have hget := Dict.get?_eq_some_iff.mpr he
      rw [h.gets, hzero e.1] at hget
      cases hget
  · rw [List.eq_nil_iff_forall_not_mem]
    exact forall_congr' (fun w => not_congr (h.mem_waits w))

/-! ### Changes of who needs an object -/

namespace Needs

/-- A lease needs the object. -/
def addLease (lease : L) (n : Needs W L) : Needs W L :=
  { n with leases := fun l => l = lease ∨ n.leases l }

/-- A lease does not need the object. -/
def dropLease (lease : L) (n : Needs W L) : Needs W L :=
  { n with leases := fun l => n.leases l ∧ l ≠ lease }

/-- One more get request of a worker needs the object. -/
def addGet (worker : W) (n : Needs W L) : Needs W L :=
  { n with gets := fun w => if w = worker then n.gets w + 1 else n.gets w }

/-- One less get request of a worker needs the object. -/
def dropGet (worker : W) (n : Needs W L) : Needs W L :=
  { n with gets := fun w => if w = worker then n.gets w - 1 else n.gets w }

/-- A worker waits for the object. -/
def addWait (worker : W) (n : Needs W L) : Needs W L :=
  { n with waits := fun w => w = worker ∨ n.waits w }

/-- A worker does not wait for the object. -/
def dropWait (worker : W) (n : Needs W L) : Needs W L :=
  { n with waits := fun w => n.waits w ∧ w ≠ worker }

omit [DecidableEq W] [DecidableEq L] in
theorem iterate_addLease (lease : L) (n : Needs W L) {k : ℕ} (hk : 0 < k) :
    (addLease lease)^[k] n = addLease lease n := by
  induction k with
  | zero => cases hk
  | succ k ih =>
    rw [Function.iterate_succ_apply']
    by_cases h : 0 < k
    · rw [ih h]
      ext
      · simp [addLease]
      · rfl
      · rfl
    · obtain rfl : k = 0 := by omega
      rfl

omit [DecidableEq L] in
theorem iterate_addGet (worker : W) (n : Needs W L) (k : ℕ) :
    (addGet worker)^[k] n = { n with gets := fun w => if w = worker then n.gets w + k else n.gets w } := by
  induction k with
  | zero => ext <;> simp
  | succ k ih =>
    rw [Function.iterate_succ_apply', ih]
    ext w
    · rfl
    · unfold addGet
      dsimp only
      split_ifs
      · omega
      · rfl
    · rfl

omit [DecidableEq L] in
theorem iterate_dropGet (worker : W) (n : Needs W L) (k : ℕ) :
    (dropGet worker)^[k] n = { n with gets := fun w => if w = worker then n.gets w - k else n.gets w } := by
  induction k with
  | zero => ext <;> simp
  | succ k ih =>
    rw [Function.iterate_succ_apply', ih]
    ext w
    · rfl
    · unfold dropGet
      dsimp only
      split_ifs
      · omega
      · rfl
    · rfl

end Needs

section describes
variable {d : ObjectDependencies W L} {n : Needs W L} (h : Describes d n)
include h

theorem describes_addLease (lease : L) :
    Describes { d with dependentLeases := d.dependentLeases.insert lease } (n.addLease lease) :=
  { h with
    leases_nodup := h.leases_nodup.insert
    mem_leases := fun l => by
      show l ∈ d.dependentLeases.insert lease ↔ l = lease ∨ n.leases l
      rw [List.mem_insert_iff, h.mem_leases] }

theorem describes_dropLease (lease : L) :
    Describes { d with dependentLeases := d.dependentLeases.erase lease } (n.dropLease lease) :=
  { h with
    leases_nodup := h.leases_nodup.erase lease
    mem_leases := fun l => by
      show l ∈ d.dependentLeases.erase lease ↔ n.leases l ∧ l ≠ lease
      rw [h.leases_nodup.mem_erase_iff, h.mem_leases, and_comm] }

omit [DecidableEq L] in
theorem describes_addWait (worker : W) :
    Describes { d with dependentWaitRequests := d.dependentWaitRequests.insert worker }
      (n.addWait worker) :=
  { h with
    waits_nodup := h.waits_nodup.insert
    mem_waits := fun w => by
      show w ∈ d.dependentWaitRequests.insert worker ↔ w = worker ∨ n.waits w
      rw [List.mem_insert_iff, h.mem_waits] }

omit [DecidableEq L] in
theorem describes_dropWait (worker : W) :
    Describes { d with dependentWaitRequests := d.dependentWaitRequests.erase worker }
      (n.dropWait worker) :=
  { h with
    waits_nodup := h.waits_nodup.erase worker
    mem_waits := fun w => by
      show w ∈ d.dependentWaitRequests.erase worker ↔ n.waits w ∧ w ≠ worker
      rw [h.waits_nodup.mem_erase_iff, h.mem_waits, and_comm] }

omit [DecidableEq L] in
theorem describes_addGet (worker : W) :
    Describes (LeaseDependencyManager.addGetRequest worker d) (n.addGet worker) :=
  { h with
    gets := fun w => by
      unfold LeaseDependencyManager.addGetRequest Needs.addGet
      dsimp only
      rw [Dict.get?_set, h.gets, getD_requestCount]
      by_cases hw : w = worker
      · subst hw
        rw [if_pos rfl, if_pos rfl, requestCount_of_ne_zero (Nat.succ_ne_zero _)]
        rfl
      · rw [if_neg hw, if_neg hw, h.gets] }

omit [DecidableEq L] in
theorem describes_dropGet {worker : W} (hpos : 0 < n.gets worker) :
    Describes (LeaseDependencyManager.dropGetRequest worker d) (n.dropGet worker) :=
  { h with
    gets := fun w => by
      unfold LeaseDependencyManager.dropGetRequest Needs.dropGet
      dsimp only
      rw [h.gets worker, getD_requestCount]
      by_cases hw : w = worker
      · subst hw
        rw [if_pos rfl]
        by_cases hone : n.gets w = 1
        · rw [if_pos (by omega), Dict.get?_erase, if_pos rfl, hone]
          rfl
        · rw [if_neg (by omega), Dict.get?_set_self, requestCount_of_ne_zero (by omega)]
          congr 1
          omega
      · rw [if_neg hw]
        split_ifs with hcount
        · rw [Dict.get?_erase, if_neg hw, Dict.get?_set_ne _ _ hw, h.gets]
        · rw [Dict.get?_set_ne _ _ hw, h.gets] }

end describes

/-! ### Pulls -/

/-- Who can hold a pull. -/
inductive Holder (O W L : Type) where
  | lease (lease : L)
  | get (worker : W) (requestId : ℤ)
  | wait (object : O)

/-- The pulls that were issued. -/
def pullIds (out : List (Event L)) : List ℕ :=
  out.filterMap (fun e => match e with
    | .pull id => some id
    | _ => none)

/-- The pulls that were cancelled. -/
def cancelIds (out : List (Event L)) : List ℕ :=
  out.filterMap (fun e => match e with
    | .cancelPull id => some id
    | _ => none)

/-- Every pull is issued once, and held by one holder until it is cancelled, which happens once. -/
structure PullsAccounted (holds : Holder O W L → ℕ → Prop) (next : ℕ) (out : List (Event L)) :
    Prop where
  next_pos : 0 < next
  pulled : pullIds out = List.range' 1 (next - 1)
  cancels_nodup : (cancelIds out).Nodup
  cancels_lt : ∀ id ∈ cancelIds out, 0 < id ∧ id < next
  held : ∀ h id, holds h id → 0 < id ∧ id < next ∧ id ∉ cancelIds out
  exists_holder : ∀ id, 0 < id → id < next → id ∉ cancelIds out → ∃ h, holds h id
  holder_unique : ∀ h h' id, holds h id → holds h' id → h = h'

namespace PullsAccounted
variable {holds holds' : Holder O W L → ℕ → Prop} {next : ℕ} {out : List (Event L)}
omit [DecidableEq O] [DecidableEq W] [DecidableEq L]

theorem congr (h : PullsAccounted holds next out) (hiff : ∀ h id, holds' h id ↔ holds h id) :
    PullsAccounted holds' next out := by
  have heq : holds' = holds := funext fun h => funext fun id => propext (hiff h id)
  rwa [heq]

theorem pull (h : PullsAccounted holds next out) (holder : Holder O W L)
    (hiff : ∀ h id, holds' h id ↔ holds h id ∨ (h = holder ∧ id = next)) :
    PullsAccounted holds' (next + 1) (out ++ [.pull next]) := by
  have hcancels : cancelIds (out ++ [.pull next]) = cancelIds out := by
    unfold cancelIds
    rw [List.filterMap_append]
    exact List.append_nil _
  have hpulls : pullIds (out ++ [.pull next]) = pullIds out ++ [next] := by
    unfold pullIds
    rw [List.filterMap_append]
    rfl
  have hnew : next ∉ cancelIds out := fun hmem => absurd (h.cancels_lt next hmem).2 (lt_irrefl _)
  refine ⟨Nat.succ_pos _, ?_, ?_, ?_, ?_, ?_, ?_⟩
  · have hpos := h.next_pos
    rw [hpulls, h.pulled, show next + 1 - 1 = (next - 1) + 1 by omega, List.range'_concat]
    congr 2
    omega
  · rw [hcancels]
    exact h.cancels_nodup
  · intro id hid
    rw [hcancels] at hid
    have := h.cancels_lt id hid
    omega
  · intro holder' id hid
    rw [hcancels]
    obtain hid | ⟨-, rfl⟩ := (hiff holder' id).mp hid
    · obtain ⟨hpos, hlt, hmem⟩ := h.held holder' id hid
      exact ⟨hpos, by omega, hmem⟩
    · exact ⟨h.next_pos, by omega, hnew⟩
  · intro id hpos hlt hid
    rw [hcancels] at hid
    by_cases heq : id = next
    · exact ⟨holder, (hiff holder id).mpr (.inr ⟨rfl, heq⟩)⟩
    · obtain ⟨holder', hholds⟩ := h.exists_holder id hpos (by omega) hid
      exact ⟨holder', (hiff holder' id).mpr (.inl hholds)⟩
  · intro h₁ h₂ id hh₁ hh₂
    obtain hh₁ | ⟨rfl, rfl⟩ := (hiff h₁ id).mp hh₁
    · obtain hh₂ | ⟨rfl, rfl⟩ := (hiff h₂ id).mp hh₂
      · exact h.holder_unique h₁ h₂ id hh₁ hh₂
      · exact absurd (h.held h₁ _ hh₁).2.1 (lt_irrefl _)
    · obtain hh₂ | ⟨rfl, -⟩ := (hiff h₂ _).mp hh₂
      · exact absurd (h.held h₂ _ hh₂).2.1 (lt_irrefl _)
      · rfl

variable {holder : Holder O W L}

theorem cancel (h : PullsAccounted holds next out) {id : ℕ} (hid : holds holder id)
    (hiff : ∀ h id', holds' h id' ↔ holds h id' ∧ id' ≠ id) :
    PullsAccounted holds' next (out ++ [.cancelPull id]) := by
  have hcancels : cancelIds (out ++ [.cancelPull id]) = cancelIds out ++ [id] := by
    unfold cancelIds
    rw [List.filterMap_append]
    rfl
  have hpulls : pullIds (out ++ [.cancelPull id]) = pullIds out := by
    unfold pullIds
    rw [List.filterMap_append]
    exact List.append_nil _
  obtain ⟨hpos, hlt, hmem⟩ := h.held holder id hid
  refine ⟨h.next_pos, hpulls.trans h.pulled, ?_, ?_, ?_, ?_, ?_⟩
  · rw [hcancels]
    exact List.nodup_append.mpr ⟨h.cancels_nodup, List.nodup_singleton _, by
      intro a ha b hb
      obtain rfl := List.mem_singleton.mp hb
      rintro rfl
      exact hmem ha⟩
  · rw [hcancels, List.forall_mem_append, List.forall_mem_singleton]
    exact ⟨h.cancels_lt, hpos, hlt⟩
  · intro h' id' hholds
    obtain ⟨hholds, hne⟩ := (hiff h' id').mp hholds
    obtain ⟨hpos', hlt', hmem'⟩ := h.held h' id' hholds
    rw [hcancels, List.mem_append, List.mem_singleton]
    exact ⟨hpos', hlt', fun hor => hor.elim hmem' hne⟩
  · intro id' hpos' hlt' hid'
    rw [hcancels, List.mem_append, List.mem_singleton, not_or] at hid'
    obtain ⟨h', hholds⟩ := h.exists_holder id' hpos' hlt' hid'.1
    exact ⟨h', (hiff h' id').mpr ⟨hholds, hid'.2⟩⟩
  · intro h₁ h₂ id' hh₁ hh₂
    exact h.holder_unique h₁ h₂ id' ((hiff h₁ id').mp hh₁).1 ((hiff h₂ id').mp hh₂).1

theorem cancelHolder (h : PullsAccounted holds next out) {id : ℕ} (hid : holds holder id)
    (honly : ∀ id', holds holder id' → id' = id)
    (hiff : ∀ h id', holds' h id' ↔ holds h id' ∧ h ≠ holder) :
    PullsAccounted holds' next (out ++ [.cancelPull id]) := by
  refine h.cancel hid (fun h' id' => (hiff h' id').trans (and_congr_right (fun hholds => ?_)))
  constructor
  · rintro hne rfl
    exact hne (h.holder_unique h' holder id' hholds hid)
  · rintro hne rfl
    exact hne (honly id' hholds)

theorem append (h : PullsAccounted holds next out) {ev : List (Event L)} (hpulls : pullIds ev = [])
    (hcancels : cancelIds ev = []) : PullsAccounted holds next (out ++ ev) := by
  have hc : cancelIds (out ++ ev) = cancelIds out := by
    unfold cancelIds at hcancels ⊢
    rw [List.filterMap_append, hcancels, List.append_nil]
  have hp : pullIds (out ++ ev) = pullIds out := by
    unfold pullIds at hpulls ⊢
    rw [List.filterMap_append, hpulls, List.append_nil]
  exact ⟨h.next_pos, hp.trans h.pulled, hc ▸ h.cancels_nodup, hc ▸ h.cancels_lt, hc ▸ h.held,
    hc ▸ h.exists_holder,
    h.holder_unique⟩

theorem mem_cancelIds_of_no_holder (h : PullsAccounted holds next out)
    (hnone : ∀ h id, ¬ holds h id) {id : ℕ}
    (hid : id ∈ pullIds out) : id ∈ cancelIds out := by
  rw [h.pulled, List.mem_range'_1] at hid
  have := h.next_pos
  by_contra hmem
  obtain ⟨h', hholds⟩ := h.exists_holder id (by omega) (by omega) hmem
  exact hnone h' id hholds

end PullsAccounted

/-! ### Loops over required objects -/

/-- The pulls that leases and get requests hold, and those of the entries of required objects. -/
def holdsWith (others : Holder O W L → ℕ → Prop) (required : Dict O (ObjectDependencies W L)) :
    Holder O W L → ℕ → Prop
  | .wait object, id => 0 < id ∧ ∃ d, required.get? object = some d ∧ d.waitRequestId = id
  | h, id => others h id

/-- What the loops of the operations keep. -/
structure Good (m : LeaseDependencyManager O W L K) (needs : O → Needs W L)
    (others : Holder O W L → ℕ → Prop)
    (out : List (Event L)) : Prop where
  tracks : Tracks m.requiredObjects needs
  pulls : PullsAccounted (holdsWith others m.requiredObjects) m.nextReqId out

section loops
variable {m : LeaseDependencyManager O W L K} {needs : O → Needs W L} {others : Holder O W L → ℕ → Prop}
  {out : List (Event L)} {change : ObjectDependencies W L → ObjectDependencies W L}

variable {required : Dict O (ObjectDependencies W L)} {object : O} {d : ObjectDependencies W L}

omit [DecidableEq W] [DecidableEq L] in
theorem holdsWith_set {d' : ObjectDependencies W L}
    (hget : required.get? object = some d ∨ (required.get? object = none ∧ d.waitRequestId = 0))
    (hid : d'.waitRequestId = d.waitRequestId) (h : Holder O W L) (id : ℕ) :
    holdsWith others (required.set object d') h id ↔ holdsWith others required h id := by
  cases h with
  | lease l => exact Iff.rfl
  | get w r => exact Iff.rfl
  | wait o =>
    refine and_congr_right (fun hpos => ?_)
    rw [Dict.get?_set]
    by_cases ho : o = object
    · subst ho
      rw [if_pos rfl]
      constructor
      · rintro ⟨d₁, hd₁, rfl⟩
        cases hd₁
        obtain hget | ⟨-, hzero⟩ := hget
        · exact ⟨d, hget, hid.symm⟩
        · omega
      · rintro ⟨d₁, hd₁, rfl⟩
        obtain hget | ⟨hnone, -⟩ := hget
        · rw [hd₁] at hget
          cases hget
          exact ⟨d', rfl, hid⟩
        · rw [hnone] at hd₁
          cases hd₁
    · rw [if_neg ho]

omit [DecidableEq W] [DecidableEq L] in
theorem holdsWith_erase (object : O) (h : Holder O W L) (id : ℕ) :
    holdsWith others (required.erase object) h id ↔ holdsWith others required h id ∧
    h ≠ .wait object := by
  cases h with
  | lease l => exact (and_iff_left (by simp)).symm
  | get w r => exact (and_iff_left (by simp)).symm
  | wait o =>
    show (0 < id ∧ ∃ d, (required.erase object).get? o = some d ∧ d.waitRequestId = id) ↔
      (0 < id ∧ ∃ d, required.get? o = some d ∧ d.waitRequestId = id) ∧
      Holder.wait o ≠ Holder.wait object
    rw [Dict.get?_erase, and_assoc]
    refine and_congr_right (fun _ => ?_)
    by_cases ho : o = object
    · subst ho
      simp
    · rw [if_neg ho, and_iff_left (fun heq => ho (Holder.wait.inj heq))]

omit [DecidableEq W] [DecidableEq L] in
theorem holdsWith_wait (hget : required.get? object = some d) {id : ℕ} :
    holdsWith others required (.wait object) id ↔ 0 < id ∧ id = d.waitRequestId := by
  refine and_congr_right (fun _ => ?_)
  rw [hget]
  constructor
  · rintro ⟨d', hd, rfl⟩
    cases hd
    rfl
  · rintro rfl
    exact ⟨d, rfl, rfl⟩

variable {n : Needs W L}

omit [DecidableEq L] [DecidableEq K] in
theorem Good.requireObject (h : Good m needs others out)
    (hchange : ∀ d, Describes d (needs object) → Describes (change d) n)
    (hid : ∀ d, (change d).waitRequestId = d.waitRequestId) (hn : ¬ n.Nobody) :
    Good (m.requireObject change object) (Function.update needs object n) others out := by
  have hobject := h.tracks object
  set d := (m.requiredObjects.get? object).getD ⟨[], Dict.empty, [], 0⟩ with hd
  have hdesc : Describes d (needs object) := by
    cases hget : m.requiredObjects.get? object with
    | none =>
      rw [hget] at hobject hd
      rw [hd]
      exact describes_nobody hobject 0
    | some d₀ =>
      rw [hget] at hobject hd
      rw [hd]
      exact hobject.1
  refine ⟨?_, ?_⟩
  · intro o
    show match (m.requiredObjects.set object (change d)).get? o with | none => _ | some d => _
    rw [Dict.get?_set]
    by_cases ho : o = object
    · subst ho
      rw [if_pos rfl, Function.update_self]
      exact ⟨hchange d hdesc, hn⟩
    · rw [if_neg ho, Function.update_of_ne ho]
      exact h.tracks o
  · refine h.pulls.congr (fun holder id => holdsWith_set (d := d) ?_ (hid d) holder id)
    cases hget : m.requiredObjects.get? object with
    | none =>
      rw [hget] at hd
      exact .inr ⟨rfl, by rw [hd]; rfl⟩
    | some d₀ =>
      rw [hget] at hd
      exact .inl (by rw [hd]; rfl)

/-- Nothing but the required objects changes. -/
def OnlyRequired (m m' : LeaseDependencyManager O W L K) : Prop :=
  ∃ required, m' = { m with requiredObjects := required }

omit [DecidableEq L] [DecidableEq K] in
theorem removeObjectIfNotNeeded_good
    (hget : m.requiredObjects.get? object = some d) (hdesc : Describes d n)
    (htracks : ∀ o, o ≠ object → match m.requiredObjects.get? o with
      | none => (needs o).Nobody
      | some d => Describes d (needs o) ∧ ¬ (needs o).Nobody)
    (hpulls : PullsAccounted (holdsWith others m.requiredObjects) m.nextReqId out) :
    ∃ m' ev, m.removeObjectIfNotNeeded object d = (m', ev) ∧ OnlyRequired m m' ∧
      Good m' (Function.update needs object n) others (out ++ ev) := by
  unfold LeaseDependencyManager.removeObjectIfNotNeeded
  have herase : d.isEmpty = true →
    Tracks (m.requiredObjects.erase object) (Function.update needs object n) := by
    intro hempty o
    rw [Dict.get?_erase]
    by_cases ho : o = object
    · subst ho
      rw [if_pos rfl, Function.update_self]
      exact (isEmpty_iff_nobody hdesc).mp hempty
    · rw [if_neg ho, Function.update_of_ne ho]
      exact htracks o ho
  split_ifs with hempty hpull
  · refine ⟨_, _, rfl, ⟨_, rfl⟩, herase hempty, ?_⟩
    exact hpulls.cancelHolder ((holdsWith_wait hget).mpr ⟨hpull, rfl⟩)
      (fun id hid => ((holdsWith_wait hget).mp hid).2) (holdsWith_erase object)
  · refine ⟨_, _, rfl, ⟨_, rfl⟩, herase hempty, ?_⟩
    rw [List.append_nil]
    refine hpulls.congr (fun holder id => (holdsWith_erase object holder id).trans
      (and_iff_left_of_imp ?_))
    rintro hholds rfl
    have := (holdsWith_wait hget).mp hholds
    omega
  · refine ⟨_, _, rfl, ⟨_, rfl⟩, ?_, ?_⟩
    · intro o
      by_cases ho : o = object
      · subst ho
        rw [hget, Function.update_self]
        exact ⟨hdesc, fun hnobody => hempty ((isEmpty_iff_nobody hdesc).mpr hnobody)⟩
      · rw [Function.update_of_ne ho]
        exact htracks o ho
    · rw [List.append_nil]
      exact hpulls

theorem Good.releaseObject (h : Good m needs others out)
    (hchange : ∀ d, Describes d (needs object) → Describes (change d) n)
    (hid : ∀ d, (change d).waitRequestId = d.waitRequestId) (hneeded : ¬ (needs object).Nobody) :
    ∃ m' ev, m.releaseObject change object = .ok (m', ev) ∧ OnlyRequired m m' ∧
      Good m' (Function.update needs object n) others (out ++ ev) := by
  have hobject := h.tracks object
  cases hget : m.requiredObjects.get? object with
  | none =>
    rw [hget] at hobject
    exact absurd hobject hneeded
  | some d =>
    rw [hget] at hobject
    obtain ⟨m', ev, hremove, honly, hgood⟩ := removeObjectIfNotNeeded_good
      (m := { m with requiredObjects := m.requiredObjects.set object (change d) })
      (Dict.get?_set_self _ _ _)
      (hchange d hobject.1) (fun o ho => by
        rw [Dict.get?_set_ne _ _ ho]
        exact h.tracks o) (h.pulls.congr (holdsWith_set (.inl hget) (hid d)))
    unfold LeaseDependencyManager.releaseObject
    rw [hget, rayFind_some]
    simp only [ok_bind, hremove]
    exact ⟨m', ev, rfl, honly, hgood⟩

omit [DecidableEq L] [DecidableEq K] in
theorem Good.requireObjects (f : Needs W L → Needs W L)
    (hchange : ∀ d n, Describes d n → Describes (change d) (f n))
    (hid : ∀ d, (change d).waitRequestId = d.waitRequestId) (hn : ∀ n, ¬ (f n).Nobody)
    (objects : List O)
    (h : Good m needs others out) :
    ∃ required, objects.foldl (fun m object => m.requireObject change object) m =
      { m with requiredObjects := required } ∧
      Good { m with requiredObjects := required } (fun o => f^[objects.count o] (needs o))
        others out := by
  induction objects generalizing m needs with
  | nil => exact ⟨m.requiredObjects, rfl, h⟩
  | cons object objects ih =>
    obtain ⟨required, hrun, hgood⟩ := ih (h.requireObject (hchange · _) hid (hn _))
    refine ⟨required, hrun, ?_⟩
    have hneeds : (fun o => f^[(object :: objects).count o] (needs o)) =
        fun o => f^[objects.count o] (Function.update needs object (f (needs object)) o) := by
      funext o
      rw [List.count_cons]
      by_cases ho : o = object
      · subst ho
        rw [Function.update_self, if_pos (beq_self_eq_true o), Function.iterate_succ_apply]
      · rw [Function.update_of_ne ho, if_neg (by simpa using fun h => ho h.symm), Nat.add_zero]
    rw [hneeds]
    exact hgood

theorem Good.releaseObjects (f : Needs W L → Needs W L) (ok : Needs W L → Prop) (objects : List O)
    (hchange : ∀ d n, ok n → Describes d n → Describes (change d) (f n))
    (hid : ∀ d, (change d).waitRequestId = d.waitRequestId) (hok : ∀ n, ok n → ¬ n.Nobody)
    (hneeded : ∀ o, ∀ k < objects.count o, ok (f^[k] (needs o))) (h : Good m needs others out) :
    ∃ required ev, runSteps (fun m => LeaseDependencyManager.releaseObject m change) m objects =
        .ok ({ m with requiredObjects := required }, ev) ∧
      Good { m with requiredObjects := required } (fun o => f^[objects.count o] (needs o)) others
        (out ++ ev) := by
  induction objects generalizing m needs out with
  | nil => exact ⟨m.requiredObjects, [], rfl, by rwa [List.append_nil]⟩
  | cons object objects ih =>
    have hfirst := hneeded object 0 (by rw [List.count_cons_self]; omega)
    obtain ⟨m₁, ev, hstep, ⟨required₁, rfl⟩, hgood⟩ :=
      h.releaseObject (hchange · _ hfirst) hid (hok _ hfirst)
    have hneeds : ∀ o k, f^[k] (Function.update needs object (f (needs object)) o) =
        f^[k + if o = object then 1 else 0] (needs o) := by
      intro o k
      by_cases ho : o = object
      · subst ho
        rw [Function.update_self, if_pos rfl, Function.iterate_succ_apply]
      · rw [Function.update_of_ne ho, if_neg ho, Nat.add_zero]
    have hcount : ∀ o, (object :: objects).count o = objects.count o + if o = object then 1 else 0 := by
      intro o
      rw [List.count_cons]
      by_cases ho : o = object
      · subst ho
        simp
      · rw [if_neg ho, if_neg (by simpa using fun h => ho h.symm)]
    have hrest : ∀ o, ∀ k < objects.count o,
      ok (f^[k] (Function.update needs object (f (needs object)) o)) := by
      intro o k hk
      rw [hneeds]
      refine hneeded o _ ?_
      rw [hcount]
      omega
    obtain ⟨required, ev', hrun, hgood'⟩ := ih hrest hgood
    refine ⟨required, ev ++ ev', runSteps_cons_eq_ok.mpr ⟨_, ev, ev', hstep, hrun, rfl⟩, ?_⟩
    · rw [← List.append_assoc]
      have heq : (fun o => f^[(object :: objects).count o] (needs o)) =
          fun o => f^[objects.count o] (Function.update needs object (f (needs object)) o) := by
        funext o
        rw [hcount, hneeds]
      rw [heq]
      exact hgood'

omit [DecidableEq L] [DecidableEq K] in
theorem Good.of_eq {m' : LeaseDependencyManager O W L K} {needs' : O → Needs W L}
    {others' : Holder O W L → ℕ → Prop}
    (h : Good m needs others out) (hrequired : m'.requiredObjects = m.requiredObjects)
    (hnext : m'.nextReqId = m.nextReqId) (hneeds : ∀ o, needs' o = needs o)
    (hothers : ∀ h id, others' h id ↔ others h id) : Good m' needs' others' out := by
  have hneeds : needs' = needs := funext hneeds
  have hothers : others' = others := funext fun h => funext fun id => propext (hothers h id)
  subst hneeds hothers
  exact ⟨hrequired ▸ h.tracks, hnext ▸ hrequired ▸ h.pulls⟩

omit [DecidableEq L] [DecidableEq K] in
theorem Good.startPull (h : Good m needs others out)
    (hget : m.requiredObjects.get? object = some d) (hzero : d.waitRequestId = 0) :
    Good (m.pull.1.requireObject (fun d => { d with waitRequestId := m.pull.2 }) object) needs others
      (out ++ [.pull m.pull.2]) := by
  have hset : (m.pull.1.requireObject (fun d => { d with waitRequestId := m.pull.2 })
    object).requiredObjects =
      m.requiredObjects.set object { d with waitRequestId := m.nextReqId } := by
    show m.requiredObjects.set object
      { (m.requiredObjects.get? object).getD _ with waitRequestId := m.nextReqId } = _
    rw [hget, Option.getD_some]
  have hobject := h.tracks object
  rw [hget] at hobject
  refine ⟨?_, ?_⟩
  · rw [hset]
    intro o
    rw [Dict.get?_set]
    by_cases ho : o = object
    · subst ho
      rw [if_pos rfl]
      exact ⟨{ hobject.1 with }, hobject.2⟩
    · rw [if_neg ho]
      exact h.tracks o
  · rw [hset]
    refine h.pulls.pull (.wait object) (fun holder id => ?_)
    cases holder with
    | lease l => exact (or_iff_left (fun hand => nomatch hand.1)).symm
    | get w r => exact (or_iff_left (fun hand => nomatch hand.1)).symm
    | wait o =>
      by_cases ho : o = object
      · subst ho
        rw [holdsWith_wait (Dict.get?_set_self _ _ _), holdsWith_wait hget, hzero]
        have := h.pulls.next_pos
        constructor
        · rintro ⟨-, rfl⟩
          exact .inr ⟨rfl, rfl⟩
        · rintro (⟨hpos, hid⟩ | ⟨-, rfl⟩)
          · omega
          · exact ⟨this, rfl⟩
      · show (0 < id ∧ ∃ d', (m.requiredObjects.set object _).get? o = some d' ∧
          d'.waitRequestId = id) ↔
          (0 < id ∧ ∃ d', m.requiredObjects.get? o = some d' ∧ d'.waitRequestId = id) ∨
            (Holder.wait o = Holder.wait object ∧ id = m.nextReqId)
        rw [Dict.get?_set_ne _ _ ho, or_iff_left (fun hand => ho (Holder.wait.inj hand.1))]

end loops

/-! ### What is asked for -/

/-- What leases and workers asked for and still need, and the local objects: the objects of each
queued lease and of each get request, the objects that a worker waits for. -/
@[ext] structure Demand (O W L : Type) where
  leases : L → Option (List O)
  gets : W → ℤ → Option (List O)
  waits : W → O → Prop
  isLocal : O → Prop

namespace Demand

/-- Nothing is asked for, nothing is local. -/
def init : Demand O W L := ⟨fun _ => none, fun _ _ => none, fun _ _ => False, fun _ => False⟩

/-- A worker waits for the objects that are not local. -/
def wait (d : Demand O W L) (worker : W) (objects : List O) : Demand O W L :=
  { d with waits := fun w o => d.waits w o ∨ (w = worker ∧ o ∈ objects ∧ ¬ d.isLocal o) }

/-- What an operation means. -/
def apply (d : Demand O W L) : Op O W L K → Demand O W L
  | .startOrUpdateWaitRequest worker objects => d.wait worker objects
  | .cancelWaitRequest worker => { d with waits := fun w o => d.waits w o ∧ w ≠ worker }
  | .startGetRequest worker objects requestId =>
    { d with gets := fun w id => if (w, id) = (worker, requestId) then some objects else d.gets w id }
  | .cancelGetRequest worker requestId =>
    { d with gets := fun w id => if (w, id) = (worker, requestId) then none else d.gets w id }
  | .cancelGetRequests worker => { d with gets := fun w id => if w = worker then none else d.gets w id }
  | .requestLeaseDependencies lease objects _ =>
    { d with leases := fun l => if l = lease then some objects.dedup else d.leases l }
  | .removeLeaseDependencies lease => { d with leases := fun l => if l = lease then none else d.leases l }
  | .handleObjectLocal object =>
    { d with waits := fun w o => d.waits w o ∧ o ≠ object, isLocal := fun o => o = object ∨ d.isLocal o }
  | .handleObjectMissing object => { d with isLocal := fun o => d.isLocal o ∧ o ≠ object }

/-- When the callers may call an operation: the id of a get request is not in use, a lease asks once
while it is queued and is removed while it is queued, an object becomes local and missing in
turn. -/
def Allowed (d : Demand O W L) : Op O W L K → Prop
  | .startGetRequest worker _ requestId => d.gets worker requestId = none
  | .requestLeaseDependencies lease _ _ => d.leases lease = none
  | .removeLeaseDependencies lease => (d.leases lease).isSome
  | .handleObjectLocal object => ¬ d.isLocal object
  | .handleObjectMissing object => d.isLocal object
  | _ => True

omit [DecidableEq O] [DecidableEq W] [DecidableEq L] in
theorem wait_nil (d : Demand O W L) (worker : W) : d.wait worker [] = d := by
  ext w o
  · exact Iff.rfl
  · exact Iff.rfl
  · exact or_iff_left (fun hand => (nomatch hand.2.1))
  · exact Iff.rfl

omit [DecidableEq W] [DecidableEq L] in
theorem wait_cons (d : Demand O W L) (worker : W) (object : O) (objects : List O) :
    d.wait worker (object :: objects) = (d.wait worker [object]).wait worker objects := by
  ext w o
  · exact Iff.rfl
  · exact Iff.rfl
  · show (_ ∨ (w = worker ∧ o ∈ object :: objects ∧ ¬ d.isLocal o)) ↔
      (_ ∨ (w = worker ∧ o ∈ [object] ∧ ¬ d.isLocal o)) ∨ (w = worker ∧ o ∈ objects ∧ ¬ d.isLocal o)
    rw [List.mem_cons, List.mem_singleton]
    tauto
  · exact Iff.rfl

end Demand

/-! ### The invariant -/

namespace LeaseDependencyManager

/-- What the maps of the manager ask for. -/
def demand (m : LeaseDependencyManager O W L K) : Demand O W L where
  leases lease := (m.queuedLeaseRequests.get? lease).map (·.dependencies)
  gets worker requestId := (m.getRequests.get? (worker, requestId)).map (·.1)
  waits worker object := ∃ waitRequest, m.waitRequests.get? worker = some waitRequest ∧
    object ∈ waitRequest
  isLocal object := object ∈ m.localObjects

/-- Who needs an object, by the maps of leases, get and wait requests. -/
def needs (m : LeaseDependencyManager O W L K) (object : O) : Needs W L where
  leases lease := ∃ e, m.queuedLeaseRequests.get? lease = some e ∧ object ∈ e.dependencies
  gets worker := m.getRequests.total (fun k v => if k.1 = worker then v.1.count object else 0)
  waits worker := ∃ waitRequest, m.waitRequests.get? worker = some waitRequest ∧ object ∈ waitRequest

/-- The pulls that leases and get requests hold. -/
def others (m : LeaseDependencyManager O W L K) : Holder O W L → ℕ → Prop
  | .lease lease, id => 0 < id ∧ ∃ e, m.queuedLeaseRequests.get? lease = some e ∧ e.pullRequestId = id
  | .get worker requestId, id => ∃ g, m.getRequests.get? (worker, requestId) = some g ∧ g.2 = id
  | .wait _, _ => False

/-- A lease with missing objects under a key, for the counter. -/
def waitingUnder (key : K) (e : LeaseDependencies O K) : ℕ :=
  if e.taskKey = key ∧ 0 < e.numMissingDependencies then 1 else 0

/-- The counter counts the leases with missing objects. -/
def CounterInv (queued : Dict L (LeaseDependencies O K)) (counter : Dict K ℤ) : Prop :=
  ∀ key, counter.get? key = requestCount (queued.total (fun _ e => waitingUnder key e))

/-- The invariant, but for empty wait requests. -/
structure Core (m : LeaseDependencyManager O W L K) (out : List (Event L)) : Prop where
  good : Good m m.needs m.others out
  leases : ∀ lease e, m.queuedLeaseRequests.get? lease = some e → e.dependencies.Nodup ∧
    e.numMissingDependencies = ((e.dependencies.filter (· ∉ m.localObjects)).length : ℤ)
  counter : CounterInv m.queuedLeaseRequests m.waitingLeasesCounter
  waits : ∀ worker waitRequest, m.waitRequests.get? worker = some waitRequest →
    waitRequest.Nodup ∧ ∀ o ∈ waitRequest, o ∉ m.localObjects
  requests_isSome : ∀ worker id, (m.getRequests.get? (worker, id)).isSome ↔
    ∃ ids, m.workerToRequests.get? worker = some ids ∧ id ∈ ids
  requests : ∀ worker ids, m.workerToRequests.get? worker = some ids → ids ≠ [] ∧ ids.Nodup
  locals_nodup : m.localObjects.Nodup

/-- The invariant of the manager. -/
structure Inv (m : LeaseDependencyManager O W L K) (out : List (Event L)) :
    Prop extends Core m out where
  waits_ne_nil : ∀ worker waitRequest, m.waitRequests.get? worker = some waitRequest → waitRequest ≠ []

theorem inv_init : Inv (init : LeaseDependencyManager O W L K) [] where
  good :=
    { tracks := fun o =>
      ⟨fun l ⟨e, he, _⟩ => (nomatch he), fun w => rfl, fun w ⟨s, hs, _⟩ => (nomatch hs)⟩
      pulls :=
        { next_pos := Nat.one_pos
          pulled := rfl
          cancels_nodup := List.nodup_nil
          cancels_lt := fun id hid => nomatch hid
          held := fun h id hid => by
            cases h with
            | lease l => obtain ⟨-, e, he, -⟩ := hid; cases he
            | get w r => obtain ⟨g, hg, -⟩ := hid; cases hg
            | wait o => obtain ⟨-, d, hd, -⟩ := hid; cases hd
          exists_holder := fun id hpos hlt => absurd hlt (by show ¬ id < 1; omega)
          holder_unique := fun h h' id hid _ => by
            cases h with
            | lease l => obtain ⟨-, e, he, -⟩ := hid; cases he
            | get w r => obtain ⟨g, hg, -⟩ := hid; cases hg
            | wait o => obtain ⟨-, d, hd, -⟩ := hid; cases hd } }
  leases := fun l e he => nomatch he
  counter := fun key => rfl
  waits := fun w s hs => nomatch hs
  requests_isSome := fun w id => ⟨fun h => (nomatch h), fun ⟨ids, h, _⟩ => (nomatch h)⟩
  requests := fun w ids h => nomatch h
  locals_nodup := List.nodup_nil
  waits_ne_nil := fun w s hs => nomatch hs

/-! ### Wait requests -/

section waits
variable {m : LeaseDependencyManager O W L K} {out : List (Event L)}

theorem cancelWaitRequest_inv (h : Inv m out) (worker : W) :
    ∃ m' ev, m.cancelWaitRequest worker = .ok (m', ev) ∧ Inv m' (out ++ ev) ∧
      m'.demand = m.demand.apply (K := K) (.cancelWaitRequest worker) := by
  unfold cancelWaitRequest
  cases hget : m.waitRequests.get? worker with
  | none =>
    refine ⟨m, [], rfl, by rwa [List.append_nil], Demand.ext rfl rfl ?_ rfl⟩
    funext w o
    refine propext (and_iff_left_of_imp ?_).symm
    rintro ⟨s, hs, -⟩ rfl
    rw [hget] at hs
    cases hs
  | some waitRequest =>
    have hnodup := (h.waits worker waitRequest hget).1
    have hwaits : ∀ o, o ∈ waitRequest → (m.needs o).waits worker := fun o ho => ⟨waitRequest, hget, ho⟩
    have hcount : ∀ o, waitRequest.count o = if o ∈ waitRequest then 1 else 0 := by
      intro o
      split_ifs with ho
      · exact List.count_eq_one_of_mem hnodup ho
      · exact List.count_eq_zero_of_not_mem ho
    obtain ⟨required, ev, hrun, hgood⟩ :=
      h.good.releaseObjects (Needs.dropWait worker) (fun n => n.waits worker)
      waitRequest (fun d n _ hd => describes_dropWait hd worker) (fun d => rfl)
      (fun n hn hnobody => hnobody.2.2 worker hn) (by
        intro o k hk
        rw [hcount] at hk
        split_ifs at hk with ho
        · obtain rfl : k = 0 := by omega
          exact hwaits o ho
        · omega)
    simp only [hrun, ok_bind]
    have hget' : ∀ w, (m.waitRequests.erase worker).get? w = if w = worker then none
      else m.waitRequests.get? w :=
      Dict.get?_erase _ _
    have hwaits' : ∀ w o, (∃ s, (m.waitRequests.erase worker).get? w = some s ∧ o ∈ s) ↔
        (∃ s, m.waitRequests.get? w = some s ∧ o ∈ s) ∧ w ≠ worker := by
      intro w o
      rw [hget']
      split_ifs with hw
      · simp [hw]
      · simp [hw]
    refine ⟨_, _, rfl, ?_,
      Demand.ext rfl rfl (funext fun w => funext fun o => propext (hwaits' w o)) rfl⟩
    have hrest : ∀ w s, (m.waitRequests.erase worker).get? w = some s →
      m.waitRequests.get? w = some s := by
      intro w s hs
      rw [hget'] at hs
      split_ifs at hs
      exact hs
    refine { h with
      good := hgood.of_eq rfl rfl (fun o => ?_) (fun holder id => Iff.rfl)
      waits := fun w s hs => h.waits w s (hrest w s hs)
      waits_ne_nil := fun w s hs => h.waits_ne_nil w s (hrest w s hs) }
    rw [hcount]
    by_cases ho : o ∈ waitRequest
    · rw [if_pos ho, Function.iterate_one]
      ext w
      · exact Iff.rfl
      · rfl
      · exact hwaits' w o
    · rw [if_neg ho]
      ext w
      · exact Iff.rfl
      · rfl
      · refine (hwaits' w o).trans (and_iff_left_of_imp ?_)
        rintro ⟨s, hs, hos⟩ rfl
        rw [hget] at hs
        cases hs
        exact ho hos

/-- An entry of the wait requests that grows by an object without a pull for it yet, or not at
all. -/
theorem waitForObject_core (h : Core m out) {worker : W} {waitRequest : List O}
    (hget : m.waitRequests.get? worker = some waitRequest) (object : O) :
    ∃ m' ev, waitForObject worker m object = .ok (m', ev) ∧ Core m' (out ++ ev) ∧
      m'.demand = m.demand.wait worker [object] ∧
      (∃ waitRequest', m'.waitRequests.get? worker = some waitRequest') ∧
      ∀ w, w ≠ worker → m'.waitRequests.get? w = m.waitRequests.get? w := by
  have hsame : Core m (out ++ []) := by rwa [List.append_nil]
  have hwait_self : (object ∈ m.localObjects ∨ object ∈ waitRequest) →
    m.demand = m.demand.wait worker [object] := by
    intro hor
    refine Demand.ext rfl rfl (funext fun w => funext fun o => propext (or_iff_left_of_imp ?_).symm) rfl
    rintro ⟨rfl, ho, hlocal⟩
    obtain rfl := List.mem_singleton.mp ho
    exact ⟨waitRequest, hget, hor.resolve_left hlocal⟩
  unfold waitForObject
  rw [hget, Option.getD_some]
  dsimp only
  split_ifs with hlocal hmem
  · exact ⟨m, [], rfl, hsame, hwait_self (.inl hlocal), ⟨waitRequest, hget⟩, fun w _ => rfl⟩
  · exact ⟨m, [], rfl, hsame, hwait_self (.inr hmem), ⟨waitRequest, hget⟩, fun w _ => rfl⟩
  set m₁ : LeaseDependencyManager O W L K :=
    { m with waitRequests := m.waitRequests.set worker (waitRequest.insert object) } with hm₁
  have hwait₁ : ∀ w, m₁.waitRequests.get? w = if w = worker then some (waitRequest.insert object)
    else m.waitRequests.get? w :=
    fun w => Dict.get?_set _ _ w _
  set m₂ := m₁.requireObject
    (fun d => { d with dependentWaitRequests := d.dependentWaitRequests.insert worker }) object
    with hm₂
  have hgood₂ : Good m₂ (Function.update m.needs object ((m.needs object).addWait worker))
    m.others out :=
    Good.requireObject (m := m₁) (h.good.of_eq rfl rfl (fun o => rfl) (fun holder id => Iff.rfl))
      (fun d hd => describes_addWait hd worker) (fun d => rfl)
      (fun hnobody => hnobody.2.2 worker (.inl rfl))
  have hneeds : ∀ o, m₂.needs o = Function.update m.needs object
    ((m.needs object).addWait worker) o := by
    intro o
    by_cases ho : o = object
    · subst ho
      rw [Function.update_self]
      ext w
      · exact Iff.rfl
      · rfl
      · show (∃ s, m₁.waitRequests.get? w = some s ∧ o ∈ s) ↔ w = worker ∨
          ∃ s, m.waitRequests.get? w = some s ∧ o ∈ s
        rw [hwait₁]
        by_cases hw : w = worker
        · simp [hw, List.mem_insert_iff]
        · simp [hw]
    · rw [Function.update_of_ne ho]
      ext w
      · exact Iff.rfl
      · rfl
      · show (∃ s, m₁.waitRequests.get? w = some s ∧ o ∈ s) ↔
          ∃ s, m.waitRequests.get? w = some s ∧ o ∈ s
        rw [hwait₁]
        by_cases hw : w = worker
        · simp [hw, hget, List.mem_insert_iff, ho]
        · simp [hw]
  have hcore₂ : Core m₂ out :=
    { h with
      good := hgood₂.of_eq rfl rfl hneeds (fun holder id => Iff.rfl)
      waits := fun w s hs => by
        have hs : m₁.waitRequests.get? w = some s := hs
        rw [hwait₁] at hs
        split_ifs at hs with hw
        · cases hs
          obtain ⟨hnodup, hnonlocal⟩ := h.waits worker waitRequest hget
          refine ⟨hnodup.insert, fun o ho => ?_⟩
          obtain rfl | ho := List.mem_insert_iff.mp ho
          · exact hlocal
          · exact hnonlocal o ho
        · exact h.waits w s hs }
  have hdemand₂ : m₂.demand = m.demand.wait worker [object] := by
    refine Demand.ext rfl rfl (funext fun w => funext fun o => propext ?_) rfl
    show (∃ s, m₁.waitRequests.get? w = some s ∧ o ∈ s) ↔
      (∃ s, m.waitRequests.get? w = some s ∧ o ∈ s) ∨ (w = worker ∧ o ∈ [object] ∧ o ∉ m.localObjects)
    rw [hwait₁]
    by_cases hw : w = worker
    · subst hw
      rw [if_pos rfl, hget]
      by_cases ho : o = object
      · simp [ho, hlocal]
      · simp [ho]
    · simp [hw]
  have hothers : ∀ w, w ≠ worker → m₂.waitRequests.get? w = m.waitRequests.get? w :=
    fun w hw => (hwait₁ w).trans (if_neg hw)
  have hself : ∃ waitRequest', m₂.waitRequests.get? worker = some waitRequest' :=
    ⟨_, (hwait₁ worker).trans (if_pos rfl)⟩
  cases hobject : m₂.requiredObjects.get? object with
  | none => exact ⟨m₂, [], rfl, by rwa [List.append_nil], hdemand₂, hself, hothers⟩
  | some d =>
    dsimp only
    split_ifs with hzero
    · exact ⟨_, _, rfl, { hcore₂ with
          good := (hcore₂.good.startPull hobject hzero).of_eq rfl rfl (fun o => rfl)
            (fun holder id => Iff.rfl) },
        hdemand₂, hself, hothers⟩
    · exact ⟨m₂, [], rfl, by rwa [List.append_nil], hdemand₂, hself, hothers⟩

theorem runSteps_waitForObject_core {worker : W} (objects : List O) (h : Core m out)
    (hget : ∃ waitRequest, m.waitRequests.get? worker = some waitRequest) :
    ∃ m' ev, runSteps (waitForObject worker) m objects = .ok (m', ev) ∧ Core m' (out ++ ev) ∧
      m'.demand = m.demand.wait worker objects ∧
      (∃ waitRequest', m'.waitRequests.get? worker = some waitRequest') ∧
      ∀ w, w ≠ worker → m'.waitRequests.get? w = m.waitRequests.get? w := by
  induction objects generalizing m out with
  | nil => exact ⟨m, [], rfl, by rwa [List.append_nil], (Demand.wait_nil _ _).symm, hget,
      fun w _ => rfl⟩
  | cons object objects ih =>
    obtain ⟨waitRequest, hget⟩ := hget
    obtain ⟨m₁, ev, hstep, hcore, hdemand, hget₁, hothers⟩ := waitForObject_core h hget object
    obtain ⟨m', ev', hrun, hcore', hdemand', hget', hothers'⟩ := ih hcore hget₁
    exact ⟨m', ev ++ ev', runSteps_cons_eq_ok.mpr ⟨m₁, ev, ev', hstep, hrun, rfl⟩, by rwa
      [← List.append_assoc],
      by rw [hdemand', hdemand, ← Demand.wait_cons], hget', fun w hw => (hothers' w hw).trans
        (hothers w hw)⟩

variable {waits : Dict W (List O)}

omit [DecidableEq O] [DecidableEq K] in
theorem demand_setWaits (hwaits : ∀ w, waits.get? w = m.waitRequests.get? w ∨
      (waits.get? w).getD [] = [] ∧ (m.waitRequests.get? w).getD [] = []) :
    demand { m with waitRequests := waits } = m.demand := by
  refine Demand.ext rfl rfl (funext fun w => funext fun o => propext ?_) rfl
  show (∃ s, waits.get? w = some s ∧ o ∈ s) ↔ ∃ s, m.waitRequests.get? w = some s ∧ o ∈ s
  obtain hw | ⟨hnew, hold⟩ := hwaits w
  · rw [hw]
  · constructor
    · rintro ⟨s, hs, ho⟩
      rw [hs, Option.getD_some] at hnew
      rw [hnew] at ho
      cases ho
    · rintro ⟨s, hs, ho⟩
      rw [hs, Option.getD_some] at hold
      rw [hold] at ho
      cases ho

theorem Core.setWaits (h : Core m out) (hwaits : ∀ w, waits.get? w = m.waitRequests.get? w ∨
      (waits.get? w).getD [] = [] ∧ (m.waitRequests.get? w).getD [] = []) :
    Core { m with waitRequests := waits } out :=
  { h with
    good := h.good.of_eq rfl rfl (fun o => by
      ext w
      · exact Iff.rfl
      · rfl
      · exact iff_of_eq (congrFun (congrFun (congrArg Demand.waits (demand_setWaits hwaits)) w) o))
      (fun holder id => Iff.rfl)
    waits := fun w s hs => by
      obtain hw | ⟨hnew, -⟩ := hwaits w
      · exact h.waits w s (hw ▸ hs)
      · rw [hs, Option.getD_some] at hnew
        subst hnew
        exact ⟨List.nodup_nil, fun o ho => (nomatch ho)⟩ }

theorem startOrUpdateWaitRequest_inv (h : Inv m out) (worker : W) (objects : List O) :
    ∃ m' ev, m.startOrUpdateWaitRequest worker objects = .ok (m', ev) ∧ Inv m' (out ++ ev) ∧
      m'.demand = m.demand.apply (K := K) (.startOrUpdateWaitRequest worker objects) := by
  have hset : ∀ w, (m.waitRequests.set worker ((m.waitRequests.get? worker).getD [])).get? w =
      if w = worker then some ((m.waitRequests.get? worker).getD []) else m.waitRequests.get? w :=
    fun w => Dict.get?_set _ _ w _
  have hentry : ∀ w, (m.waitRequests.set worker ((m.waitRequests.get? worker).getD [])).get? w =
      m.waitRequests.get? w ∨
      ((m.waitRequests.set worker ((m.waitRequests.get? worker).getD [])).get? w).getD [] = [] ∧
        (m.waitRequests.get? w).getD [] = [] := by
    intro w
    rw [hset]
    by_cases hw : w = worker
    · subst hw
      rw [if_pos rfl]
      cases m.waitRequests.get? w with
      | none => exact .inr ⟨rfl, rfl⟩
      | some s => exact .inl rfl
    · rw [if_neg hw]
      exact .inl rfl
  obtain ⟨m₁, ev, hrun, hcore, hdemand, ⟨waitRequest, hget⟩, hothers⟩ :=
    runSteps_waitForObject_core objects (h.toCore.setWaits hentry) ⟨_, (hset worker).trans (if_pos rfl)⟩
  rw [demand_setWaits hentry] at hdemand
  have hne : ∀ w, w ≠ worker → ∀ s, m₁.waitRequests.get? w = some s → s ≠ [] := by
    intro w hw s hs
    rw [hothers w hw, hset, if_neg hw] at hs
    exact h.waits_ne_nil w s hs
  unfold startOrUpdateWaitRequest
  simp only [hrun, ok_bind, hget, Option.getD_some]
  split_ifs with hempty
  · have hentry' : ∀ w, (m₁.waitRequests.erase worker).get? w = m₁.waitRequests.get? w ∨
        ((m₁.waitRequests.erase worker).get? w).getD [] = [] ∧
        (m₁.waitRequests.get? w).getD [] = [] := by
      intro w
      rw [Dict.get?_erase]
      by_cases hw : w = worker
      · subst hw
        rw [if_pos rfl, hget, hempty]
        exact .inr ⟨rfl, rfl⟩
      · rw [if_neg hw]
        exact .inl rfl
    refine ⟨_, _, rfl, { hcore.setWaits hentry' with waits_ne_nil := fun w s hs => ?_ },
      (demand_setWaits hentry').trans hdemand⟩
    rw [Dict.get?_erase] at hs
    split_ifs at hs with hw
    exact hne w hw s hs
  · refine ⟨_, _, rfl, { hcore with waits_ne_nil := fun w s hs => ?_ }, hdemand⟩
    by_cases hw : w = worker
    · subst hw
      rw [hget] at hs
      cases hs
      exact hempty
    · exact hne w hw s hs

end waits

/-! ### Get requests -/

section gets
variable {m : LeaseDependencyManager O W L K} {out : List (Event L)} {worker : W}

/-- One request of a worker is taken out, its pull is cancelled and its objects are released. -/
theorem dropGetRequests_good (h : Good m m.needs m.others out) {requestId : ℤ} {g : List O × ℕ}
    (hget : m.getRequests.get? (worker, requestId) = some g) :
    ∃ required ev, dropGetRequests worker m requestId = .ok
        ({ m with requiredObjects := required, getRequests := m.getRequests.erase (worker, requestId) }, ev) ∧
      Good { m with requiredObjects := required, getRequests := m.getRequests.erase (worker, requestId) }
        (needs { m with getRequests := m.getRequests.erase (worker, requestId) })
        (others { m with getRequests := m.getRequests.erase (worker, requestId) }) (out ++ ev) := by
  have hothers : ∀ holder id, others { m with getRequests := m.getRequests.erase (worker, requestId) } holder id ↔
      m.others holder id ∧ holder ≠ .get worker requestId := by
    intro holder id
    cases holder with
    | lease l => exact (and_iff_left (by simp)).symm
    | get w r =>
      show (∃ g', (m.getRequests.erase (worker, requestId)).get? (w, r) = some g' ∧ g'.2 = id) ↔
        (∃ g', m.getRequests.get? (w, r) = some g' ∧ g'.2 = id) ∧ Holder.get w r ≠ Holder.get worker requestId
      rw [Dict.get?_erase]
      by_cases hwr : (w, r) = (worker, requestId)
      · obtain ⟨rfl, rfl⟩ := Prod.mk.inj hwr
        simp
      · rw [if_neg hwr, and_iff_left]
        intro heq
        obtain ⟨rfl, rfl⟩ := Holder.get.inj heq
        exact hwr rfl
    | wait o => exact (and_iff_left (by simp)).symm
  have hcancelled : Good m m.needs (others { m with getRequests := m.getRequests.erase (worker, requestId) })
      (out ++ [.cancelPull g.2]) := by
    refine ⟨h.tracks, h.pulls.cancelHolder (show holdsWith m.others m.requiredObjects (.get worker requestId) g.2 from
      ⟨g, hget, rfl⟩) ?_ ?_⟩
    · rintro id ⟨g', hg', rfl⟩
      rw [hget] at hg'
      rw [Option.some.inj hg']
    · intro holder id
      cases holder with
      | lease l => exact hothers (.lease l) id
      | get w r => exact hothers (.get w r) id
      | wait o => exact (and_iff_left (by simp)).symm
  have htotal : ∀ o w, (m.getRequests.erase (worker, requestId)).total
        (fun k v => if k.1 = w then v.1.count o else 0) + (if worker = w then g.1.count o else 0) =
      (m.needs o).gets w := fun o w => Dict.total_erase hget _
  obtain ⟨required, ev, hrun, hgood⟩ := hcancelled.releaseObjects (Needs.dropGet worker) (fun n => 0 < n.gets worker) g.1
    (fun d n hn hd => describes_dropGet hd hn) (fun d => rfl)
    (fun n hn hnobody => absurd (hnobody.2.1 worker) (Nat.pos_iff_ne_zero.mp hn)) (by
      intro o k hk
      have := htotal o worker
      rw [if_pos rfl] at this
      rw [Needs.iterate_dropGet]
      dsimp only
      rw [if_pos rfl]
      omega)
  have hrun' : dropGetRequests worker m requestId = .ok
      ({ m with requiredObjects := required, getRequests := m.getRequests.erase (worker, requestId) },
        .cancelPull g.2 :: ev) := by
    unfold dropGetRequests
    rw [hget]
    simp only [hrun, ok_bind]
    rfl
  refine ⟨required, _, hrun', ?_⟩
  rw [List.append_assoc, List.singleton_append] at hgood
  refine hgood.of_eq rfl rfl (fun o => ?_) (fun holder id => Iff.rfl)
  rw [Needs.iterate_dropGet]
  ext w
  · exact Iff.rfl
  · show (m.getRequests.erase (worker, requestId)).total (fun k v => if k.1 = w then v.1.count o else 0) =
      if w = worker then (m.needs o).gets w - g.1.count o else (m.needs o).gets w
    have := htotal o w
    by_cases hw : w = worker
    · subst hw
      rw [if_pos rfl] at this ⊢
      omega
    · rw [if_neg (Ne.symm hw)] at this
      rw [if_neg hw]
      omega
  · exact Iff.rfl

omit [DecidableEq O] [DecidableEq K] in
theorem demand_eq_of_gets {m' : LeaseDependencyManager O W L K} {gets : W → ℤ → Option (List O)}
    (hleases : m'.queuedLeaseRequests = m.queuedLeaseRequests)
    (hwaits : m'.waitRequests = m.waitRequests)
    (hlocal : m'.localObjects = m.localObjects)
    (hgets : ∀ w id, (m'.getRequests.get? (w, id)).map (·.1) = gets w id) :
    m'.demand = { m.demand with gets := gets } := by
  unfold demand
  rw [hleases, hwaits, hlocal]
  exact Demand.ext rfl (funext fun w => funext fun id => hgets w id) rfl rfl

theorem cancelGetRequest_inv (h : Inv m out) (worker : W) (requestId : ℤ) :
    ∃ m' ev, m.cancelGetRequest worker requestId = .ok (m', ev) ∧ Inv m' (out ++ ev) ∧
      m'.demand = m.demand.apply (K := K) (.cancelGetRequest worker requestId) := by
  unfold cancelGetRequest
  cases hget : m.getRequests.get? (worker, requestId) with
  | none =>
      refine ⟨m, [], rfl, by rwa [List.append_nil], demand_eq_of_gets rfl rfl rfl (fun w id => ?_)⟩
      split_ifs with hwid
      · rw [hwid, hget]
        rfl
      · rfl
  | some g =>
      obtain ⟨required, ev, hrun, hgood⟩ := dropGetRequests_good h.good hget
      obtain ⟨ids, hids, hmem⟩ := (h.requests_isSome worker requestId).mp (by rw [hget]; rfl)
      have hnodup := (h.requests worker ids hids).2
      simp only [Option.isNone_some, Bool.false_eq_true, if_false, hrun, ok_bind, hids, Option.getD_some]
      refine ⟨_, _, rfl, { h with
        good := hgood.of_eq rfl rfl (fun o => rfl) (fun holder id => Iff.rfl)
        requests_isSome := ?_
        requests := ?_ }, demand_eq_of_gets rfl rfl rfl (fun w id => ?_)⟩
      · intro w id
        rw [Dict.get?_erase]
        by_cases hw : w = worker
        · subst hw
          have hmem_iff : id ∈ ids.erase requestId ↔ id ≠ requestId ∧ id ∈ ids := hnodup.mem_erase_iff
          have hsome : (m.getRequests.get? (w, id)).isSome ↔ id ∈ ids := by
            rw [h.requests_isSome, hids]
            simp
          split_ifs with hid hnil hnil
          · obtain ⟨-, rfl⟩ := Prod.mk.inj hid
            simp [Dict.get?_erase]
          · obtain ⟨-, rfl⟩ := Prod.mk.inj hid
            simp [hmem_iff]
          · have hid' : id ≠ requestId := fun heq => hid (by rw [heq])
            rw [hsome, Dict.get?_erase, if_pos rfl]
            have hnot : id ∉ ids := fun hin => by
              have := hmem_iff.mpr ⟨hid', hin⟩
              rw [hnil] at this
              cases this
            simp [hnot]
          · have hid' : id ≠ requestId := fun heq => hid (by rw [heq])
            rw [hsome, Dict.get?_set_self]
            simp [hmem_iff, hid']
        · rw [if_neg (fun heq => hw (Prod.mk.inj heq).1), h.requests_isSome]
          split_ifs
          · rw [Dict.get?_erase, if_neg hw]
          · rw [Dict.get?_set_ne _ _ hw]
      · intro w ids' hids'
        by_cases hw : w = worker
        · subst hw
          split_ifs at hids' with hnil
          · rw [Dict.get?_erase, if_pos rfl] at hids'
            cases hids'
          · rw [Dict.get?_set_self] at hids'
            obtain rfl := Option.some.inj hids'
            exact ⟨hnil, hnodup.erase requestId⟩
        · dsimp only at hids'
          have hids'' : m.workerToRequests.get? w = some ids' := by
            split_ifs at hids'
            · rwa [Dict.get?_erase, if_neg hw] at hids'
            · rwa [Dict.get?_set_ne _ _ hw] at hids'
          exact h.requests w ids' hids''
      · show ((m.getRequests.erase (worker, requestId)).get? (w, id)).map _ = _
        rw [Dict.get?_erase]
        split_ifs
        · rfl
        · rfl

theorem runSteps_dropGetRequests_good (h : Good m m.needs m.others out) {ids : List ℤ} (hnodup : ids.Nodup)
    (hids : ∀ id ∈ ids, (m.getRequests.get? (worker, id)).isSome) :
    ∃ required gets ev, runSteps (dropGetRequests worker) m ids =
        .ok ({ m with requiredObjects := required, getRequests := gets }, ev) ∧
      Good { m with requiredObjects := required, getRequests := gets } (needs { m with getRequests := gets })
        (others { m with getRequests := gets }) (out ++ ev) ∧
      ∀ w id, gets.get? (w, id) = if w = worker ∧ id ∈ ids then none else m.getRequests.get? (w, id) := by
  induction ids generalizing m out with
  | nil => exact ⟨m.requiredObjects, m.getRequests, [], rfl, by rwa [List.append_nil], fun w id => by simp⟩
  | cons id ids ih =>
    rw [List.nodup_cons] at hnodup
    rw [List.forall_mem_cons] at hids
    obtain ⟨g, hg⟩ := Option.isSome_iff_exists.mp hids.1
    obtain ⟨required, ev, hstep, hgood⟩ := dropGetRequests_good h hg
    obtain ⟨required', gets, ev', hrun, hgood', hgets⟩ := ih
      (hgood.of_eq rfl rfl (fun o => rfl) (fun holder id => Iff.rfl)) hnodup.2 (fun id' hid' => by
        rw [Dict.get?_erase, if_neg]
        · exact hids.2 id' hid'
        · intro heq
          exact hnodup.1 ((Prod.mk.inj heq).2 ▸ hid'))
    refine ⟨required', gets, ev ++ ev', runSteps_cons_eq_ok.mpr ⟨_, ev, ev', hstep, hrun, rfl⟩, ?_, ?_⟩
    · rw [← List.append_assoc]
      exact hgood'.of_eq rfl rfl (fun o => rfl) (fun holder id => Iff.rfl)
    · intro w id'
      rw [hgets]
      rw [Dict.get?_erase]
      by_cases hw : w = worker
      · subst hw
        by_cases hid' : id' ∈ ids
        · simp [hid']
        · by_cases heq : id' = id
          · simp [heq]
          · simp [hid', heq]
      · simp [hw]

theorem cancelGetRequests_inv (h : Inv m out) (worker : W) :
    ∃ m' ev, m.cancelGetRequests worker = .ok (m', ev) ∧ Inv m' (out ++ ev) ∧
      m'.demand = m.demand.apply (K := K) (.cancelGetRequests worker) := by
  have hnone : ∀ {id}, ¬ (∃ ids, m.workerToRequests.get? worker = some ids ∧ id ∈ ids) →
      m.getRequests.get? (worker, id) = none := by
    intro id hids
    rw [← h.requests_isSome] at hids
    exact Option.not_isSome_iff_eq_none.mp hids
  unfold cancelGetRequests
  cases hget : m.workerToRequests.get? worker with
  | none =>
    refine ⟨m, [], rfl, by rwa [List.append_nil], demand_eq_of_gets rfl rfl rfl (fun w id => ?_)⟩
    split_ifs with hw
    · subst hw
      rw [hnone (by simp [hget])]
      rfl
    · rfl
  | some ids =>
    obtain ⟨required, gets, ev, hrun, hgood, hgets⟩ := runSteps_dropGetRequests_good h.good
      (h.requests worker ids hget).2 (fun id hid => (h.requests_isSome worker id).mpr ⟨ids, hget, hid⟩)
    simp only [hrun, ok_bind]
    refine ⟨_, _, rfl, { h with
      good := hgood.of_eq rfl rfl (fun o => rfl) (fun holder id => Iff.rfl)
      requests_isSome := ?_
      requests := ?_ }, demand_eq_of_gets rfl rfl rfl (fun w id => ?_)⟩
    · intro w id
      rw [hgets, Dict.get?_erase]
      by_cases hw : w = worker
      · subst hw
        by_cases hid : id ∈ ids
        · simp [hid]
        · rw [if_neg (fun hand => hid hand.2), if_pos rfl, hnone (by simp [hget, hid])]
          simp
      · rw [if_neg (fun hand => hw hand.1), if_neg hw]
        exact h.requests_isSome w id
    · intro w ids' hids'
      rw [Dict.get?_erase] at hids'
      split_ifs at hids'
      exact h.requests w ids' hids'
    · show (gets.get? (w, id)).map _ = _
      rw [hgets]
      by_cases hw : w = worker
      · subst hw
        rw [if_pos rfl]
        by_cases hid : id ∈ ids
        · rw [if_pos ⟨rfl, hid⟩]
          rfl
        · rw [if_neg (fun hand => hid hand.2), hnone (by simp [hget, hid])]
          rfl
      · rw [if_neg (fun hand => hw hand.1), if_neg hw]
        rfl

theorem startGetRequest_inv (h : Inv m out) (worker : W) (objects : List O) {requestId : ℤ}
    (hfresh : m.getRequests.get? (worker, requestId) = none) :
    ∃ m' ev, m.startGetRequest worker objects requestId = .ok (m', ev) ∧ Inv m' (out ++ ev) ∧
      m'.demand = m.demand.apply (K := K) (.startGetRequest worker objects requestId) := by
  obtain ⟨required, hrun, hgood⟩ := h.good.requireObjects (Needs.addGet worker)
    (fun d n hd => describes_addGet hd worker) (fun d => rfl)
    (fun n hnobody => by
      have := hnobody.2.1 worker
      unfold Needs.addGet at this
      simp at this) objects
  unfold startGetRequest
  rw [hrun]
  dsimp only [pull]
  rw [hfresh]
  have hget : ∀ w id, (m.getRequests.set (worker, requestId) (objects, m.nextReqId)).get? (w, id) =
      if (w, id) = (worker, requestId) then some (objects, m.nextReqId) else m.getRequests.get? (w, id) :=
    fun w id => Dict.get?_set _ _ _ _
  refine ⟨_, _, rfl, { h with good := ?_, requests_isSome := ?_, requests := ?_ },
    demand_eq_of_gets rfl rfl rfl (fun w id => ?_)⟩
  · refine ⟨?_, ?_⟩
    · have hneeds : needs { m with getRequests := m.getRequests.set (worker, requestId) (objects, m.nextReqId) } =
          fun o => (Needs.addGet worker)^[objects.count o] (m.needs o) := by
        funext o
        rw [Needs.iterate_addGet]
        ext w
        · exact Iff.rfl
        · show (m.getRequests.set (worker, requestId) (objects, m.nextReqId)).total
              (fun k v => if k.1 = w then v.1.count o else 0) =
            if w = worker then (m.needs o).gets w + objects.count o else (m.needs o).gets w
          rw [Dict.total_set_of_get?_eq_none hfresh]
          by_cases hw : w = worker
          · rw [if_pos hw, if_pos hw.symm]
            rfl
          · rw [if_neg hw, if_neg (Ne.symm hw)]
            rfl
        · exact Iff.rfl
      exact hneeds ▸ hgood.tracks
    · refine hgood.pulls.pull (.get worker requestId) (fun holder id => ?_)
      cases holder with
      | lease l => exact (or_iff_left (by simp)).symm
      | get w r =>
          show (∃ g, (m.getRequests.set (worker, requestId) (objects, m.nextReqId)).get? (w, r) = some g ∧ g.2 = id) ↔
            (∃ g, m.getRequests.get? (w, r) = some g ∧ g.2 = id) ∨
              (Holder.get w r = Holder.get worker requestId ∧ id = m.nextReqId)
          rw [hget]
          by_cases hwr : (w, r) = (worker, requestId)
          · rw [if_pos hwr]
            obtain ⟨rfl, rfl⟩ := Prod.mk.inj hwr
            rw [hfresh]
            simp [eq_comm]
          · rw [if_neg hwr, or_iff_left]
            rintro ⟨heq, -⟩
            obtain ⟨rfl, rfl⟩ := Holder.get.inj heq
            exact hwr rfl
      | wait o => exact (or_iff_left (by simp)).symm
  · intro w id
    show ((m.getRequests.set (worker, requestId) (objects, m.nextReqId)).get? (w, id)).isSome ↔
      ∃ ids, (m.workerToRequests.set worker (((m.workerToRequests.get? worker).getD []).insert requestId)).get? w =
        some ids ∧ id ∈ ids
    rw [hget, Dict.get?_set]
    by_cases hw : w = worker
    · subst hw
      have hsome := h.requests_isSome w id
      cases hids : m.workerToRequests.get? w with
      | none =>
          rw [hids] at hsome
          by_cases hid : id = requestId
          · simp [hid]
          · simpa [hid] using hsome
      | some ids =>
          rw [hids] at hsome
          by_cases hid : id = requestId
          · simp [hid, List.mem_insert_iff]
          · simpa [hid, List.mem_insert_iff] using hsome
    · simp only [Prod.mk.injEq, hw, false_and, if_false]
      exact h.requests_isSome w id
  · intro w ids hids
    have hids : (m.workerToRequests.set worker (((m.workerToRequests.get? worker).getD []).insert requestId)).get? w =
        some ids := hids
    rw [Dict.get?_set] at hids
    split_ifs at hids with hw
    · obtain rfl := Option.some.inj hids
      refine ⟨List.ne_nil_of_mem (List.mem_insert_iff.mpr (.inl rfl)), ?_⟩
      cases hold : m.workerToRequests.get? worker with
      | none => simp
      | some ids => exact (h.requests worker ids hold).2.insert
    · exact h.requests w ids hids
  · show ((m.getRequests.set (worker, requestId) (objects, m.nextReqId)).get? (w, id)).map _ = _
    rw [hget]
    split_ifs
    · rfl
    · rfl

end gets
end LeaseDependencyManager
end RayTfm.Raylet
