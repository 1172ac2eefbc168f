import RayTfm.Raylet.LeaseAccounting

/-! # Which leases are ready

The operations of `LeaseDependencyManager` that change the counters of queued leases: requesting and
removing the dependencies of a lease, and objects that become local or missing.  With the operations
of `LeaseAccounting` every allowed operation succeeds and keeps the invariant (`step_inv`), and so
does every run (`run_inv`). -/

namespace RayTfm.Raylet

variable {O W L K : Type} [DecidableEq O] [DecidableEq W] [DecidableEq L] [DecidableEq K]

namespace LeaseDependencyManager

/-! ### The counter of waiting leases -/

section counter
variable {queued : Dict L (LeaseDependencies O K)} {counter : Dict K ℤ} {lease : L}
    {e e' : LeaseDependencies O K}

theorem incrementCounter_get? {n n' : K → ℕ} (h : ∀ k, counter.get? k = requestCount (n k)) (key : K)
    (hn : ∀ k, n' k = n k + if k = key then 1 else 0) (k : K) :
    (incrementCounter counter key).get? k = requestCount (n' k) := by
  unfold incrementCounter
  rw [Dict.get?_set, h, h, getD_requestCount, hn]
  by_cases hk : k = key
  · subst hk
    rw [if_pos rfl, if_pos rfl, requestCount_of_ne_zero (Nat.succ_ne_zero _)]
    rfl
  · rw [if_neg hk, if_neg hk, Nat.add_zero]

theorem decrementCounter_get? {n : K → ℕ} (h : ∀ k, counter.get? k = requestCount (n k)) (key : K)
    (n' : K → ℕ)
    (hn : ∀ k, n k = n' k + if k = key then 1 else 0) :
    ∃ counter', decrementCounter counter key = .ok counter' ∧
    ∀ k, counter'.get? k = requestCount (n' k) := by
  have hkey : counter.get? key = some ((n' key + 1 : ℕ) : ℤ) := by
    rw [h, hn, if_pos rfl, requestCount_of_ne_zero (Nat.succ_ne_zero _)]
  unfold decrementCounter
  rw [hkey, rayFind_some]
  refine ⟨_, rfl, fun k => ?_⟩
  by_cases hk : k = key
  · subst hk
    split_ifs with hzero
    · rw [Dict.get?_erase, if_pos rfl, show n' k = 0 by omega]
      rfl
    · rw [Dict.get?_set_self, requestCount_of_ne_zero (by omega)]
      congr 1
      omega
  · have hother : counter.get? k = requestCount (n' k) := by
      rw [h, hn, if_neg hk, Nat.add_zero]
    split_ifs
    · rw [Dict.get?_erase, if_neg hk, hother]
    · rw [Dict.get?_set_ne _ _ hk, hother]

omit [DecidableEq O] in
theorem counterInv_set (h : CounterInv queued counter) (hget : queued.get? lease = some e)
    (hsame : ∀ key, waitingUnder key e' = waitingUnder key e) :
    CounterInv (queued.set lease e') counter := by
  intro key
  have htotal := Dict.total_set_of_get?_eq_some hget e' (fun _ e => waitingUnder key e)
  rw [h key]
  congr 1
  have := hsame key
  omega

end counter

section steps
variable {m : LeaseDependencyManager O W L K} {lease : L} {e : LeaseDependencies O K}

omit [DecidableEq O] [DecidableEq W] in
theorem incrementMissingDependencies_counter
    (h : CounterInv m.queuedLeaseRequests m.waitingLeasesCounter)
    (hget : m.queuedLeaseRequests.get? lease = some e) (hnonneg : 0 ≤ e.numMissingDependencies) :
    CounterInv (m.incrementMissingDependencies lease e).queuedLeaseRequests
      (m.incrementMissingDependencies lease e).waitingLeasesCounter := by
  unfold incrementMissingDependencies
  by_cases hzero : e.numMissingDependencies = 0
  · rw [if_pos hzero]
    refine incrementCounter_get? h e.taskKey (fun key => ?_)
    have htotal := Dict.total_set_of_get?_eq_some hget
      { e with numMissingDependencies := e.numMissingDependencies + 1 } (fun _ e => waitingUnder key e)
    have hold : waitingUnder key e = 0 := if_neg (by omega)
    have hnew : waitingUnder key { e with numMissingDependencies := e.numMissingDependencies + 1 } =
        if key = e.taskKey then 1 else 0 := by
      unfold waitingUnder
      rw [hzero]
      by_cases hkey : e.taskKey = key
      · rw [if_pos ⟨hkey, by norm_num⟩, if_pos hkey.symm]
      · rw [if_neg (fun hand => hkey hand.1), if_neg (Ne.symm hkey)]
    dsimp only
    omega
  · rw [if_neg hzero]
    refine counterInv_set h hget (fun key => ?_)
    refine if_congr (and_congr_right (fun _ => ?_)) rfl rfl
    show 0 < e.numMissingDependencies + 1 ↔ _
    omega

omit [DecidableEq O] [DecidableEq W] in
theorem decrementMissingDependencies_ok (h : CounterInv m.queuedLeaseRequests m.waitingLeasesCounter)
    (hget : m.queuedLeaseRequests.get? lease = some e) (hpos : 0 < e.numMissingDependencies) :
    ∃ counter, m.decrementMissingDependencies lease e =
        .ok { m with
          queuedLeaseRequests :=
            m.queuedLeaseRequests.set lease
              { e with numMissingDependencies := e.numMissingDependencies - 1 }
          waitingLeasesCounter := counter } ∧
      CounterInv
        (m.queuedLeaseRequests.set lease
          { e with numMissingDependencies := e.numMissingDependencies - 1 }) counter := by
  unfold decrementMissingDependencies
  by_cases hone : e.numMissingDependencies - 1 = 0
  · rw [if_pos hone]
    obtain ⟨counter, hrun, hcounter⟩ := decrementCounter_get? h e.taskKey (fun key =>
      (m.queuedLeaseRequests.set lease
        { e with numMissingDependencies := e.numMissingDependencies - 1 }).total
        (fun _ e => waitingUnder key e)) (fun key => by
      have htotal := Dict.total_set_of_get?_eq_some hget
        { e with numMissingDependencies := e.numMissingDependencies - 1 }
        (fun _ e => waitingUnder key e)
      have hnew : waitingUnder key
        { e with numMissingDependencies := e.numMissingDependencies - 1 } = 0 :=
        if_neg (fun hand => absurd hand.2 (by dsimp only; omega))
      have hold : waitingUnder key e = if key = e.taskKey then 1 else 0 := by
        unfold waitingUnder
        by_cases hkey : e.taskKey = key
        · rw [if_pos ⟨hkey, hpos⟩, if_pos hkey.symm]
        · rw [if_neg (fun hand => hkey hand.1), if_neg (Ne.symm hkey)]
      omega)
    simp only [hrun, ok_bind]
    exact ⟨counter, rfl, hcounter⟩
  · rw [if_neg hone]
    refine ⟨m.waitingLeasesCounter, rfl, counterInv_set h hget (fun key => ?_)⟩
    refine if_congr (and_congr_right (fun _ => ?_)) rfl rfl
    show 0 < e.numMissingDependencies - 1 ↔ _
    omega

/-- What one round of a loop over leases does: an entry that may be changed is changed by `δ`, and
the lease comes out if its number of missing objects was the one asked for. -/
def Adjusts (body : LeaseDependencyManager O W L K → L → Except RayError
    (LeaseDependencyManager O W L K × List L))
    (δ : ℤ) (may : ℤ → Prop) (asked : ℤ) : Prop :=
  ∀ m lease e, CounterInv m.queuedLeaseRequests m.waitingLeasesCounter →
    m.queuedLeaseRequests.get? lease = some e →
    may e.numMissingDependencies →
    ∃ counter, body m lease = .ok
        ({ m with
            queuedLeaseRequests :=
              m.queuedLeaseRequests.set lease
                { e with numMissingDependencies := e.numMissingDependencies + δ }
            waitingLeasesCounter := counter },
          if e.numMissingDependencies = asked then [lease] else []) ∧
      CounterInv
        (m.queuedLeaseRequests.set lease
          { e with numMissingDependencies := e.numMissingDependencies + δ }) counter

omit [DecidableEq O] [DecidableEq W] in
theorem missForLease_adjusts :
    Adjusts (missForLease : LeaseDependencyManager O W L K → L → _) 1 (0 ≤ ·) 0 := by
  intro m lease e hcounter hget hmay
  unfold missForLease
  rw [hget, rayFind_some]
  exact ⟨_, rfl, incrementMissingDependencies_counter hcounter hget hmay⟩

omit [DecidableEq O] [DecidableEq W] in
theorem supplyLease_adjusts :
    Adjusts (supplyLease : LeaseDependencyManager O W L K → L → _) (-1) (0 < ·) 1 := by
  intro m lease e hcounter hget hmay
  obtain ⟨counter, hrun, hcounter'⟩ := decrementMissingDependencies_ok hcounter hget hmay
  have hone : (e.numMissingDependencies - 1 = 0) = (e.numMissingDependencies = 1) := by
    rw [sub_eq_zero]
  unfold supplyLease
  rw [hget, rayFind_some]
  simp only [ok_bind, hrun, hone]
  exact ⟨counter, rfl, hcounter'⟩

/-- The queued leases after a loop over some of them. -/
def adjusted (ls : List L) (δ : ℤ) (l : L) (e : LeaseDependencies O K) : LeaseDependencies O K :=
  if l ∈ ls then { e with numMissingDependencies := e.numMissingDependencies + δ } else e

omit [DecidableEq O] [DecidableEq K] in
@[simp] theorem adjusted_dependencies (ls : List L) (δ : ℤ) (l : L) (e : LeaseDependencies O K) :
    (adjusted ls δ l e).dependencies = e.dependencies := by
  unfold adjusted
  split_ifs
  · rfl
  · rfl

omit [DecidableEq O] [DecidableEq K] in
@[simp] theorem adjusted_pullRequestId (ls : List L) (δ : ℤ) (l : L) (e : LeaseDependencies O K) :
    (adjusted ls δ l e).pullRequestId = e.pullRequestId := by
  unfold adjusted
  split_ifs
  · rfl
  · rfl

omit [DecidableEq O] [DecidableEq K] in
theorem adjusted_numMissingDependencies (ls : List L) (δ : ℤ) (l : L) (e : LeaseDependencies O K) :
    (adjusted ls δ l e).numMissingDependencies = e.numMissingDependencies + if l ∈ ls then δ
      else 0 := by
  unfold adjusted
  split_ifs
  · rfl
  · exact (add_zero _).symm

/-- Is the number of missing objects of a lease the one asked for? -/
def isAsked (queued : Dict L (LeaseDependencies O K)) (asked : ℤ) (l : L) : Bool :=
  (queued.get? l).any (fun e => decide (e.numMissingDependencies = asked))

omit [DecidableEq O] [DecidableEq W] in
theorem Adjusts.runSteps
    {body : LeaseDependencyManager O W L K → L → Except RayError
      (LeaseDependencyManager O W L K × List L)}
    {δ : ℤ} {may : ℤ → Prop} {asked : ℤ} (hbody : Adjusts body δ may asked) {ls : List L}
    (hnodup : ls.Nodup)
    (hcounter : CounterInv m.queuedLeaseRequests m.waitingLeasesCounter)
    (hls : ∀ l ∈ ls, ∃ e, m.queuedLeaseRequests.get? l = some e ∧ may e.numMissingDependencies) :
    ∃ queued counter, RayTfm.runSteps body m ls =
        .ok ({ m with queuedLeaseRequests := queued, waitingLeasesCounter := counter },
          ls.filter (isAsked m.queuedLeaseRequests asked)) ∧
      CounterInv queued counter ∧ ∀ l, queued.get? l = (m.queuedLeaseRequests.get? l).map
        (adjusted ls δ l) := by
  induction ls generalizing m with
  | nil =>
    refine ⟨_, _, rfl, hcounter, fun l => ?_⟩
    cases m.queuedLeaseRequests.get? l with
    | none => rfl
    | some e => rfl
  | cons lease ls ih =>
    rw [List.nodup_cons] at hnodup
    rw [List.forall_mem_cons] at hls
    obtain ⟨⟨e, hget, hmay⟩, hls⟩ := hls
    obtain ⟨counter, hstep, hcounter'⟩ := hbody m lease e hcounter hget hmay
    have hne : ∀ l ∈ ls, l ≠ lease := fun l hl heq => hnodup.1 (heq ▸ hl)
    obtain ⟨queued, counter', hrun, hcounter'', hqueued⟩ := ih
      (m := { m with
        queuedLeaseRequests :=
          m.queuedLeaseRequests.set lease
            { e with numMissingDependencies := e.numMissingDependencies + δ }
        waitingLeasesCounter := counter }) hnodup.2 hcounter' (fun l hl => by
        rw [Dict.get?_set_ne _ _ (hne l hl)]
        exact hls l hl)
    refine ⟨queued, counter', runSteps_cons_eq_ok.mpr ⟨_, _, _, hstep, hrun, ?_⟩, hcounter'',
      fun l => ?_⟩
    · have hrest : ls.filter (isAsked m.queuedLeaseRequests asked) = ls.filter (isAsked
          (m.queuedLeaseRequests.set lease
            { e with numMissingDependencies := e.numMissingDependencies + δ }) asked) := by
        refine List.filter_congr (fun l hl => ?_)
        unfold isAsked
        rw [Dict.get?_set_ne _ _ (hne l hl)]
      have hfirst : isAsked m.queuedLeaseRequests asked lease =
        decide (e.numMissingDependencies = asked) := by
        unfold isAsked
        rw [hget]
        rfl
      rw [List.filter_cons, hfirst, hrest]
      by_cases hasked : e.numMissingDependencies = asked
      · rw [if_pos hasked, if_pos (decide_eq_true hasked)]
        rfl
      · rw [if_neg hasked, if_neg (by simpa using hasked)]
        rfl
    · rw [hqueued]
      by_cases hl : l = lease
      · subst hl
        rw [Dict.get?_set_self, hget, Option.map_some, Option.map_some]
        unfold adjusted
        rw [if_neg hnodup.1, if_pos List.mem_cons_self]
      · rw [Dict.get?_set_ne _ _ hl]
        congr 1
        funext e'
        unfold adjusted
        simp only [List.mem_cons, hl, false_or]

end steps

/-! ### Leases -/

section leases
variable {m : LeaseDependencyManager O W L K} {out : List (Event L)} {lease : L}
variable {m' : LeaseDependencyManager O W L K}

omit [DecidableEq K] in
/-- A good state stays one when the queued leases change in their numbers of missing objects. -/
theorem good_of_queued (h : Good m m.needs m.others out)
    (hqueued : ∀ l, (m'.queuedLeaseRequests.get? l).map (fun e => (e.dependencies, e.pullRequestId)) =
      (m.queuedLeaseRequests.get? l).map (fun e => (e.dependencies, e.pullRequestId)))
    (hrequired : m'.requiredObjects = m.requiredObjects) (hnext : m'.nextReqId = m.nextReqId)
    (hgets : m'.getRequests = m.getRequests) (hwaits : m'.waitRequests = m.waitRequests) :
    Good m' m'.needs m'.others out := by
  have hentry : ∀ (P : List O × ℕ → Prop) (l : L),
      (∃ e, m'.queuedLeaseRequests.get? l = some e ∧ P (e.dependencies, e.pullRequestId)) ↔
        ∃ e, m.queuedLeaseRequests.get? l = some e ∧ P (e.dependencies, e.pullRequestId) := by
    intro P l
    have hl := hqueued l
    cases hnew : m'.queuedLeaseRequests.get? l with
    | none =>
      rw [hnew] at hl
      rw [Option.map_eq_none_iff.mp hl.symm]
    | some e' =>
      rw [hnew] at hl
      obtain ⟨e, he, heq⟩ := Option.map_eq_some_iff.mp hl.symm
      rw [he]
      simp only [Option.some.injEq, exists_eq_left', heq]
  refine h.of_eq hrequired hnext (fun o => ?_) (fun holder id => ?_)
  · ext w
    · exact hentry (fun p => o ∈ p.1) w
    · show m'.getRequests.total (fun k v => if k.1 = w then v.1.count o else 0) =
        m.getRequests.total (fun k v => if k.1 = w then v.1.count o else 0)
      rw [hgets]
    · show (∃ s, m'.waitRequests.get? w = some s ∧ o ∈ s) ↔ ∃ s, m.waitRequests.get? w = some s ∧ o ∈ s
      rw [hwaits]
  · cases holder with
    | lease l => exact and_congr_right (fun _ => hentry (fun p => p.2 = id) l)
    | get w r =>
      show (∃ g, m'.getRequests.get? (w, r) = some g ∧ g.2 = id) ↔
        ∃ g, m.getRequests.get? (w, r) = some g ∧ g.2 = id
      rw [hgets]
    | wait o => exact Iff.rfl

omit [DecidableEq W] in
/-- The loop of `RequestLeaseDependencies` over the distinct objects. -/
theorem foldlM_supplyDependency {e : LeaseDependencies O K} (objects : List O)
    (hcounter : CounterInv m.queuedLeaseRequests m.waitingLeasesCounter)
    (hget : m.queuedLeaseRequests.get? lease = some e)
    (hnum : ((objects.filter (· ∈ m.localObjects)).length : ℤ) ≤ e.numMissingDependencies) :
    ∃ queued counter, objects.foldlM (supplyDependency lease) m =
        .ok { m with queuedLeaseRequests := queued, waitingLeasesCounter := counter } ∧
      CounterInv queued counter ∧ ∀ l, queued.get? l = if l = lease then
        some { e with numMissingDependencies :=
          e.numMissingDependencies - (objects.filter (· ∈ m.localObjects)).length }
        else m.queuedLeaseRequests.get? l := by
  induction objects generalizing m e with
  | nil =>
    refine ⟨_, _, rfl, hcounter, fun l => ?_⟩
    split_ifs with hl
    · rw [hl, hget]
      simp
    · rfl
  | cons object objects ih =>
    rw [List.foldlM_cons, supplyDependency, hget]
    dsimp only
    by_cases hlocal : object ∈ m.localObjects
    · have hfilter : (object :: objects).filter (· ∈ m.localObjects) =
          object :: objects.filter (· ∈ m.localObjects) :=
        List.filter_cons_of_pos (by simpa using hlocal)
      rw [hfilter, List.length_cons] at hnum ⊢
      obtain ⟨counter, hrun, hcounter'⟩ := decrementMissingDependencies_ok hcounter hget (by omega)
      obtain ⟨queued, counter', hrest, hcounter'', hqueued⟩ := ih (m := { m with
        queuedLeaseRequests :=
          m.queuedLeaseRequests.set lease
            { e with numMissingDependencies := e.numMissingDependencies - 1 }
        waitingLeasesCounter := counter }) hcounter' (Dict.get?_set_self _ _ _) (by dsimp only; omega)
      rw [if_pos hlocal, hrun, ok_bind]
      refine ⟨queued, counter', hrest, hcounter'', fun l => ?_⟩
      rw [hqueued]
      by_cases hl : l = lease
      · rw [if_pos hl, if_pos hl]
        congr 2
        push_cast
        ring
      · rw [if_neg hl, if_neg hl, Dict.get?_set_ne _ _ hl]
    · have hfilter : (object :: objects).filter (· ∈ m.localObjects) = objects.filter
        (· ∈ m.localObjects) :=
        List.filter_cons_of_neg (by simpa using hlocal)
      rw [hfilter] at hnum ⊢
      rw [if_neg hlocal, ok_bind]
      exact ih hcounter hget hnum

theorem length_filter_local (deps locals : List O) :
    ((deps.filter (· ∉ locals)).length : ℤ) = deps.length - (deps.filter (· ∈ locals)).length := by
  have hlength := List.length_eq_length_filter_add (l := deps) (fun o => decide (o ∈ locals))
  have hnot : (fun o => decide (o ∉ locals)) = fun o => !decide (o ∈ locals) := by
    funext o
    exact decide_not
  rw [hnot]
  omega

omit [DecidableEq O] [DecidableEq K] in
theorem demand_eq_of_leases {leases : L → Option (List O)}
    (hgets : m'.getRequests = m.getRequests) (hwaits : m'.waitRequests = m.waitRequests)
    (hlocal : m'.localObjects = m.localObjects)
    (hleases : ∀ l, (m'.queuedLeaseRequests.get? l).map (·.dependencies) = leases l) :
    m'.demand = { m.demand with leases := leases } := by
  unfold demand
  rw [hgets, hwaits, hlocal]
  exact Demand.ext (funext hleases) rfl rfl rfl

/-- Is the lease queued with all its objects local? -/
def Ready (m : LeaseDependencyManager O W L K) (lease : L) : Prop :=
  ∃ e, m.queuedLeaseRequests.get? lease = some e ∧ e.numMissingDependencies = 0

theorem requestLeaseDependencies_inv (h : Inv m out) (hnew : m.queuedLeaseRequests.get? lease = none)
    (objects : List O) (taskKey : K) :
    ∃ m' ev ready, m.requestLeaseDependencies lease objects taskKey = .ok (m', ev ++ [.leaseReady lease ready]) ∧
      Inv m' (out ++ (ev ++ [.leaseReady lease ready])) ∧
      m'.demand = m.demand.apply (.requestLeaseDependencies lease objects taskKey) ∧
      (ready = true ↔ m'.Ready lease) := by
  set e₀ : LeaseDependencies O K := ⟨objects.dedup, objects.dedup.length, 0, taskKey⟩ with he₀
  set counter₀ := if 0 < objects.dedup.length then incrementCounter m.waitingLeasesCounter taskKey
    else m.waitingLeasesCounter with hcounter₀
  have hinv₀ : CounterInv (m.queuedLeaseRequests.set lease e₀) counter₀ := by
    have htotal : ∀ key, (m.queuedLeaseRequests.set lease e₀).total (fun _ e => waitingUnder key e) =
        m.queuedLeaseRequests.total (fun _ e => waitingUnder key e) +
          if key = taskKey ∧ 0 < objects.dedup.length then 1 else 0 := by
      intro key
      rw [Dict.total_set_of_get?_eq_none hnew]
      congr 1
      refine if_congr (and_congr eq_comm ?_) rfl rfl
      rw [he₀]
      exact Int.natCast_pos
    rw [hcounter₀]
    split_ifs with hpos
    · refine incrementCounter_get? h.counter taskKey (fun key => ?_)
      rw [htotal key]
      simp only [hpos, and_true]
    · intro key
      rw [htotal key, if_neg (fun hand => hpos hand.2), Nat.add_zero]
      exact h.counter key
  obtain ⟨required, hrequire, hgood⟩ := Good.requireObjects (Needs.addLease lease)
    (fun d n hd => describes_addLease hd lease) (fun d => rfl) (fun n hnobody => hnobody.1 lease (.inl rfl)) objects
    (show Good { m with
        queuedLeaseRequests := m.queuedLeaseRequests.set lease e₀
        waitingLeasesCounter := counter₀ } m.needs m.others out from
      h.good.of_eq rfl rfl (fun o => rfl) (fun holder id => Iff.rfl))
  obtain ⟨queued, counter, hdecrement, hcounter, hqueued⟩ := foldlM_supplyDependency
    (m := { m with
      queuedLeaseRequests := m.queuedLeaseRequests.set lease e₀
      waitingLeasesCounter := counter₀
      requiredObjects := required }) objects.dedup hinv₀ (Dict.get?_set_self _ _ _)
    (Int.ofNat_le.mpr (List.length_filter_le _ _))
  have hnum : (objects.dedup.length : ℤ) - (objects.dedup.filter (· ∈ m.localObjects)).length =
      (objects.dedup.filter (· ∉ m.localObjects)).length := (length_filter_local _ _).symm
  set e₁ : LeaseDependencies O K :=
    ⟨objects.dedup, (objects.dedup.filter (· ∉ m.localObjects)).length, 0, taskKey⟩ with he₁
  have hqueued : ∀ l, queued.get? l = if l = lease then some e₁ else m.queuedLeaseRequests.get? l := by
    intro l
    rw [hqueued]
    by_cases hl : l = lease
    · rw [if_pos hl, if_pos hl, he₁, ← hnum]
    · rw [if_neg hl, if_neg hl]
      exact Dict.get?_set_ne _ _ hl
  have hself : queued.get? lease = some e₁ := (hqueued lease).trans (if_pos rfl)
  -- The state with the pull `id`, which is the next one or none.
  have hfinal : ∀ (queued' : Dict L (LeaseDependencies O K)) (id next : ℕ) (ev : List (Event L)),
      (∀ l, queued'.get? l = if l = lease then some { e₁ with pullRequestId := id } else m.queuedLeaseRequests.get? l) →
      CounterInv queued' counter →
      PullsAccounted (holdsWith (others { m with queuedLeaseRequests := queued' }) required) next (out ++ ev) →
      Inv { m with
          queuedLeaseRequests := queued', waitingLeasesCounter := counter, requiredObjects := required,
          nextReqId := next } (out ++ ev) ∧
        demand { m with
          queuedLeaseRequests := queued', waitingLeasesCounter := counter, requiredObjects := required,
          nextReqId := next } = m.demand.apply (.requestLeaseDependencies lease objects taskKey) := by
    intro queued' id next ev hqueued' hcounter' hpulls
    have hneeds : needs { m with
          queuedLeaseRequests := queued', waitingLeasesCounter := counter, requiredObjects := required,
          nextReqId := next } = fun o => (Needs.addLease lease)^[objects.count o] (m.needs o) := by
      funext o
      have hleases : ∀ l, (∃ e, queued'.get? l = some e ∧ o ∈ e.dependencies) ↔
          (l = lease ∧ o ∈ objects) ∨ ∃ e, m.queuedLeaseRequests.get? l = some e ∧ o ∈ e.dependencies := by
        intro l
        rw [hqueued']
        by_cases hl : l = lease
        · simp [hl, he₁, hnew]
        · simp [hl]
      by_cases ho : o ∈ objects
      · rw [Needs.iterate_addLease lease _ (List.count_pos_iff.mpr ho)]
        ext w
        · refine (hleases w).trans ?_
          rw [and_iff_left ho]
          exact Iff.rfl
        · rfl
        · exact Iff.rfl
      · rw [List.count_eq_zero_of_not_mem ho]
        ext w
        · exact (hleases w).trans (or_iff_right (fun hand => ho hand.2))
        · rfl
        · exact Iff.rfl
    refine ⟨{ h with
      good := ⟨hneeds ▸ hgood.tracks, hpulls⟩
      leases := fun l e he => ?_
      counter := hcounter' }, demand_eq_of_leases rfl rfl rfl (fun l => ?_)⟩
    · have he : queued'.get? l = some e := he
      rw [hqueued'] at he
      split_ifs at he
      · cases he
        exact ⟨List.nodup_dedup objects, rfl⟩
      · exact h.leases l e he
    · dsimp only
      rw [hqueued']
      split_ifs
      · rfl
      · rfl
  have hready : ∀ queued' : Dict L (LeaseDependencies O K), ∀ id,
      (∀ l, queued'.get? l = if l = lease then some { e₁ with pullRequestId := id } else m.queuedLeaseRequests.get? l) →
      (decide (e₁.numMissingDependencies = 0) = true ↔
        ∃ e, queued'.get? lease = some e ∧ e.numMissingDependencies = 0) := by
    intro queued' id hqueued'
    rw [hqueued', if_pos rfl]
    simp
  unfold requestLeaseDependencies
  simp only [hnew, Option.isNone_none, rayCheck_true, ok_bind, ← he₀, ← hcounter₀, hrequire, hdecrement, hself]
  split_ifs with hempty
  · have hothers : ∀ holder id, others { m with queuedLeaseRequests := queued } holder id ↔ m.others holder id := by
      intro holder id
      cases holder with
      | lease l =>
          refine and_congr_right (fun hpos => ?_)
          rw [hqueued]
          by_cases hl : l = lease
          · subst hl
            rw [if_pos rfl, hnew]
            simp [he₁, hpos.ne]
          · rw [if_neg hl]
      | get w r => exact Iff.rfl
      | wait o => exact Iff.rfl
    obtain ⟨hinv, hdemand⟩ := hfinal queued 0 m.nextReqId [.leaseReady lease (decide (e₁.numMissingDependencies = 0))]
      hqueued hcounter ((hgood.pulls.congr (fun holder id => by
        cases holder with
        | lease l => exact hothers (.lease l) id
        | get w r => exact Iff.rfl
        | wait o => exact Iff.rfl)).append rfl rfl)
    exact ⟨_, [], _, rfl, hinv, hdemand, hready queued 0 hqueued⟩
  · have hqueued' : ∀ l, (queued.set lease { e₁ with pullRequestId := m.nextReqId }).get? l =
        if l = lease then some { e₁ with pullRequestId := m.nextReqId } else m.queuedLeaseRequests.get? l := by
      intro l
      rw [Dict.get?_set, hqueued]
      split_ifs
      · rfl
      · rfl
    have hpulls : PullsAccounted (holdsWith
        (others { m with queuedLeaseRequests := queued.set lease { e₁ with pullRequestId := m.nextReqId } }) required)
        (m.nextReqId + 1) (out ++ [.pull m.nextReqId]) := by
      refine hgood.pulls.pull (.lease lease) (fun holder id => ?_)
      cases holder with
      | lease l =>
          show (0 < id ∧ ∃ e, (queued.set lease { e₁ with pullRequestId := m.nextReqId }).get? l = some e ∧
              e.pullRequestId = id) ↔
            (0 < id ∧ ∃ e, m.queuedLeaseRequests.get? l = some e ∧ e.pullRequestId = id) ∨
              (Holder.lease l = Holder.lease lease ∧ id = m.nextReqId)
          have hpos := h.good.pulls.next_pos
          rw [hqueued']
          by_cases hl : l = lease
          · subst hl
            rw [if_pos rfl, hnew]
            simp only [Option.some.injEq, exists_eq_left', reduceCtorEq, false_and, exists_false,
              and_false, false_or, true_and]
            omega
          · rw [if_neg hl, or_iff_left (fun hand => hl (Holder.lease.inj hand.1))]
      | get w r => exact (or_iff_left (by simp)).symm
      | wait o => exact (or_iff_left (by simp)).symm
    have hready' : PullsAccounted _ _ ((out ++ [.pull m.nextReqId]) ++
      [.leaseReady lease (decide (e₁.numMissingDependencies = 0))]) := hpulls.append rfl rfl
    rw [List.append_assoc] at hready'
    obtain ⟨hinv, hdemand⟩ := hfinal _ m.nextReqId (m.nextReqId + 1) _ hqueued'
      (counterInv_set hcounter hself (fun key => rfl)) hready'
    exact ⟨_, [.pull m.nextReqId], _, rfl, hinv, hdemand, hready _ m.nextReqId hqueued'⟩

theorem removeLeaseDependencies_inv (h : Inv m out)
    (hqueued : (m.queuedLeaseRequests.get? lease).isSome) :
    ∃ m' ev, m.removeLeaseDependencies lease = .ok (m', ev) ∧ Inv m' (out ++ ev) ∧
      m'.demand = m.demand.apply (K := K) (.removeLeaseDependencies lease) := by
  obtain ⟨e, hget⟩ := Option.isSome_iff_exists.mp hqueued
  obtain ⟨hnodup, hnum⟩ := h.leases lease e hget
  have hget' : ∀ l, (m.queuedLeaseRequests.erase lease).get? l =
      if l = lease then none else m.queuedLeaseRequests.get? l := Dict.get?_erase _ _
  have hentry : ∀ (P : LeaseDependencies O K → Prop) (l : L),
      (∃ e, (m.queuedLeaseRequests.erase lease).get? l = some e ∧ P e) ↔
        (∃ e, m.queuedLeaseRequests.get? l = some e ∧ P e) ∧ l ≠ lease := by
    intro P l
    rw [hget']
    by_cases hl : l = lease
    · simp [hl]
    · simp [hl]
  have hothers : ∀ holder id,
    others { m with queuedLeaseRequests := m.queuedLeaseRequests.erase lease } holder id ↔
      m.others holder id ∧ holder ≠ .lease lease := by
    intro holder id
    cases holder with
    | lease l =>
      show (0 < id ∧ ∃ e, (m.queuedLeaseRequests.erase lease).get? l = some e ∧ e.pullRequestId = id) ↔
        (0 < id ∧ ∃ e, m.queuedLeaseRequests.get? l = some e ∧ e.pullRequestId = id) ∧
          Holder.lease l ≠ Holder.lease lease
      rw [hentry (fun e => e.pullRequestId = id), and_assoc, ne_eq, ne_eq, Holder.lease.injEq]
    | get w r => exact (and_iff_left (by simp)).symm
    | wait o => exact (and_iff_left (by simp)).symm
  have hholds : ∀ holder id,
    holdsWith (others { m with queuedLeaseRequests := m.queuedLeaseRequests.erase lease })
      m.requiredObjects holder id ↔ holdsWith m.others m.requiredObjects holder id ∧
      holder ≠ .lease lease := by
    intro holder id
    cases holder with
    | lease l => exact hothers (.lease l) id
    | get w r => exact hothers (.get w r) id
    | wait o => exact (and_iff_left (by simp)).symm
  have hcancelled : Good m m.needs
    (others { m with queuedLeaseRequests := m.queuedLeaseRequests.erase lease })
      (out ++ if 0 < e.pullRequestId then [.cancelPull e.pullRequestId] else []) := by
    refine ⟨h.good.tracks, ?_⟩
    split_ifs with hpos
    · refine h.good.pulls.cancelHolder
        (show holdsWith m.others m.requiredObjects (.lease lease) e.pullRequestId from
        ⟨hpos, e, hget, rfl⟩) ?_ hholds
      rintro id ⟨-, e', he', rfl⟩
      rw [hget] at he'
      rw [Option.some.inj he']
    · rw [List.append_nil]
      refine h.good.pulls.congr (fun holder id => (hholds holder id).trans (and_iff_left_of_imp ?_))
      rintro hheld rfl
      obtain ⟨hid, e', he', rfl⟩ : 0 < id ∧ ∃ e', m.queuedLeaseRequests.get? lease = some e' ∧
        e'.pullRequestId = id :=
        hheld
      rw [hget] at he'
      cases he'
      exact hpos hid
  have hcount : ∀ o, e.dependencies.count o = if o ∈ e.dependencies then 1 else 0 := by
    intro o
    split_ifs with ho
    · exact List.count_eq_one_of_mem hnodup ho
    · exact List.count_eq_zero_of_not_mem ho
  obtain ⟨required, ev, hrun, hgood⟩ := hcancelled.releaseObjects (Needs.dropLease lease)
    (fun n => n.leases lease)
    e.dependencies (fun d n _ hd => describes_dropLease hd lease) (fun d => rfl)
    (fun n hn hnobody => hnobody.1 lease hn) (by
      intro o k hk
      rw [hcount] at hk
      split_ifs at hk with ho
      · obtain rfl : k = 0 := by omega
        exact ⟨e, hget, ho⟩
      · omega)
  have hneeds : ∀ o, needs { m with queuedLeaseRequests := m.queuedLeaseRequests.erase lease } o =
      (Needs.dropLease lease)^[e.dependencies.count o] (m.needs o) := by
    intro o
    rw [hcount]
    by_cases ho : o ∈ e.dependencies
    · rw [if_pos ho, Function.iterate_one]
      ext l
      · exact hentry (fun e => o ∈ e.dependencies) l
      · rfl
      · exact Iff.rfl
    · rw [if_neg ho]
      ext l
      · refine (hentry (fun e => o ∈ e.dependencies) l).trans (and_iff_left_of_imp ?_)
        rintro ⟨e', he', hmem⟩ rfl
        rw [hget] at he'
        cases he'
        exact ho hmem
      · rfl
      · exact Iff.rfl
  have hcounter : ∃ counter,
    (if 0 < e.numMissingDependencies then decrementCounter m.waitingLeasesCounter e.taskKey
        else .ok m.waitingLeasesCounter) = .ok counter ∧
          CounterInv (m.queuedLeaseRequests.erase lease) counter := by
    have htotal : ∀ key, m.queuedLeaseRequests.total (fun _ e => waitingUnder key e) =
        (m.queuedLeaseRequests.erase lease).total (fun _ e => waitingUnder key e) +
          waitingUnder key e :=
      fun key => (Dict.total_erase hget _).symm
    split_ifs with hpos
    · refine decrementCounter_get? h.counter e.taskKey _ (fun key => ?_)
      rw [htotal]
      congr 1
      refine if_congr ?_ rfl rfl
      rw [and_iff_left hpos, eq_comm]
    · refine ⟨_, rfl, fun key => ?_⟩
      rw [h.counter key, htotal, waitingUnder, if_neg (fun hand => hpos hand.2), Nat.add_zero]
  obtain ⟨counter, hdecrement, hcounter⟩ := hcounter
  have hremove : m.removeLeaseDependencies lease = .ok
      ({ m with
          requiredObjects := required
          queuedLeaseRequests := m.queuedLeaseRequests.erase lease
          waitingLeasesCounter := counter },
        (if 0 < e.pullRequestId then [.cancelPull e.pullRequestId] else []) ++ ev) := by
    unfold removeLeaseDependencies
    rw [hget, rayFind_some]
    simp only [ok_bind, hrun]
    by_cases hmissing : 0 < e.numMissingDependencies
    · rw [if_pos hmissing] at hdecrement ⊢
      rw [hdecrement]
      rfl
    · rw [if_neg hmissing] at hdecrement ⊢
      cases hdecrement
      rfl
  refine ⟨_, _, hremove, { h with
    good := (List.append_assoc _ _ _ ▸ hgood).of_eq rfl rfl hneeds (fun holder id => Iff.rfl)
    leases := fun l e' he' => ?_
    counter := hcounter }, demand_eq_of_leases rfl rfl rfl (fun l => ?_)⟩
  · have he' : (m.queuedLeaseRequests.erase lease).get? l = some e' := he'
    rw [hget'] at he'
    split_ifs at he'
    exact h.leases l e' he'
  · dsimp only
    rw [hget']
    split_ifs
    · rfl
    · rfl

end leases

/-! ### Local objects -/

section objects
variable {m m' : LeaseDependencyManager O W L K} {out : List (Event L)} {object : O}

theorem length_filter_missing {deps locals locals' : List O} (hnodup : deps.Nodup)
    (hobject : object ∉ locals)
    (hlocals : ∀ o, o ∈ locals' ↔ o = object ∨ o ∈ locals) :
    (deps.filter (· ∉ locals)).length =
      (deps.filter (· ∉ locals')).length + if object ∈ deps then 1 else 0 := by
  induction deps with
  | nil => rfl
  | cons o deps ih =>
    rw [List.nodup_cons] at hnodup
    have ih := ih hnodup.2
    by_cases ho : o = object
    · subst ho
      rw [List.filter_cons_of_pos (by simpa using hobject),
        List.filter_cons_of_neg (by simp [hlocals]), List.length_cons, if_pos (.head _)]
      rw [if_neg hnodup.1] at ih
      omega
    · have hmem : object ∈ o :: deps ↔ object ∈ deps := by
        rw [List.mem_cons, or_iff_right (Ne.symm ho)]
      simp only [hmem]
      by_cases hlocal : o ∈ locals
      · rw [List.filter_cons_of_neg (by simpa using hlocal),
          List.filter_cons_of_neg (by simp [hlocals, hlocal])]
        exact ih
      · rw [List.filter_cons_of_pos (by simpa using hlocal),
          List.filter_cons_of_pos (by simp [hlocals, ho, hlocal]), List.length_cons,
          List.length_cons]
        omega

/-- The entry of an object lists the leases that need it; without an entry no lease does. -/
theorem exists_dependentLeases (h : Inv m out) (object : O) :
    ∃ ls : List L, ls.Nodup ∧ (∀ l, l ∈ ls ↔ (m.needs object).leases l) ∧
      ls = match m.requiredObjects.get? object with
        | none => []
        | some d => d.dependentLeases := by
  have hobject := h.good.tracks object
  cases hget : m.requiredObjects.get? object with
  | none =>
    rw [hget] at hobject
    exact ⟨[], List.nodup_nil, fun l => iff_of_false List.not_mem_nil (hobject.1 l), rfl⟩
  | some d =>
    rw [hget] at hobject
    exact ⟨d.dependentLeases, hobject.1.leases_nodup, hobject.1.mem_leases, rfl⟩

section adjusted
variable {ls : List L} {δ : ℤ}
  (hadjusted : ∀ l, m'.queuedLeaseRequests.get? l = (m.queuedLeaseRequests.get? l).map
    (adjusted ls δ l))
omit [DecidableEq K]
include hadjusted

omit [DecidableEq O] [DecidableEq W] in
theorem ready_of_adjusted (l : L) : m'.Ready l ↔
    ∃ e, m.queuedLeaseRequests.get? l = some e ∧
    e.numMissingDependencies + (if l ∈ ls then δ else 0) = 0 := by
  unfold Ready
  rw [hadjusted]
  cases m.queuedLeaseRequests.get? l with
  | none => simp
  | some e => simp [adjusted_numMissingDependencies]

theorem good_of_adjusted (h : Good m m.needs m.others out)
    (hrequired : m'.requiredObjects = m.requiredObjects)
    (hnext : m'.nextReqId = m.nextReqId) (hgets : m'.getRequests = m.getRequests)
    (hwaits : m'.waitRequests = m.waitRequests) : Good m' m'.needs m'.others out := by
  refine good_of_queued h (fun l => ?_) hrequired hnext hgets hwaits
  rw [hadjusted, Option.map_map]
  congr 1
  funext e
  simp

omit [DecidableEq O] [DecidableEq W] in
theorem dependencies_of_adjusted (l : L) : (m'.queuedLeaseRequests.get? l).map (·.dependencies) =
    (m.queuedLeaseRequests.get? l).map (·.dependencies) := by
  rw [hadjusted, Option.map_map]
  congr 1
  funext e
  simp

end adjusted

theorem handleObjectMissing_inv (h : Inv m out) (hlocal : object ∈ m.localObjects) :
    ∃ m' waiting, m.handleObjectMissing object = .ok (m', [.waitingLeases waiting]) ∧
      Inv m' (out ++ [.waitingLeases waiting]) ∧
      m'.demand = m.demand.apply (K := K) (.handleObjectMissing object) ∧
      waiting.Nodup ∧ ∀ l, l ∈ waiting ↔ m.Ready l ∧ ¬ m'.Ready l := by
  obtain ⟨ls, hnodup, hls, hentry⟩ := exists_dependentLeases h object
  have hlocals : ∀ o, o ∈ m.localObjects ↔ o = object ∨ o ∈ m.localObjects.erase object := by
    intro o
    rw [h.locals_nodup.mem_erase_iff]
    by_cases ho : o = object
    · simp [ho, hlocal]
    · simp [ho]
  have hnot : object ∉ m.localObjects.erase object :=
    fun hmem => (h.locals_nodup.mem_erase_iff.mp hmem).1 rfl
  obtain ⟨queued, counter, hrun, hcounter, hqueued⟩ := missForLease_adjusts.runSteps
    (m := { m with localObjects := m.localObjects.erase object }) hnodup h.counter (fun l hl => by
      obtain ⟨e, he, -⟩ := (hls l).mp hl
      refine ⟨e, he, ?_⟩
      rw [(h.leases l e he).2]
      exact Int.natCast_nonneg _)
  have hmissing : m.handleObjectMissing object = .ok
      ({ m with
          localObjects := m.localObjects.erase object
          queuedLeaseRequests := queued
          waitingLeasesCounter := counter },
        [.waitingLeases (ls.filter (isAsked m.queuedLeaseRequests 0))]) := by
    unfold handleObjectMissing
    rw [decide_eq_true hlocal, rayCheck_true]
    simp only [ok_bind]
    cases hget : m.requiredObjects.get? object with
    | none =>
      rw [hget] at hentry
      subst hentry
      cases hrun
      rfl
    | some d =>
      rw [hget] at hentry
      subst hentry
      simp only [hrun, ok_bind]
      rfl
  set m₁ : LeaseDependencyManager O W L K := { m with
    localObjects := m.localObjects.erase object
    queuedLeaseRequests := queued
    waitingLeasesCounter := counter } with hm₁
  have hadjusted : ∀ l, m₁.queuedLeaseRequests.get? l = (m.queuedLeaseRequests.get? l).map
    (adjusted ls 1 l) := hqueued
  have hgood : Good m₁ m₁.needs m₁.others
    (out ++ [.waitingLeases (ls.filter (isAsked m.queuedLeaseRequests 0))]) := by
    have hgood₁ := good_of_adjusted hadjusted h.good rfl rfl rfl rfl
    exact ⟨hgood₁.tracks, hgood₁.pulls.append rfl rfl⟩
  refine ⟨m₁, _, hmissing, { h with
    good := hgood
    leases := fun l e he => ?_
    counter := hcounter
    waits := fun w s hs => ⟨(h.waits w s hs).1, fun o ho hmem =>
      (h.waits w s hs).2 o ho (List.mem_of_mem_erase hmem)⟩
    locals_nodup := h.locals_nodup.erase object }, ?_, hnodup.filter _, fun l => ?_⟩
  · rw [hadjusted] at he
    obtain ⟨e₀, he₀, rfl⟩ := Option.map_eq_some_iff.mp he
    obtain ⟨hdeps, hnum⟩ := h.leases l e₀ he₀
    rw [adjusted_dependencies, adjusted_numMissingDependencies, hnum]
    refine ⟨hdeps, ?_⟩
    have hlength := length_filter_missing hdeps hnot hlocals
    have hmem : l ∈ ls ↔ object ∈ e₀.dependencies := by
      rw [hls]
      show (∃ e, m.queuedLeaseRequests.get? l = some e ∧ object ∈ e.dependencies) ↔ _
      simp [he₀]
    simp only [hmem]
    rw [hlength]
    push_cast
    rfl
  · refine Demand.ext ?_ rfl rfl ?_
    · funext l
      exact dependencies_of_adjusted hadjusted l
    · funext o
      refine propext (h.locals_nodup.mem_erase_iff.trans ?_)
      exact and_comm
  · rw [ready_of_adjusted hadjusted, List.mem_filter, isAsked, Ready]
    cases hget : m.queuedLeaseRequests.get? l with
    | none => simp
    | some e =>
      by_cases hl : l ∈ ls
      · simp [hl]
        omega
      · simp [hl]

/-- What is left of a wait request without an object: nothing, if that was the only one. -/
def withoutObject (object : O) (s : List O) : Option (List O) :=
  if s.erase object = [] then none else some (s.erase object)

omit [DecidableEq L] [DecidableEq K] in
theorem foldlM_supplyWorker {ws : List W} (hnodup : ws.Nodup)
    (hws : ∀ w ∈ ws, ∃ s, m.waitRequests.get? w = some s ∧ object ∈ s) :
    ∃ waits, ws.foldlM (supplyWorker object) m = .ok { m with waitRequests := waits } ∧
      ∀ w, waits.get? w =
        if w ∈ ws then (m.waitRequests.get? w).bind (withoutObject object)
        else m.waitRequests.get? w := by
  induction ws generalizing m with
  | nil => exact ⟨m.waitRequests, rfl, fun w => rfl⟩
  | cons worker ws ih =>
    rw [List.nodup_cons] at hnodup
    rw [List.forall_mem_cons] at hws
    obtain ⟨⟨s, hget, hmem⟩, hws⟩ := hws
    have hne : ∀ w ∈ ws, w ≠ worker := fun w hw heq => hnodup.1 (heq ▸ hw)
    set waits₁ := if s.erase object = [] then m.waitRequests.erase worker
      else m.waitRequests.set worker (s.erase object) with hwaits₁
    have hget₁ : ∀ w, waits₁.get? w =
        if w = worker then withoutObject object s else m.waitRequests.get? w := by
      intro w
      rw [hwaits₁]
      unfold withoutObject
      split_ifs with hnil hw hw
      · rw [Dict.get?_erase, if_pos hw]
      · rw [Dict.get?_erase, if_neg hw]
      · rw [hw, Dict.get?_set_self]
      · rw [Dict.get?_set_ne _ _ hw]
    have hstep : supplyWorker object m worker = .ok { m with waitRequests := waits₁ } := by
      unfold supplyWorker
      rw [hget, rayFind_some]
      simp only [ok_bind, decide_eq_true hmem, rayCheck_true]
      rfl
    obtain ⟨waits, hrun, hwaits⟩ := ih (m := { m with waitRequests := waits₁ }) hnodup.2 (fun w hw => by
      rw [hget₁, if_neg (hne w hw)]
      exact hws w hw)
    refine ⟨waits, ?_, fun w => ?_⟩
    · rw [List.foldlM_cons, hstep, ok_bind]
      exact hrun
    · rw [hwaits]
      rw [hget₁]
      by_cases hw : w = worker
      · subst hw
        rw [if_neg hnodup.1, if_pos rfl, if_pos List.mem_cons_self, hget]
        rfl
      · rw [if_neg hw]
        simp only [List.mem_cons, hw, false_or]

theorem waits_withoutObject (h : Inv m out) {waits : Dict W (List O)} {ws : List W}
    (hws : ∀ w, w ∈ ws ↔ (m.needs object).waits w)
    (hwaits : ∀ w, waits.get? w =
      if w ∈ ws then (m.waitRequests.get? w).bind (withoutObject object) else m.waitRequests.get? w)
    (w : W) (s' : List O) :
    waits.get? w = some s' ↔ ∃ s, m.waitRequests.get? w = some s ∧ s' = s.erase object ∧ s' ≠ [] := by
  have hmem : w ∈ ws ↔ ∃ s, m.waitRequests.get? w = some s ∧ object ∈ s := hws w
  rw [hwaits]
  cases hget : m.waitRequests.get? w with
  | none => simp
  | some s =>
    have hs : w ∈ ws ↔ object ∈ s := by
      rw [hmem, hget]
      simp
    by_cases hw : w ∈ ws
    · rw [if_pos hw, Option.bind_some, withoutObject]
      split_ifs with hnil
      · simp [hnil]
      · simp only [Option.some.injEq, exists_eq_left']
        constructor
        · rintro rfl
          exact ⟨rfl, hnil⟩
        · exact fun hand => hand.1.symm
    · rw [if_neg hw]
      have herase : s.erase object = s := List.erase_of_not_mem (fun hin => hw (hs.mpr hin))
      simp only [Option.some.injEq, exists_eq_left', herase]
      constructor
      · rintro rfl
        exact ⟨rfl, h.waits_ne_nil w s hget⟩
      · exact fun hand => hand.1.symm

omit [DecidableEq W] [DecidableEq L] in
theorem cancelWait_pulls {required : Dict O (ObjectDependencies W L)}
    {others : Holder O W L → ℕ → Prop} {next : ℕ}
    {d d' : ObjectDependencies W L} (hget : required.get? object = some d)
    (hpulls : PullsAccounted (holdsWith others required) next out) (hzero : d'.waitRequestId = 0) :
    PullsAccounted (holdsWith others (required.set object d')) next
      (out ++ if 0 < d.waitRequestId then [.cancelPull d.waitRequestId] else []) := by
  have hholds : ∀ holder id, holdsWith others (required.set object d') holder id ↔
      holdsWith others required holder id ∧ holder ≠ .wait object := by
    intro holder id
    cases holder with
    | lease l => exact (and_iff_left (by simp)).symm
    | get w r => exact (and_iff_left (by simp)).symm
    | wait o =>
      by_cases ho : o = object
      · subst ho
        rw [holdsWith_wait (Dict.get?_set_self _ _ _), hzero]
        constructor
        · rintro ⟨hpos, rfl⟩
          exact absurd hpos (lt_irrefl 0)
        · exact fun hand => absurd rfl hand.2
      · rw [and_iff_left (fun heq => ho (Holder.wait.inj heq))]
        show (0 < id ∧ ∃ d, (required.set object d').get? o = some d ∧ d.waitRequestId = id) ↔
          0 < id ∧ ∃ d, required.get? o = some d ∧ d.waitRequestId = id
        rw [Dict.get?_set_ne _ _ ho]
  split_ifs with hpos
  · exact hpulls.cancelHolder ((holdsWith_wait hget).mpr ⟨hpos, rfl⟩)
      (fun id hid => ((holdsWith_wait hget).mp hid).2) hholds
  · rw [List.append_nil]
    refine hpulls.congr (fun holder id => (hholds holder id).trans (and_iff_left_of_imp ?_))
    rintro hheld rfl
    have := (holdsWith_wait hget).mp hheld
    omega

theorem handleObjectLocal_inv (h : Inv m out) (hnot : object ∉ m.localObjects) :
    ∃ m' ev ready, m.handleObjectLocal object = .ok (m', ev ++ [.readyLeases ready]) ∧
      Inv m' (out ++ (ev ++ [.readyLeases ready])) ∧
      m'.demand = m.demand.apply (K := K) (.handleObjectLocal object) ∧
      ready.Nodup ∧ ∀ l, l ∈ ready ↔ ¬ m.Ready l ∧ m'.Ready l := by
  have hlocals : ∀ o, o ∈ m.localObjects.insert object ↔ o = object ∨ o ∈ m.localObjects := by
    intro o
    exact List.mem_insert_iff
  obtain ⟨ls, hnodup, hls, hentry⟩ := exists_dependentLeases h object
  obtain ⟨queued, counter, hrun, hcounter, hqueued⟩ := supplyLease_adjusts.runSteps
    (m := { m with localObjects := m.localObjects.insert object }) hnodup h.counter (fun l hl => by
      obtain ⟨e, he, hmem⟩ := (hls l).mp hl
      refine ⟨e, he, ?_⟩
      rw [(h.leases l e he).2]
      exact Int.natCast_pos.mpr
        (List.length_pos_of_mem (List.mem_filter.mpr ⟨hmem, by simpa using hnot⟩)))
  -- What the loops and the entry of the object leave.
  have hlocal : ∃ waits required ev, m.handleObjectLocal object = .ok
        ({ m with
            localObjects := m.localObjects.insert object
            queuedLeaseRequests := queued
            waitingLeasesCounter := counter
            waitRequests := waits
            requiredObjects := required },
          ev ++ [.readyLeases (ls.filter (isAsked m.queuedLeaseRequests 1))]) ∧
      (∀ w s', waits.get? w = some s' ↔ ∃ s, m.waitRequests.get? w = some s ∧
        s' = s.erase object ∧ s' ≠ []) ∧
      Good { m with requiredObjects := required }
        (Function.update m.needs object { m.needs object with waits := fun _ => False }) m.others
          (out ++ ev) := by
    unfold handleObjectLocal
    rw [decide_eq_true hnot, rayCheck_true]
    simp only [ok_bind]
    have hobject := h.good.tracks object
    cases hget : m.requiredObjects.get? object with
    | none =>
      rw [hget] at hentry hobject
      subst hentry
      cases hrun
      refine ⟨m.waitRequests, m.requiredObjects, [], rfl, fun w s' => ?_, ?_⟩
      · constructor
        · intro hs
          have herase : s'.erase object = s' :=
            List.erase_of_not_mem (fun hin => hobject.2.2 w ⟨s', hs, hin⟩)
          exact ⟨s', hs, herase.symm, h.waits_ne_nil w s' hs⟩
        · rintro ⟨s, hs, rfl, -⟩
          have herase : s.erase object = s :=
            List.erase_of_not_mem (fun hin => hobject.2.2 w ⟨s, hs, hin⟩)
          rw [herase]
          exact hs
      · rw [List.append_nil]
        refine h.good.of_eq rfl rfl (fun o => ?_) (fun holder id => Iff.rfl)
        by_cases ho : o = object
        · subst ho
          rw [Function.update_self]
          ext w
          · exact Iff.rfl
          · rfl
          · exact iff_of_false id (hobject.2.2 w)
        · rw [Function.update_of_ne ho]
    | some d =>
      rw [hget] at hentry hobject
      subst hentry
      obtain ⟨waits, hloop, hwaits⟩ := foldlM_supplyWorker
        (m := { m with
          localObjects := m.localObjects.insert object
          queuedLeaseRequests := queued
          waitingLeasesCounter := counter }) hobject.1.waits_nodup
        (fun w hw => (hobject.1.mem_waits w).mp hw)
      set d' : ObjectDependencies W L :=
        { d with dependentWaitRequests := [], waitRequestId := 0 } with hd'
      have hdesc : Describes d' { m.needs object with waits := fun _ => False } :=
        { hobject.1 with
          waits_nodup := List.nodup_nil
          mem_waits := fun w => iff_of_false List.not_mem_nil id }
      obtain ⟨m₁, ev, hremove, ⟨required, rfl⟩, hgood⟩ := removeObjectIfNotNeeded_good
        (m := { m with
          localObjects := m.localObjects.insert object
          queuedLeaseRequests := queued
          waitingLeasesCounter := counter
          waitRequests := waits
          requiredObjects := m.requiredObjects.set object d' }) (Dict.get?_set_self _ _ _) hdesc
            (fun o ho => by
            rw [Dict.get?_set_ne _ _ ho]
            exact h.good.tracks o) (cancelWait_pulls hget h.good.pulls rfl)
      simp only [hrun, ok_bind, hloop, ← hd', hremove]
      refine ⟨waits, required, _, rfl, waits_withoutObject h hobject.1.mem_waits hwaits, ?_⟩
      rw [← List.append_assoc]
      exact hgood.of_eq rfl rfl (fun o => rfl) (fun holder id => Iff.rfl)
  obtain ⟨waits, required, ev, hlocal, hwaits, hgood⟩ := hlocal
  set m₁ : LeaseDependencyManager O W L K := { m with
    localObjects := m.localObjects.insert object
    queuedLeaseRequests := queued
    waitingLeasesCounter := counter
    waitRequests := waits
    requiredObjects := required } with hm₁
  have hadjusted : ∀ l, m₁.queuedLeaseRequests.get? l = (m.queuedLeaseRequests.get? l).map
    (adjusted ls (-1) l) := hqueued
  have hwaits' : ∀ w o, (∃ s', waits.get? w = some s' ∧ o ∈ s') ↔
      (∃ s, m.waitRequests.get? w = some s ∧ o ∈ s) ∧ o ≠ object := by
    intro w o
    constructor
    · rintro ⟨s', hs', ho⟩
      obtain ⟨s, hs, rfl, -⟩ := (hwaits w s').mp hs'
      obtain ⟨hne, hmem⟩ := (h.waits w s hs).1.mem_erase_iff.mp ho
      exact ⟨⟨s, hs, hmem⟩, hne⟩
    · rintro ⟨⟨s, hs, hmem⟩, hne⟩
      have ho : o ∈ s.erase object := (h.waits w s hs).1.mem_erase_iff.mpr ⟨hne, hmem⟩
      exact ⟨s.erase object, (hwaits w _).mpr ⟨s, hs, rfl, List.ne_nil_of_mem ho⟩, ho⟩
  have hgood₁ : Good m₁ m₁.needs m₁.others
    (out ++ (ev ++ [.readyLeases (ls.filter (isAsked m.queuedLeaseRequests 1))])) := by
    have hleases := dependencies_of_adjusted hadjusted
    have hneeds : ∀ o, m₁.needs o =
        Function.update m.needs object { m.needs object with waits := fun _ => False } o := by
      intro o
      have hleases' : ∀ l, (m₁.needs o).leases l ↔ (m.needs o).leases l := by
        intro l
        have hexists : ∀ q : Option (LeaseDependencies O K), (∃ e, q = some e ∧ o ∈ e.dependencies) ↔
            ∃ deps, q.map (·.dependencies) = some deps ∧ o ∈ deps := by
          intro q
          cases q with
          | none => simp
          | some e => simp
        refine (hexists _).trans (Iff.trans ?_ (hexists _).symm)
        rw [hleases]
      by_cases ho : o = object
      · subst ho
        rw [Function.update_self]
        ext w
        · exact hleases' w
        · rfl
        · exact iff_of_false (fun hw => ((hwaits' w o).mp hw).2 rfl) id
      · rw [Function.update_of_ne ho]
        ext w
        · exact hleases' w
        · rfl
        · exact (hwaits' w o).trans (and_iff_left ho)
    have hothers : ∀ holder id, m₁.others holder id ↔ m.others holder id := by
      intro holder id
      cases holder with
      | lease l =>
        refine and_congr_right (fun _ => ?_)
        rw [hadjusted]
        cases m.queuedLeaseRequests.get? l with
        | none => simp
        | some e => simp
      | get w r => exact Iff.rfl
      | wait o => exact Iff.rfl
    have hgood' : Good m₁ m₁.needs m₁.others (out ++ ev) := hgood.of_eq rfl rfl hneeds hothers
    rw [← List.append_assoc]
    exact ⟨hgood'.tracks, hgood'.pulls.append rfl rfl⟩
  refine ⟨m₁, ev, _, hlocal, { h with
    good := hgood₁
    leases := fun l e he => ?_
    counter := hcounter
    waits := fun w s' hs' => ?_
    locals_nodup := h.locals_nodup.insert
    waits_ne_nil := fun w s' hs' => ?_ }, ?_, hnodup.filter _, fun l => ?_⟩
  · rw [hadjusted] at he
    obtain ⟨e₀, he₀, rfl⟩ := Option.map_eq_some_iff.mp he
    obtain ⟨hdeps, hnum⟩ := h.leases l e₀ he₀
    rw [adjusted_dependencies, adjusted_numMissingDependencies, hnum]
    refine ⟨hdeps, ?_⟩
    have hlength := length_filter_missing hdeps hnot hlocals
    have hmem : l ∈ ls ↔ object ∈ e₀.dependencies := by
      rw [hls]
      show (∃ e, m.queuedLeaseRequests.get? l = some e ∧ object ∈ e.dependencies) ↔ _
      simp [he₀]
    simp only [hmem]
    rw [hlength]
    split_ifs
    · push_cast
      ring
    · push_cast
      ring
  · obtain ⟨s, hs, rfl, -⟩ := (hwaits w s').mp hs'
    obtain ⟨hnodup', hnonlocal⟩ := h.waits w s hs
    refine ⟨hnodup'.erase object, fun o ho hmem => ?_⟩
    obtain ⟨hne, ho⟩ := hnodup'.mem_erase_iff.mp ho
    exact ((hlocals o).mp hmem).elim hne (hnonlocal o ho)
  · obtain ⟨s, hs, rfl, hne⟩ := (hwaits w s').mp hs'
    exact hne
  · refine Demand.ext ?_ rfl ?_ ?_
    · funext l
      exact dependencies_of_adjusted hadjusted l
    · funext w o
      exact propext (hwaits' w o)
    · funext o
      exact propext (hlocals o)
  · rw [ready_of_adjusted hadjusted, List.mem_filter, isAsked, Ready]
    cases hget : m.queuedLeaseRequests.get? l with
    | none => simp
    | some e =>
      by_cases hl : l ∈ ls
      · simp [hl]
        omega
      · simp [hl]

end objects

/-! ### Runs -/

section runs
variable {m : LeaseDependencyManager O W L K} {out : List (Event L)}

omit [DecidableEq O] [DecidableEq K] in
theorem demand_init : demand (init : LeaseDependencyManager O W L K) = Demand.init := by
  refine Demand.ext rfl rfl ?_ ?_
  · funext w o
    exact propext (iff_of_false (fun ⟨_, hs, _⟩ => (nomatch hs)) id)
  · funext o
    exact propext (iff_of_false List.not_mem_nil id)

theorem step_inv (h : Inv m out) {op : Op O W L K} (hallowed : m.demand.Allowed op) :
    ∃ m' ev, m.step op = .ok (m', ev) ∧ Inv m' (out ++ ev) ∧ m'.demand = m.demand.apply op := by
  cases op with
  | startOrUpdateWaitRequest worker objects => exact startOrUpdateWaitRequest_inv h worker objects
  | cancelWaitRequest worker => exact cancelWaitRequest_inv h worker
  | startGetRequest worker objects requestId =>
    exact startGetRequest_inv h worker objects (Option.map_eq_none_iff.mp hallowed)
  | cancelGetRequest worker requestId => exact cancelGetRequest_inv h worker requestId
  | cancelGetRequests worker => exact cancelGetRequests_inv h worker
  | requestLeaseDependencies lease objects taskKey =>
    obtain ⟨m', ev, ready, hrun, hinv, hdemand, -⟩ :=
      requestLeaseDependencies_inv h (Option.map_eq_none_iff.mp hallowed) objects taskKey
    exact ⟨m', _, hrun, hinv, hdemand⟩
  | removeLeaseDependencies lease =>
    refine removeLeaseDependencies_inv h ?_
    have hsome : ((m.queuedLeaseRequests.get? lease).map (·.dependencies)).isSome = true := hallowed
    rwa [Option.isSome_map] at hsome
  | handleObjectLocal object =>
    obtain ⟨m', ev, ready, hrun, hinv, hdemand, -⟩ := handleObjectLocal_inv h hallowed
    exact ⟨m', _, hrun, hinv, hdemand⟩
  | handleObjectMissing object =>
    obtain ⟨m', waiting, hrun, hinv, hdemand, -⟩ := handleObjectMissing_inv h hallowed
    exact ⟨m', _, hrun, hinv, hdemand⟩

/-- Every operation of a run is allowed when it comes. -/
def AllowedRun : Demand O W L → List (Op O W L K) → Prop
  | _, [] => True
  | d, op :: ops => d.Allowed op ∧ AllowedRun (d.apply op) ops

theorem run_inv (ops : List (Op O W L K)) (h : Inv m out) (hallowed : AllowedRun m.demand ops) :
    ∃ m' out', runSteps step m ops = .ok (m', out') ∧ Inv m' (out ++ out') ∧
      m'.demand = ops.foldl Demand.apply m.demand := by
  induction ops generalizing m out with
  | nil => exact ⟨m, [], rfl, by rwa [List.append_nil], rfl⟩
  | cons op ops ih =>
    obtain ⟨m₁, ev, hstep, hinv, hdemand⟩ := step_inv h hallowed.1
    obtain ⟨m', out', hrun, hinv', hdemand'⟩ := ih hinv (hdemand ▸ hallowed.2)
    refine ⟨m', ev ++ out', runSteps_cons_eq_ok.mpr ⟨m₁, ev, out', hstep, hrun, rfl⟩, ?_, ?_⟩
    · rwa [← List.append_assoc]
    · rw [hdemand', hdemand]
      rfl

/-- Something asks for the object. -/
def Asked (d : Demand O W L) (object : O) : Prop :=
  (∃ lease deps, d.leases lease = some deps ∧ object ∈ deps) ∨
    (∃ worker requestId objects, d.gets worker requestId = some objects ∧ object ∈ objects) ∨
    ∃ worker, d.waits worker object

omit [DecidableEq K] in
theorem asked_iff_needed (m : LeaseDependencyManager O W L K) (object : O) :
    Asked m.demand object ↔ ¬ (m.needs object).Nobody := by
  have hleases : (∃ lease deps, m.demand.leases lease = some deps ∧ object ∈ deps) ↔
      ∃ lease, (m.needs object).leases lease := by
    refine exists_congr (fun l => ?_)
    show (∃ deps, (m.queuedLeaseRequests.get? l).map (·.dependencies) = some deps ∧ object ∈ deps) ↔
      ∃ e, m.queuedLeaseRequests.get? l = some e ∧ object ∈ e.dependencies
    cases m.queuedLeaseRequests.get? l with
    | none => simp
    | some e => simp
  have hgets : (∃ worker requestId objects, m.demand.gets worker requestId = some objects ∧
    object ∈ objects) ↔
      ∃ worker, 0 < (m.needs object).gets worker := by
    refine exists_congr (fun w => ?_)
    unfold needs
    rw [Dict.total_pos_iff]
    constructor
    · rintro ⟨id, objects, hobjects, hmem⟩
      obtain ⟨g, hg, rfl⟩ := Option.map_eq_some_iff.mp hobjects
      refine ⟨(w, id), g, hg, ?_⟩
      rw [if_pos rfl]
      exact List.count_pos_iff.mpr hmem
    · rintro ⟨⟨w', id⟩, g, hg, hpos⟩
      split_ifs at hpos with hw
      · obtain rfl : w' = w := hw
        exact ⟨id, g.1, Option.map_eq_some_iff.mpr ⟨g, hg, rfl⟩, List.count_pos_iff.mp hpos⟩
      · exact absurd hpos (lt_irrefl 0)
  unfold Asked Needs.Nobody
  rw [hleases, hgets]
  constructor
  · rintro (⟨l, hl⟩ | ⟨w, hw⟩ | ⟨w, hw⟩) hnobody
    · exact hnobody.1 l hl
    · exact absurd (hnobody.2.1 w) (Nat.pos_iff_ne_zero.mp hw)
    · exact hnobody.2.2 w hw
  · intro hneeded
    by_contra hnone
    push Not at hnone
    exact hneeded ⟨hnone.1, fun w => Nat.le_zero.mp (hnone.2.1 w), hnone.2.2⟩

/-- What the manager promises in a state, after the events that were put out. -/
structure Accounted (m : LeaseDependencyManager O W L K) (out : List (Event L)) : Prop where
  /-- The number of missing objects of a lease is that of its distinct dependencies that are not
local. -/
  numMissing : ∀ lease e, m.queuedLeaseRequests.get? lease = some e → e.dependencies.Nodup ∧
    e.numMissingDependencies = ((e.dependencies.filter (· ∉ m.localObjects)).length : ℤ)
  /-- The next object that becomes local gives exactly the leases that become ready. -/
  becomeReady : ∀ object, object ∉ m.localObjects →
    ∃ m' ev ready, m.handleObjectLocal object = .ok (m', ev ++ [.readyLeases ready]) ∧ ready.Nodup ∧
      ∀ l, l ∈ ready ↔ ¬ m.Ready l ∧ m'.Ready l
  /-- The next object that becomes missing gives exactly the leases that stop being ready. -/
  stopReady : ∀ object, object ∈ m.localObjects →
    ∃ m' waiting, m.handleObjectMissing object = .ok (m', [.waitingLeases waiting]) ∧ waiting.Nodup ∧
      ∀ l, l ∈ waiting ↔ m.Ready l ∧ ¬ m'.Ready l
  /-- The required objects are those that something asks for. -/
  required_iff : ∀ object, (m.requiredObjects.get? object).isSome ↔ Asked m.demand object
  /-- Their entries list who needs them. -/
  describes : ∀ object d, m.requiredObjects.get? object = some d → Describes d (m.needs object)
  /-- A pull is issued once, and cancelled at most once. -/
  pulls_nodup : (pullIds out).Nodup
  cancels_nodup : (cancelIds out).Nodup
  pulled_of_cancelled : ∀ id ∈ cancelIds out, id ∈ pullIds out
  /-- When nothing is asked for any more, all are cancelled. -/
  cancelled_of_pulled : (∀ lease, m.demand.leases lease = none) →
    (∀ worker requestId, m.demand.gets worker requestId = none) →
    (∀ worker object, ¬ m.demand.waits worker object) →
    ∀ id ∈ pullIds out, id ∈ cancelIds out

theorem Inv.accounted (h : Inv m out) : Accounted m out where
  numMissing := h.leases
  becomeReady object hobject := by
    obtain ⟨m', ev, ready, hrun, -, -, hnodup, hready⟩ := handleObjectLocal_inv h hobject
    exact ⟨m', ev, ready, hrun, hnodup, hready⟩
  stopReady object hobject := by
    obtain ⟨m', waiting, hrun, -, -, hnodup, hwaiting⟩ := handleObjectMissing_inv h hobject
    exact ⟨m', waiting, hrun, hnodup, hwaiting⟩
  required_iff object := by
    rw [asked_iff_needed]
    have hobject := h.good.tracks object
    cases hget : m.requiredObjects.get? object with
    | none =>
      rw [hget] at hobject
      exact iff_of_false nofun (not_not_intro hobject)
    | some d =>
      rw [hget] at hobject
      exact iff_of_true rfl hobject.2
  describes object d hget := by
    have hobject := h.good.tracks object
    rw [hget] at hobject
    exact hobject.1
  pulls_nodup := by
    rw [h.good.pulls.pulled]
    exact List.nodup_range'
  cancels_nodup := h.good.pulls.cancels_nodup
  pulled_of_cancelled id hid := by
    have := h.good.pulls.cancels_lt id hid
    rw [h.good.pulls.pulled, List.mem_range'_1]
    omega
  cancelled_of_pulled hleases hgets hwaits id hid := by
    refine h.good.pulls.mem_cancelIds_of_no_holder (fun holder id hholds => ?_) hid
    cases holder with
    | lease l =>
      obtain ⟨-, e, he, -⟩ : 0 < id ∧ ∃ e, m.queuedLeaseRequests.get? l = some e ∧
        e.pullRequestId = id := hholds
      have hnone := Option.map_eq_none_iff.mp (hleases l)
      rw [he] at hnone
      cases hnone
    | get w r =>
      obtain ⟨g, hg, -⟩ : ∃ g, m.getRequests.get? (w, r) = some g ∧ g.2 = id := hholds
      have hnone := Option.map_eq_none_iff.mp (hgets w r)
      rw [hg] at hnone
      cases hnone
    | wait o =>
      obtain ⟨-, d, hd, -⟩ : 0 < id ∧ ∃ d, m.requiredObjects.get? o = some d ∧
        d.waitRequestId = id := hholds
      have hobject := h.good.tracks o
      rw [hd] at hobject
      rcases (asked_iff_needed m o).mpr hobject.2 with ⟨l, deps, hl, -⟩ | ⟨w, r, objects, hw,
        -⟩ | ⟨w, hw⟩
      · rw [hleases l] at hl
        cases hl
      · rw [hgets w r] at hw
        cases hw
      · exact hwaits w o hw

/-- In every run of allowed operations no check fails, what is asked for is what the operations
mean, and the bookkeeping is right at its end, which is every moment of a longer run. -/
theorem run_accounted (ops : List (Op O W L K)) (hallowed : AllowedRun Demand.init ops) :
    ∃ m out, runSteps step (init : LeaseDependencyManager O W L K) ops = .ok (m, out) ∧
      m.demand = ops.foldl Demand.apply Demand.init ∧ Accounted m out := by
  rw [← demand_init (K := K)] at hallowed ⊢
  obtain ⟨m, out, hrun, hinv, hdemand⟩ := run_inv ops inv_init hallowed
  exact ⟨m, out, hrun, hdemand, hinv.accounted⟩

/-- A run with a lease, a get and a wait request on one object that comes and goes. -/
theorem run_accounted_example :
    let ops : List (Op ℕ ℕ ℕ ℕ) :=
      [.requestLeaseDependencies 1 [7, 7, 8] 0, .startGetRequest 1 [7, 7] 5,
      .startOrUpdateWaitRequest 1 [7], .handleObjectLocal 7, .handleObjectMissing 7,
      .cancelGetRequest 1 5,
      .removeLeaseDependencies 1]
    ∃ m out, runSteps step (init : LeaseDependencyManager ℕ ℕ ℕ ℕ) ops = .ok (m, out) ∧
      m.demand = ops.foldl Demand.apply Demand.init ∧ Accounted m out :=
  run_accounted _ (by simp [AllowedRun, Demand.Allowed, Demand.apply, Demand.init, Demand.wait])

end runs

end LeaseDependencyManager
end RayTfm.Raylet
