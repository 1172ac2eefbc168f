import RayTfm.Raylet.BundleSchedulingSound

/-! # The four bundle policies

Each policy keeps an invariant while it runs: for packing, that the requests which are left are
those without a node (`Packing`); for spreading, that the nodes chosen so far belong to the first
requests.  From these come the results on whole schedules: `schedule_ok` says what every policy
returns, whatever its status. -/

namespace RayTfm.Raylet

variable {N : Type} [DecidableEq N] {manager manager' : ClusterResourceManager N}
    {used : N → ResourceID → ℤ}
  {request : ResourceRequest} {candidateNodes : List N}

open ClusterResourceManager

/-! ### What a schedule returns -/

/-- The outcome of a schedule: the view is what it was, and a success is a placement. -/
def Scheduled (manager : ClusterResourceManager N) (candidateNodes : List N)
    (requests : List ResourceRequest)
    (outcome : SchedulingResult N × ClusterResourceManager N) : Prop :=
  SameView manager outcome.2 ∧
    (outcome.1.status = .success → Placement manager candidateNodes requests outcome.1.selectedNodes)

theorem scheduled_infeasible (requests : List ResourceRequest) :
    Scheduled manager candidateNodes requests (.infeasible, manager) :=
  ⟨SameView.refl manager, nofun⟩

variable {requests : List ResourceRequest}

theorem valid_of_sorted (hrequests : ∀ q ∈ requests, q.Valid) (sort : StdSort ℕ)
    (ids : StringIdMap) : ∀ q ∈ (sortRequiredResources sort ids requests).2, q.Valid := by
  intro q hq
  rw [sortRequiredResources_snd] at hq
  obtain ⟨i, hi, rfl⟩ := List.mem_map.mp hq
  have hi : i < requests.length :=
    List.mem_range.mp ((sortRequiredResources_perm ids sort requests).mem_iff.mp hi)
  rw [requestAt, List.getD_eq_getElem _ _ hi]
  exact hrequests _ (List.getElem_mem hi)

/-! ### PACK -/

section pack

/-- While packing: the requests that are left are those without a node. -/
structure Packing (manager : ClusterResourceManager N) (candidateNodes : List N)
    (requests : List ResourceRequest)
    (manager' : ClusterResourceManager N) (resultNodes : List (Option N))
    (left : List (ℕ × ResourceRequest)) :
    Prop where
  length : resultNodes.length = requests.length
  deducted : Deducted manager (assigned (resultNodes.zip requests)) manager'
  placed : Placed manager candidateNodes (resultNodes.zip requests)
  nodup : (left.map Prod.fst).Nodup
  left_iff : ∀ (i : ℕ) (request : ResourceRequest),
    (i, request) ∈ left ↔ resultNodes[i]? = some none ∧ requests[i]? = some request

variable {requests : List ResourceRequest} {resultNodes : List (Option N)}

theorem Packing.init (h : manager.Valid) : Packing manager candidateNodes requests manager
    (List.replicate requests.length none) ((List.range requests.length).zip requests) where
  length := List.length_replicate
  deducted := by
    have hzero : assigned ((List.replicate requests.length (none : Option N)).zip requests) =
      fun _ _ => 0 := by
      funext n r
      apply List.sum_eq_zero
      intro x hx
      obtain ⟨e, he, rfl⟩ := List.mem_map.mp hx
      rw [(List.mem_replicate.mp (List.of_mem_zip he).1).2, if_neg nofun]
    rw [hzero]
    exact Deducted.refl h
  placed e he n hn := by
    rw [(List.mem_replicate.mp (List.of_mem_zip he).1).2] at hn
    cases hn
  nodup := by
    rw [List.map_fst_zip (le_of_eq List.length_range)]
    exact List.nodup_range
  left_iff i q := by
    rw [List.getElem?_replicate]
    constructor
    · intro h
      obtain ⟨k, hk⟩ := List.getElem?_of_mem h
      obtain ⟨hki, hkq⟩ := List.getElem?_zip_eq_some.mp hk
      have hlt : k < requests.length := (List.getElem?_eq_some_iff.mp hkq).1
      rw [List.getElem?_range hlt] at hki
      cases hki
      exact ⟨by rw [if_pos hlt], hkq⟩
    · rintro ⟨-, hq⟩
      have hlt : i < requests.length := (List.getElem?_eq_some_iff.mp hq).1
      exact List.mem_of_getElem? (List.getElem?_zip_eq_some.mpr ⟨List.getElem?_range hlt, hq⟩)

omit [DecidableEq N] in
theorem exists_append_of_getElem? {A : Type} {l : List A} {i : ℕ} {a : A} (h : l[i]? = some a) :
    ∃ l₁ l₂, l = l₁ ++ a :: l₂ ∧ l₁.length = i := by
  obtain ⟨hi, rfl⟩ := List.getElem?_eq_some_iff.mp h
  refine ⟨l.take i, l.drop (i + 1), ?_, List.length_take_of_le (le_of_lt hi)⟩
  rw [← List.drop_eq_getElem_cons hi, List.take_append_drop]

variable {left : List (ℕ × ResourceRequest)}
variable {kept : List (ℕ × ResourceRequest)} {nodeId : N}

theorem Packing.assign {i : ℕ}
    (h : Packing manager candidateNodes requests manager' resultNodes (kept ++ (i, request) :: left))
    (hrequest : request.Valid) (hcandidate : nodeId ∈ candidateNodes)
    (havailable : Available manager (assigned (resultNodes.zip requests)) request nodeId) :
    ∃ manager'', takeResources manager' nodeId request = .ok manager'' ∧
      Packing manager candidateNodes requests manager'' (resultNodes.set i (some nodeId))
        (kept ++ left) := by
  obtain ⟨manager'', htake, hdeducted⟩ := takeResources_ok h.deducted hrequest havailable
  obtain ⟨hi, hq⟩ := (h.left_iff i request).mp (by simp)
  have hiq : i < requests.length := (List.getElem?_eq_some_iff.mp hq).1
  have hir : i < resultNodes.length := h.length ▸ hiq
  -- the pair at the index and what is around it
  obtain ⟨r₁, r₂, hr, hr₁⟩ := exists_append_of_getElem? hi
  obtain ⟨q₁, q₂, hq', hq₁⟩ := exists_append_of_getElem? hq
  have hl : resultNodes.zip requests = r₁.zip q₁ ++ (none, request) :: r₂.zip q₂ := by
    rw [hr, hq', List.zip_append (hr₁.trans hq₁.symm), List.zip_cons_cons]
  have hset' : (resultNodes.set i (some nodeId)).zip requests =
      r₁.zip q₁ ++ (some nodeId, request) :: r₂.zip q₂ := by
    have hsplit : resultNodes.set i (some nodeId) = r₁ ++ some nodeId :: r₂ := by
      rw [hr, List.set_append_right _ _ (le_of_eq hr₁), hr₁, Nat.sub_self, List.set_cons_zero]
    rw [hsplit, hq', List.zip_append (hr₁.trans hq₁.symm), List.zip_cons_cons]
  have hassigned : assigned ((resultNodes.set i (some nodeId)).zip requests) =
      addUsed (assigned (resultNodes.zip requests)) nodeId request.get := by
    rw [hset', hl, assigned_perm List.perm_middle, assigned_cons_some,
      assigned_perm List.perm_middle, assigned_cons_none]
  have hnodup : i ∉ (kept ++ left).map Prod.fst ∧ ((kept ++ left).map Prod.fst).Nodup := by
    have hperm : ((kept ++ (i, request) :: left).map Prod.fst).Perm
      (i :: (kept ++ left).map Prod.fst) :=
      List.perm_middle.map Prod.fst
    exact List.nodup_cons.mp (hperm.nodup_iff.mp h.nodup)
  refine ⟨manager'', htake, by rw [List.length_set, h.length], by rwa [hassigned], ?_, hnodup.2,
    fun j q => ?_⟩
  · intro e he
    rw [hset'] at he
    have hold : ∀ e ∈ r₁.zip q₁ ++ r₂.zip q₂, e ∈ resultNodes.zip requests := by
      intro e he
      rw [hl]
      obtain he | he := List.mem_append.mp he
      · exact List.mem_append_left _ he
      · exact List.mem_append_right _ (.tail _ he)
    obtain he | he := List.mem_cons.mp (List.perm_middle.mem_iff.mp he)
    · exact Placed.single hcandidate havailable e (by rw [he]; exact List.mem_singleton_self _)
    · exact h.placed e (hold e he)
  · by_cases hj : j = i
    · subst hj
      rw [List.getElem?_set_self hir]
      refine ⟨fun hmem => absurd (List.mem_map_of_mem (f := Prod.fst) hmem) hnodup.1, ?_⟩
      rintro ⟨hsome, -⟩
      cases hsome
    · rw [List.getElem?_set_ne (Ne.symm hj), ← h.left_iff, List.mem_append, List.mem_append,
        List.mem_cons]
      constructor
      · rintro (hmem | hmem)
        · exact .inl hmem
        · exact .inr (.inr hmem)
      · rintro (hmem | hmem | hmem)
        · exact .inl hmem
        · exact absurd (Prod.mk.inj hmem).1 hj
        · exact .inr hmem

theorem hasAvailableResources_ok (h : Deducted manager used manager') (hrequest : request.Valid)
    (hnode : (manager.nodes.get? nodeId).isSome) :
    ∃ b, manager'.hasAvailableResources nodeId request false = .ok b ∧
      (b = true → Available manager used request nodeId) := by
  obtain ⟨node, hnode⟩ := Option.isSome_iff_exists.mp hnode
  obtain ⟨available, hget, havailable⟩ := h.node nodeId node hnode
  have hnonneg : ∀ r, 0 ≤ available.get r := by
    intro r
    obtain ⟨heq, hle⟩ := havailable r
    omega
  obtain ⟨b, hb, hmatch⟩ := NodeResources.isAvailable_ok { node with available := available } hrequest
    hnonneg false
  refine ⟨b, ?_, fun htrue => ⟨node, hnode, (hmatch htrue).1, fun r => ?_⟩⟩
  · unfold hasAvailableResources
    rw [hget]
    exact hb
  · have hle : request.get r ≤ available.get r := (hmatch htrue).2 r
    obtain ⟨heq, -⟩ := havailable r
    omega

theorem packOnNode_ok (hcandidate : nodeId ∈ candidateNodes)
    (hnode : (manager.nodes.get? nodeId).isSome) (hrequests : ∀ q ∈ requests, q.Valid)
    (h : Packing manager candidateNodes requests manager' resultNodes (kept ++ left)) :
    ∃ manager'' resultNodes' left', packOnNode nodeId left manager' resultNodes =
      .ok (manager'', resultNodes', left') ∧
      Packing manager candidateNodes requests manager'' resultNodes' (kept ++ left') := by
  induction left generalizing manager' resultNodes kept with
  | nil => exact ⟨manager', resultNodes, [], rfl, h⟩
  | cons entry left ih =>
    obtain ⟨i, request⟩ := entry
    have hrequest : request.Valid :=
      hrequests request (List.mem_of_getElem? ((h.left_iff i request).mp (by simp)).2)
    obtain ⟨b, hb, havailable⟩ := hasAvailableResources_ok h.deducted hrequest hnode
    rw [packOnNode, hb, ok_bind]
    cases b with
    | true =>
      obtain ⟨manager₁, htake, h₁⟩ := h.assign hrequest hcandidate (havailable rfl)
      obtain ⟨manager₂, result₂, left₂, hrun, h₂⟩ := ih h₁
      refine ⟨manager₂, result₂, left₂, ?_, h₂⟩
      rw [if_pos rfl, htake, ok_bind, hrun]
    | false =>
      rw [← List.singleton_append, ← List.append_assoc] at h
      obtain ⟨manager₂, result₂, left₂, hrun, h₂⟩ := ih h
      refine ⟨manager₂, result₂, (i, request) :: left₂, ?_, ?_⟩
      · rw [if_neg Bool.false_ne_true, hrun]
        rfl
      · rwa [← List.singleton_append, ← List.append_assoc]

theorem packLoop_ok {nodes : List N}
    (hnodes : ∀ n ∈ nodes, n ∈ candidateNodes ∧ (manager.nodes.get? n).isSome)
    (hrequests : ∀ q ∈ requests, q.Valid)
    (h : Packing manager candidateNodes requests manager' resultNodes left) :
    ∃ manager'' resultNodes' left', packLoop manager' nodes resultNodes left =
      .ok (manager'', resultNodes', left') ∧
      Packing manager candidateNodes requests manager'' resultNodes' left' := by
  induction hlength : left.length using Nat.strong_induction_on generalizing manager' nodes
    resultNodes left with
  | h k ih =>
    cases left with
    | nil =>
      refine ⟨manager', resultNodes, [], ?_, h⟩
      rw [packLoop]
    | cons entry left =>
      obtain ⟨i, request⟩ := entry
      have hrequest : request.Valid :=
        hrequests request (List.mem_of_getElem? ((h.left_iff i request).mp (by simp)).2)
      obtain ⟨best, hbest, hchosen⟩ := getBestNode_ok h.deducted hrequest (fun n hn => (hnodes n hn).2)
      rw [packLoop, hbest]
      cases best with
      | none => exact ⟨manager', resultNodes, (i, request) :: left, rfl, h⟩
      | some bestNodeId =>
        obtain ⟨hmem, havailable⟩ := hchosen bestNodeId rfl
        obtain ⟨hcandidate, hnode⟩ := hnodes bestNodeId hmem
        have h₀ : Packing manager candidateNodes requests manager' resultNodes
          ([] ++ (i, request) :: left) := h
        obtain ⟨manager₁, htake, h₁⟩ := h₀.assign hrequest hcandidate havailable
        obtain ⟨manager₂, result₂, left₂, hmore, h₂⟩ := packOnNode_ok hcandidate hnode hrequests h₁
        have hshorter : left₂.length < k := by
          have := packOnNode_length hmore
          rw [← hlength, List.length_cons]
          omega
        have hsome : ∀ n ∈ nodes.filter (· ≠ bestNodeId), n ∈ candidateNodes ∧
          (manager.nodes.get? n).isSome :=
          fun n hn => hnodes n (List.mem_of_mem_filter hn)
        obtain ⟨manager₃, result₃, left₃, hrun, h₃⟩ := ih left₂.length hshorter hsome h₂ rfl
        refine ⟨manager₃, result₃, left₃, ?_, h₃⟩
        simp only [htake]
        split
        next herror =>
          rw [hmore] at herror
          cases herror
        next hok =>
          rw [hmore] at hok
          cases hok
          exact hrun

end pack

/-! ### Whole schedules -/

variable {resultNodes : List (Option N)}

theorem sorted_placement {sort : StdSort ℕ} {ids : StringIdMap}
    (h : Placement manager candidateNodes (sortRequiredResources sort ids requests).2 resultNodes) :
    Placement manager candidateNodes requests
        (sortSchedulingResult resultNodes (sortRequiredResources sort ids requests).1).selectedNodes ∧
      (sortSchedulingResult resultNodes
        (sortRequiredResources sort ids requests).1).selectedNodes.Perm resultNodes :=
  Placement.sortBack h (sortRequiredResources_perm ids sort requests)

theorem placed_nodes
    (hplaced : Placed manager candidateNodes (resultNodes.zip requests))
    (hrequests : ∀ q ∈ requests, q.Valid) :
    ∀ e ∈ resultNodes.zip requests, e.2.Valid ∧ ∀ n, e.1 = some n → (manager.nodes.get? n).isSome := by
  intro e he
  refine ⟨hrequests _ (List.of_mem_zip he).2, fun n hn => ?_⟩
  obtain ⟨-, node, hnode, -⟩ := hplaced e he n hn
  rw [hnode]
  rfl

theorem schedulePack_ok (hmanager : manager.Valid)
    (hnodes : ∀ n ∈ candidateNodes, (manager.nodes.get? n).isSome) (hne : requests ≠ [])
    (hrequests : ∀ q ∈ requests, q.Valid) (sort : StdSort ℕ) (ids : StringIdMap) :
    ∃ outcome, schedulePack sort ids manager requests candidateNodes = .ok outcome ∧
      Scheduled manager candidateNodes requests outcome := by
  have hvalid := valid_of_sorted hrequests sort ids
  unfold schedulePack
  rw [List.isEmpty_eq_false_iff.mpr hne, Bool.not_false, rayCheck_true, ok_bind]
  split_ifs
  · exact ⟨_, rfl, scheduled_infeasible requests⟩
  obtain ⟨b, hb⟩ := isRequestFeasible_ok manager candidateNodes hvalid
  have hcandidates : ∀ n ∈ candidateNodes, n ∈ candidateNodes ∧ (manager.nodes.get? n).isSome :=
    fun n hn => ⟨hn, hnodes n hn⟩
  obtain ⟨packed, resultNodes, left, hrun, hpacking⟩ :=
    packLoop_ok hcandidates hvalid (Packing.init hmanager)
  obtain ⟨released, hrelease, hsame⟩ :=
    releaseAll_ok hmanager (placed_nodes hpacking.placed hvalid) hpacking.deducted
  have hreleaseAll : releaseAll packed resultNodes (sortRequiredResources sort ids requests).2 =
    .ok released := hrelease
  simp only [hb, ok_bind]
  cases b with
  | false => exact ⟨_, rfl, scheduled_infeasible requests⟩
  | true =>
    simp only [Bool.not_true, Bool.false_eq_true, if_false, hrun, ok_bind, hreleaseAll]
    cases left with
    | cons e left => exact ⟨_, rfl, hsame, nofun⟩
    | nil =>
      refine ⟨_, rfl, hsame, fun _ => (sorted_placement ?_).1⟩
      refine hpacking.placed.placement hpacking.length (fun i hi => ?_) hpacking.deducted
      have hlt : i < (sortRequiredResources sort ids requests).2.length :=
        hpacking.length ▸ (List.getElem?_eq_some_iff.mp hi).1
      have := (hpacking.left_iff i _).mpr ⟨hi, List.getElem?_eq_getElem hlt⟩
      cases this

/-! ### SPREAD -/

section spread
variable {done : List (Option N × ResourceRequest)}

theorem place_next (h : Deducted manager (assigned done) manager')
    (hplaced : Placed manager candidateNodes done)
    (hrequest : request.Valid) {nodeId : N} (hcandidate : nodeId ∈ candidateNodes)
    (havailable : Available manager (assigned done) request nodeId) :
    ∃ manager'', takeResources manager' nodeId request = .ok manager'' ∧
      Deducted manager (assigned (done ++ [(some nodeId, request)])) manager'' ∧
      Placed manager candidateNodes (done ++ [(some nodeId, request)]) := by
  obtain ⟨manager'', htake, hdeducted⟩ := takeResources_ok h hrequest havailable
  refine ⟨manager'', htake, ?_, hplaced.append (Placed.single hcandidate havailable)⟩
  rwa [assigned_perm (List.perm_append_singleton _ _), assigned_cons_some]

/-- The loop of SPREAD chooses nodes for the first requests, and for all of them if there is always
one. -/
theorem spreadLoop_ok {requests : List ResourceRequest} (hrequests : ∀ q ∈ requests, q.Valid)
    {nodes selected : List N}
    (hnodes : ∀ n ∈ nodes, n ∈ candidateNodes ∧ (manager.nodes.get? n).isSome)
    (hselected : ∀ n ∈ selected, n ∈ candidateNodes ∧ (manager.nodes.get? n).isSome)
    (h : Deducted manager (assigned done) manager') (hplaced : Placed manager candidateNodes done)
    (hsome : ∀ e ∈ done, e.1 ≠ none) :
    ∃ manager'' chosen, spreadLoop requests manager' nodes selected (done.map Prod.fst) =
        .ok (manager'', chosen.map Prod.fst) ∧
        (∃ rest, chosen.map Prod.snd ++ rest = done.map Prod.snd ++ requests) ∧
      Deducted manager (assigned chosen) manager'' ∧ Placed manager candidateNodes chosen ∧
      ∀ e ∈ chosen, e.1 ≠ none := by
  induction requests generalizing manager' nodes selected done with
  | nil => exact ⟨manager', done, rfl, ⟨[], rfl⟩, h, hplaced, hsome⟩
  | cons request requests ih =>
    obtain ⟨hrequest, hrest⟩ := List.forall_mem_cons.mp hrequests
    have hsome' : ∀ nodeId : N, ∀ e ∈ done ++ [(some nodeId, request)], e.1 ≠ none := by
      intro nodeId e he
      obtain he | he := List.mem_append.mp he
      · exact hsome e he
      · rw [List.mem_singleton.mp he]
        exact nofun
    have hnext : ∀ (nodeId : N) (chosen : List (Option N × ResourceRequest))
      (rest : List ResourceRequest),
        chosen.map Prod.snd ++ rest = (done ++ [(some nodeId, request)]).map Prod.snd ++ requests →
          chosen.map Prod.snd ++ rest = done.map Prod.snd ++ request :: requests := by
      intro nodeId chosen rest heq
      rw [heq, List.map_append, List.append_assoc]
      rfl
    have hmap : ∀ nodeId : N, (done ++ [(some nodeId, request)]).map Prod.fst = done.map Prod.fst ++
      [some nodeId] :=
      fun nodeId => List.map_append
    obtain ⟨best, hbest, hchosen⟩ := getBestNode_ok h hrequest (fun n hn => (hnodes n hn).2)
    rw [spreadLoop, hbest, ok_bind]
    cases best with
    | some bestNodeId =>
      obtain ⟨hmem, havailable⟩ := hchosen bestNodeId rfl
      obtain ⟨manager₁, htake, h₁, hplaced₁⟩ :=
        place_next h hplaced hrequest (hnodes bestNodeId hmem).1 havailable
      have hselected' : ∀ n ∈ selected ++ [bestNodeId], n ∈ candidateNodes ∧
        (manager.nodes.get? n).isSome := by
        intro n hn
        obtain hn | hn := List.mem_append.mp hn
        · exact hselected n hn
        · rw [List.mem_singleton.mp hn]
          exact hnodes bestNodeId hmem
      have hnodes' : ∀ n ∈ nodes.filter (· ≠ bestNodeId), n ∈ candidateNodes ∧
        (manager.nodes.get? n).isSome :=
        fun n hn => hnodes n (List.mem_of_mem_filter hn)
      obtain ⟨manager₂, chosen, hrun, ⟨rest, hfront⟩, hout⟩ :=
        ih hrest hnodes' hselected' h₁ hplaced₁ (hsome' bestNodeId)
      rw [hmap] at hrun
      refine ⟨manager₂, chosen, ?_, ⟨rest, hnext bestNodeId chosen rest hfront⟩, hout⟩
      rw [← hrun]
      show (takeResources manager' bestNodeId request >>= _) = _
      rw [htake, ok_bind]
    | none =>
      obtain ⟨best', hbest', hchosen'⟩ := getBestNode_ok h hrequest (fun n hn => (hselected n hn).2)
      rw [hbest', ok_bind]
      cases best' with
      | none => exact ⟨manager', done, rfl, ⟨request :: requests, rfl⟩, h, hplaced, hsome⟩
      | some bestNodeId =>
        obtain ⟨hmem, havailable⟩ := hchosen' bestNodeId rfl
        obtain ⟨manager₁, htake, h₁, hplaced₁⟩ :=
          place_next h hplaced hrequest (hselected bestNodeId hmem).1 havailable
        obtain ⟨manager₂, chosen, hrun, ⟨rest, hfront⟩, hout⟩ :=
          ih hrest hnodes hselected h₁ hplaced₁ (hsome' bestNodeId)
        rw [hmap] at hrun
        refine ⟨manager₂, chosen, ?_, ⟨rest, hnext bestNodeId chosen rest hfront⟩, hout⟩
        rw [← hrun]
        show (takeResources manager' bestNodeId request >>= _) = _
        rw [htake, ok_bind]

end spread

variable {chosen : List (Option N × ResourceRequest)}

omit [DecidableEq N] in
theorem zip_of_prefix {rest : List ResourceRequest}
    (h : chosen.map Prod.snd ++ rest = requests) : (chosen.map Prod.fst).zip requests = chosen := by
  subst h
  induction chosen with
  | nil => rfl
  | cons e chosen ih =>
    rw [List.map_cons, List.map_cons, List.cons_append, List.zip_cons_cons, ih]

omit [DecidableEq N] in
theorem getElem?_ne_none (h : ∀ e ∈ chosen, e.1 ≠ none) (i : ℕ) :
    (chosen.map Prod.fst)[i]? ≠ some none := by
  intro hi
  rw [List.getElem?_map, Option.map_eq_some_iff] at hi
  obtain ⟨e, he, hnone⟩ := hi
  exact h e (List.mem_of_getElem? he) hnone

theorem scheduleSpread_ok (hmanager : manager.Valid)
    (hnodes : ∀ n ∈ candidateNodes, (manager.nodes.get? n).isSome) (hne : requests ≠ [])
    (hrequests : ∀ q ∈ requests, q.Valid) (sort : StdSort ℕ) (ids : StringIdMap) :
    ∃ outcome, scheduleSpread sort ids manager requests candidateNodes = .ok outcome ∧
      Scheduled manager candidateNodes requests outcome := by
  have hvalid := valid_of_sorted hrequests sort ids
  unfold scheduleSpread
  rw [List.isEmpty_eq_false_iff.mpr hne, Bool.not_false, rayCheck_true, ok_bind]
  split_ifs
  · exact ⟨_, rfl, scheduled_infeasible requests⟩
  obtain ⟨b, hb⟩ := isRequestFeasible_ok manager candidateNodes hvalid
  have hcandidates : ∀ n ∈ candidateNodes, n ∈ candidateNodes ∧ (manager.nodes.get? n).isSome :=
    fun n hn => ⟨hn, hnodes n hn⟩
  have hselected : ∀ n ∈ ([] : List N), n ∈ candidateNodes ∧ (manager.nodes.get? n).isSome := nofun
  have hdeducted₀ : Deducted manager (assigned []) manager := Deducted.refl hmanager
  obtain ⟨spread, chosen, hrun, ⟨rest, hfront⟩, hdeducted, hplaced, hsome⟩ :=
    spreadLoop_ok hvalid hcandidates hselected hdeducted₀ nofun nofun
  have hzip := zip_of_prefix (hfront.trans (List.nil_append _))
  rw [← hzip] at hdeducted hplaced
  obtain ⟨released, hrelease, hsame⟩ := releaseAll_ok hmanager (placed_nodes hplaced hvalid) hdeducted
  have hreleaseAll : releaseAll spread (chosen.map Prod.fst)
    (sortRequiredResources sort ids requests).2 =
    .ok released := hrelease
  simp only [List.map_nil] at hrun
  simp only [hb, ok_bind]
  cases b with
  | false => exact ⟨_, rfl, scheduled_infeasible requests⟩
  | true =>
    simp only [Bool.not_true, Bool.false_eq_true, if_false, hrun, ok_bind, hreleaseAll]
    split_ifs with hlength
    · exact ⟨_, rfl, hsame, nofun⟩
    · refine ⟨_, rfl, hsame, fun _ => (sorted_placement ?_).1⟩
      exact hplaced.placement (not_not.mp hlength) (getElem?_ne_none hsome) hdeducted

/-! ### STRICT_PACK -/

section strictPack
variable {requests : List ResourceRequest}

theorem get_aggregateResources (aggregated : ResourceSet) (request : ResourceRequest) (r : ResourceID) :
    (aggregateResources aggregated request).get r = aggregated.get r + request.get r := by
  have hloop : ∀ (l : List ResourceID) (aggregated : ResourceSet), l.Nodup →
      (l.foldl (fun aggregated resourceId =>
        aggregated.set resourceId (aggregated.get resourceId + request.get resourceId))
          aggregated).get r =
          aggregated.get r + if r ∈ l then request.get r else 0 := by
    intro l
    induction l with
    | nil => exact fun aggregated _ => (add_zero _).symm
    | cons k l ih =>
      intro aggregated hl
      rw [List.nodup_cons] at hl
      rw [List.foldl_cons, ih _ hl.2, DefaultMap.get_set]
      by_cases hr : r = k
      · subst hr
        rw [if_pos rfl, if_neg hl.1, if_pos List.mem_cons_self, add_zero]
      · rw [if_neg hr]
        simp [hr]
  refine (hloop request.resources.resourceIds aggregated request.resources.entries.keys_nodup).trans ?_
  split_ifs with hmem
  · rfl
  · have hzero : request.get r = 0 := not_not.mp fun h => hmem (DefaultMap.mem_keys_iff.mpr h)
    rw [hzero]

theorem mem_foldl_addConstraint {l l' : List LabelConstraint} {c : LabelConstraint} :
    c ∈ l'.foldl addConstraint l ↔ c ∈ l ∨ c ∈ l' := by
  induction l' generalizing l with
  | nil => simp
  | cons c' l' ih =>
    rw [List.foldl_cons, ih, mem_addConstraint, List.mem_cons, or_assoc]

/-- The aggregated request demands the sums, under all constraints. -/
theorem aggregateRequests_spec (requests : List ResourceRequest) :
    (∀ r, (aggregateRequests requests).get r = (requests.map (fun q => q.get r)).sum) ∧
      ∀ c, c ∈ (aggregateRequests requests).labelSelector ↔ ∃ q ∈ requests, c ∈ q.labelSelector := by
  have hloop : ∀ (l : List ResourceRequest) (aggregated : ResourceRequest),
      (∀ r, (l.foldl (fun aggregated request =>
        { aggregated with
          resources := aggregateResources aggregated.resources request
          labelSelector := request.labelSelector.foldl addConstraint aggregated.labelSelector })
            aggregated).get r =
            aggregated.get r + (l.map (fun q => q.get r)).sum) ∧
        ∀ c, c ∈ (l.foldl (fun aggregated request =>
        { aggregated with
          resources := aggregateResources aggregated.resources request
          labelSelector := request.labelSelector.foldl addConstraint aggregated.labelSelector })
            aggregated).labelSelector ↔ c ∈ aggregated.labelSelector ∨ ∃ q ∈ l,
              c ∈ q.labelSelector := by
    intro l
    induction l with
    | nil => exact fun aggregated => ⟨fun r => (add_zero _).symm, fun c => by simp⟩
    | cons q l ih =>
      intro aggregated
      rw [List.foldl_cons]
      obtain ⟨hget, hmem⟩ := ih
        { aggregated with
          resources := aggregateResources aggregated.resources q
          labelSelector := q.labelSelector.foldl addConstraint aggregated.labelSelector }
      refine ⟨fun r => ?_, fun c => ?_⟩
      · rw [hget, List.map_cons, List.sum_cons, ← add_assoc]
        congr 1
        exact get_aggregateResources _ _ _
      · rw [hmem, mem_foldl_addConstraint, List.exists_mem_cons_iff, or_assoc]
  obtain ⟨hget, hmem⟩ := hloop requests ⟨DefaultMap.empty, false, []⟩
  refine ⟨fun r => ?_, fun c => ?_⟩
  · rw [aggregateRequests, hget]
    exact zero_add _
  · rw [aggregateRequests, hmem]
    simp

theorem aggregateRequests_valid (hrequests : ∀ q ∈ requests, q.Valid) :
    (aggregateRequests requests).Valid where
  nonneg r := by
    rw [(aggregateRequests_spec requests).1]
    apply List.sum_nonneg
    intro x hx
    obtain ⟨q, hq, rfl⟩ := List.mem_map.mp hx
    exact (hrequests q hq).nonneg r
  specified c hc := by
    obtain ⟨q, hq, hcq⟩ := ((aggregateRequests_spec requests).2 c).mp hc
    exact (hrequests q hq).specified c hcq

theorem feasibleNodes_ok (manager : ClusterResourceManager N) (hrequest : request.Valid)
    (nodes : List N) :
    ∃ left, feasibleNodes manager request nodes = .ok left ∧ ∀ n ∈ left, n ∈ nodes := by
  induction nodes with
  | nil => exact ⟨[], rfl, nofun⟩
  | cons n nodes ih =>
    obtain ⟨b, hb⟩ := hasFeasibleResources_ok manager hrequest n
    obtain ⟨left, hleft, hmem⟩ := ih
    rw [feasibleNodes, hb, ok_bind, hleft, ok_bind]
    cases b with
    | false => exact ⟨left, rfl, fun x hx => .tail _ (hmem x hx)⟩
    | true =>
      refine ⟨n :: left, rfl, fun x hx => ?_⟩
      obtain rfl | hx := List.mem_cons.mp hx
      · exact .head _
      · exact .tail _ (hmem x hx)

theorem bestPackNode_ok (hmanager : manager.Valid)
    (hnodes : ∀ n ∈ candidateNodes, (manager.nodes.get? n).isSome)
    (hrequest : request.Valid) (softTarget : Option N) :
    ∃ best, bestPackNode manager request softTarget candidateNodes = .ok best ∧
      ∀ n, best = some n → n ∈ candidateNodes ∧ Available manager (fun _ _ => 0) request n := by
  have htarget : ∃ best, bestTargetNode manager request softTarget candidateNodes = .ok best ∧
      ∀ n, best = some n → n ∈ candidateNodes ∧ Available manager (fun _ _ => 0) request n := by
    unfold bestTargetNode
    cases softTarget with
    | none => exact ⟨none, rfl, nofun⟩
    | some target =>
      dsimp only
      split_ifs with hmem
      · have htarget : ∀ n ∈ [target], (manager.nodes.get? n).isSome := by
          intro n hn
          rw [List.mem_singleton.mp hn]
          exact hnodes target hmem
        obtain ⟨best, hbest, hchosen⟩ := getBestNode_ok (Deducted.refl hmanager) hrequest htarget
        refine ⟨best, hbest, fun n hn => ⟨?_, (hchosen n hn).2⟩⟩
        rw [List.mem_singleton.mp (hchosen n hn).1]
        exact hmem
      · exact ⟨none, rfl, nofun⟩
  obtain ⟨best, hbest, hchosen⟩ := htarget
  unfold bestPackNode
  rw [hbest, ok_bind]
  cases best with
  | some n => exact ⟨some n, rfl, hchosen⟩
  | none => exact getBestNode_ok (Deducted.refl hmanager) hrequest hnodes

/-- One node for all requests is a placement if it is available for the aggregated request. -/
theorem placement_of_aggregated {nodeId : N} (hcandidate : nodeId ∈ candidateNodes)
    (h : Available manager (fun _ _ => 0) (aggregateRequests requests) nodeId)
    (hmanager : manager.Valid) :
    Placement manager candidateNodes requests (List.replicate requests.length (some nodeId)) := by
  obtain ⟨node, hnode, hlabels, hle⟩ := h
  obtain ⟨hget, hmem⟩ := aggregateRequests_spec requests
  refine ⟨List.length_replicate, fun i request hi => ?_, fun n node' hnode' r => ?_⟩
  · have hlt : i < requests.length := (List.getElem?_eq_some_iff.mp hi).1
    refine ⟨nodeId, node, by rw [List.getElem?_replicate, if_pos hlt], hcandidate, hnode,
      fun c hc => ?_⟩
    exact hlabels c ((hmem c).mpr ⟨request, List.mem_of_getElem? hi, hc⟩)
  · have hzip : (List.replicate requests.length (some nodeId)).zip requests =
        requests.map (fun q => (some nodeId, q)) := by
      apply List.ext_getElem?
      intro i
      by_cases hi : i < requests.length
      · rw [List.getElem?_map, List.getElem?_eq_getElem hi]
        exact List.getElem?_zip_eq_some.mpr
          ⟨by rw [List.getElem?_replicate, if_pos hi], List.getElem?_eq_getElem hi⟩
      · rw [List.getElem?_eq_none (by simp; omega), List.getElem?_eq_none (by simp; omega)]
    rw [hzip, assigned, List.map_map]
    by_cases hn : n = nodeId
    · subst hn
      obtain rfl := Option.some.inj (hnode.symm.trans hnode')
      have hdemand := hle r
      rw [hget, zero_add] at hdemand
      simpa [Function.comp_def] using hdemand
    · have hne : (some nodeId : Option N) ≠ some n := fun h => hn (Option.some.inj h).symm
      have hzero := (hmanager n node' hnode' r).1
      simpa [Function.comp_def, hne] using hzero

theorem scheduleStrictPack_ok (hmanager : manager.Valid)
    (hnodes : ∀ n ∈ candidateNodes, (manager.nodes.get? n).isSome) (hne : requests ≠ [])
    (hrequests : ∀ q ∈ requests, q.Valid) (options : SchedulingOptions N) :
    ∃ outcome, scheduleStrictPack manager requests options candidateNodes = .ok outcome ∧
      Scheduled manager candidateNodes requests outcome ∧
      (outcome.1.status = .success → ∃ n, ∀ m ∈ outcome.1.selectedNodes, m = some n) := by
  unfold scheduleStrictPack
  rw [List.isEmpty_eq_false_iff.mpr hne, Bool.not_false, rayCheck_true, ok_bind]
  split_ifs
  · exact ⟨_, rfl, scheduled_infeasible requests, nofun⟩
  have hvalid := aggregateRequests_valid hrequests
  obtain ⟨feasible, hfeasible, hsub⟩ := feasibleNodes_ok manager hvalid candidateNodes
  obtain ⟨best, hbest, hchosen⟩ := bestPackNode_ok hmanager (fun n hn => hnodes n (hsub n hn)) hvalid
    options.bundleStrictPackSoftTargetNodeId
  simp only [hfeasible, ok_bind]
  split_ifs
  · exact ⟨_, rfl, scheduled_infeasible requests, nofun⟩
  simp only [hbest, ok_bind]
  cases best with
  | none => exact ⟨_, rfl, ⟨SameView.refl manager, nofun⟩, nofun⟩
  | some bestNodeId =>
    obtain ⟨hmem, havailable⟩ := hchosen bestNodeId rfl
    refine ⟨_, rfl, ⟨SameView.refl manager, fun _ => ?_⟩, fun _ => ⟨bestNodeId, fun m hm => ?_⟩⟩
    · exact placement_of_aggregated (hsub bestNodeId hmem) havailable hmanager
    · exact (List.mem_replicate.mp hm).2

end strictPack

/-! ### STRICT_SPREAD -/

section strictSpread
variable {requests : List ResourceRequest} {done : List (Option N × ResourceRequest)}

/-- The loop of STRICT_SPREAD chooses distinct nodes that are available for the first requests. -/
theorem strictSpreadLoop_ok (hmanager : manager.Valid) (hrequests : ∀ q ∈ requests, q.Valid)
    {nodes : List N}
    (hnodes : ∀ n ∈ nodes, n ∈ candidateNodes ∧ (manager.nodes.get? n).isSome)
    (hdone : ∀ e ∈ done, ∃ n, e.1 = some n ∧ n ∈ candidateNodes ∧ Available manager
      (fun _ _ => 0) e.2 n)
    (hfresh : ∀ n ∈ nodes, some n ∉ done.map Prod.fst) (hnodup : (done.map Prod.fst).Nodup) :
    ∃ chosen : List (Option N × ResourceRequest), strictSpreadLoop manager requests nodes
      (done.map Prod.fst) = .ok (chosen.map Prod.fst) ∧
      (∃ rest, chosen.map Prod.snd ++ rest = done.map Prod.snd ++ requests) ∧
      (chosen.map Prod.fst).Nodup ∧
      ∀ e ∈ chosen, ∃ n, e.1 = some n ∧ n ∈ candidateNodes ∧
      Available manager (fun _ _ => 0) e.2 n := by
  induction requests generalizing nodes done with
  | nil => exact ⟨done, rfl, ⟨[], rfl⟩, hnodup, hdone⟩
  | cons request requests ih =>
    obtain ⟨hrequest, hrest⟩ := List.forall_mem_cons.mp hrequests
    obtain ⟨best, hbest, hchosen⟩ := getBestNode_ok (Deducted.refl hmanager) hrequest
      (fun n hn => (hnodes n hn).2)
    rw [strictSpreadLoop, hbest, ok_bind]
    cases best with
    | none => exact ⟨done, rfl, ⟨request :: requests, rfl⟩, hnodup, hdone⟩
    | some bestNodeId =>
      obtain ⟨hmem, havailable⟩ := hchosen bestNodeId rfl
      have hmap : (done ++ [(some bestNodeId, request)]).map Prod.fst = done.map Prod.fst ++
        [some bestNodeId] :=
        List.map_append
      have hdone' : ∀ e ∈ done ++ [(some bestNodeId, request)],
          ∃ n, e.1 = some n ∧ n ∈ candidateNodes ∧ Available manager (fun _ _ => 0) e.2 n := by
        intro e he
        obtain he | he := List.mem_append.mp he
        · exact hdone e he
        · rw [List.mem_singleton.mp he]
          exact ⟨bestNodeId, rfl, (hnodes bestNodeId hmem).1, havailable⟩
      have hfresh' : ∀ n ∈ nodes.filter (· ≠ bestNodeId),
        some n ∉ (done ++ [(some bestNodeId, request)]).map Prod.fst := by
        intro n hn
        obtain ⟨hn, hne⟩ := List.mem_filter.mp hn
        have hne : n ≠ bestNodeId := of_decide_eq_true hne
        rw [hmap, List.mem_append, List.mem_singleton]
        rintro (hold | hnew)
        · exact hfresh n hn hold
        · exact hne (Option.some.inj hnew)
      have hnodup' : ((done ++ [(some bestNodeId, request)]).map Prod.fst).Nodup := by
        rw [hmap, List.nodup_append]
        refine ⟨hnodup, List.nodup_singleton _, fun a ha b hb => ?_⟩
        rw [List.mem_singleton.mp hb]
        exact fun heq => hfresh bestNodeId hmem (heq ▸ ha)
      obtain ⟨chosen, hrun, ⟨rest, hfront⟩, hout⟩ := ih hrest
        (fun n hn => hnodes n (List.mem_of_mem_filter hn)) hdone' hfresh' hnodup'
      rw [hmap] at hrun
      refine ⟨chosen, hrun, ⟨rest, ?_⟩, hout⟩
      rw [hfront, List.map_append, List.append_assoc]
      rfl

/-- A node that is assigned one request at most is assigned no more than this request. -/
theorem assigned_le_of_nodup (hmanager : manager.Valid) (hnodup : (done.map Prod.fst).Nodup)
    (hdone : ∀ e ∈ done, ∃ n, e.1 = some n ∧ n ∈ candidateNodes ∧ Available manager
      (fun _ _ => 0) e.2 n)
    {nodeId : N} {node : NodeResources} (hnode : manager.nodes.get? nodeId = some node)
    (r : ResourceID) :
    assigned done nodeId r ≤ node.available.get r := by
  induction done with
  | nil => exact (hmanager nodeId node hnode r).1
  | cons e done ih =>
    rw [List.map_cons, List.nodup_cons] at hnodup
    obtain ⟨hhead, htail⟩ := List.forall_mem_cons.mp hdone
    rw [assigned_cons]
    by_cases he : e.1 = some nodeId
    · have hzero : assigned done nodeId r = 0 := by
        apply List.sum_eq_zero
        intro x hx
        obtain ⟨e', he', rfl⟩ := List.mem_map.mp hx
        refine if_neg (fun heq => hnodup.1 ?_)
        rw [he, ← heq]
        exact List.mem_map_of_mem he'
      obtain ⟨n, hn, -, node', hnode', -, hle⟩ := hhead
      obtain rfl := Option.some.inj (he.symm.trans hn)
      obtain rfl := Option.some.inj (hnode.symm.trans hnode')
      have hdemand := hle r
      rw [if_pos he, hzero, add_zero]
      rwa [zero_add] at hdemand
    · rw [if_neg he, zero_add]
      exact ih hnodup.2 htail

theorem scheduleStrictSpread_ok (hmanager : manager.Valid)
    (hnodes : ∀ n ∈ candidateNodes, (manager.nodes.get? n).isSome) (hne : requests ≠ [])
    (hrequests : ∀ q ∈ requests, q.Valid) (sort : StdSort ℕ) (ids : StringIdMap)
    (options : SchedulingOptions N) :
    ∃ outcome, scheduleStrictSpread sort ids manager requests options candidateNodes = .ok outcome ∧
      Scheduled manager candidateNodes requests outcome ∧
      (outcome.1.status = .success → outcome.1.selectedNodes.Nodup ∧
        ∀ n, some n ∈ outcome.1.selectedNodes → n ∉ options.bundleLocations.getD []) := by
  have hvalid := valid_of_sorted hrequests sort ids
  set free := excludeNodesAlreadyContainingBundles candidateNodes options with hfree
  have hmem : ∀ n ∈ free, n ∈ candidateNodes ∧ n ∉ options.bundleLocations.getD [] := by
    intro n hn
    rw [hfree, excludeNodesAlreadyContainingBundles, List.mem_filter] at hn
    simpa using hn
  unfold scheduleStrictSpread
  rw [List.isEmpty_eq_false_iff.mpr hne, Bool.not_false, rayCheck_true, ok_bind]
  simp only [← hfree]
  split_ifs
  · exact ⟨_, rfl, scheduled_infeasible requests, nofun⟩
  · exact ⟨_, rfl, scheduled_infeasible requests, nofun⟩
  obtain ⟨b, hb⟩ := isRequestFeasible_ok manager free hvalid
  have hcandidates : ∀ n ∈ free, n ∈ free ∧ (manager.nodes.get? n).isSome :=
    fun n hn => ⟨hn, hnodes n (hmem n hn).1⟩
  have hdone : ∀ e ∈ ([] : List (Option N × ResourceRequest)),
      ∃ n, e.1 = some n ∧ n ∈ free ∧ Available manager (fun _ _ => 0) e.2 n := nofun
  obtain ⟨chosen, hrun, ⟨rest, hfront⟩, hnodup, hchosen⟩ :=
    strictSpreadLoop_ok hmanager hvalid hcandidates hdone nofun List.nodup_nil
  have hzip := zip_of_prefix (hfront.trans (List.nil_append _))
  simp only [List.map_nil] at hrun
  simp only [hb, ok_bind]
  cases b with
  | false => exact ⟨_, rfl, scheduled_infeasible requests, nofun⟩
  | true =>
    simp only [Bool.not_true, Bool.false_eq_true, if_false, hrun, ok_bind]
    split_ifs with hlength
    · exact ⟨_, rfl, ⟨SameView.refl manager, nofun⟩, nofun⟩
    have hplacement : Placement manager candidateNodes (sortRequiredResources sort ids requests).2
        (chosen.map Prod.fst) := by
      refine ⟨not_not.mp hlength, fun i q hi => ?_, fun n node hnode r => ?_⟩
      · have hlt : i < (chosen.map Prod.fst).length := by
          rw [not_not.mp hlength]
          exact (List.getElem?_eq_some_iff.mp hi).1
        obtain ⟨m, hm⟩ : ∃ m, (chosen.map Prod.fst)[i]? = some m := ⟨_, List.getElem?_eq_getElem hlt⟩
        have hpair : (m, q) ∈ (chosen.map Prod.fst).zip (sortRequiredResources sort ids requests).2 :=
          List.mem_of_getElem? (List.getElem?_zip_eq_some.mpr ⟨hm, hi⟩)
        rw [hzip] at hpair
        obtain ⟨n, hn, hcandidate, node, hnode, hlabels, -⟩ := hchosen _ hpair
        exact ⟨n, node, hm.trans (congrArg some hn), (hmem n hcandidate).1, hnode, hlabels⟩
      · rw [hzip]
        exact assigned_le_of_nodup hmanager hnodup hchosen hnode r
    obtain ⟨hsorted, hperm⟩ := sorted_placement hplacement
    refine ⟨_, rfl, ⟨SameView.refl manager, fun _ => hsorted⟩,
      fun _ => ⟨hperm.nodup_iff.mpr hnodup, fun n hn => ?_⟩⟩
    obtain ⟨e, he, hen⟩ := List.mem_map.mp (hperm.mem_iff.mp hn)
    obtain ⟨n', hn', hcandidate, -⟩ := hchosen e he
    obtain rfl := Option.some.inj (hen.symm.trans hn')
    exact (hmem n hcandidate).2

end strictSpread

/-! ### Every policy -/

/-- Four CPUs, two of them available. -/
def halfUsedNode : NodeResources where
  total := DefaultMap.empty.set .cpu 40000
  available := DefaultMap.empty.set .cpu 20000
  labels := Dict.empty
  objectPullsQueued := false

/-- A demand of one CPU. -/
def oneCpuRequest : ResourceRequest := ⟨DefaultMap.empty.set .cpu 10000, false, []⟩

theorem halfUsedNode_valid : halfUsedNode.Valid := by
  intro r
  unfold halfUsedNode
  simp only [DefaultMap.get_set, DefaultMap.get_empty]
  split_ifs
  · decide
  · exact ⟨r.resourceDefaultValue_nonneg, le_refl _⟩

theorem oneCpuRequest_valid : oneCpuRequest.Valid where
  nonneg r := by
    unfold oneCpuRequest ResourceRequest.get
    simp only [DefaultMap.get_set, DefaultMap.get_empty]
    split_ifs
    · decide
    · exact le_refl _
  specified := nofun

end RayTfm.Raylet
