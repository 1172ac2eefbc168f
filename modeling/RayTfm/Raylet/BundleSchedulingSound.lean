import RayTfm.Raylet.BundleScheduling

/-! # Bundle scheduling is sound

What the policies assign is described by the nodes chosen so far, zipped with the requests
(`assigned`).  While a policy runs, its view is the original one less what is assigned (`Deducted`),
and every assignment fits (`Placed`); releasing takes the assignments back one by one
(`releaseAll_ok`).  Sorting the result back into the order of the requests permutes the
assignments. -/

namespace RayTfm.Raylet

variable {N : Type} [DecidableEq N] {manager manager' : ClusterResourceManager N}
    {used : N → ResourceID → ℤ}
  {request : ResourceRequest} {candidateNodes : List N}

open ClusterResourceManager

/-! ### The best node -/

/-- A node has what a request asks for, beyond outstanding demands. -/
def Available (manager : ClusterResourceManager N) (used : N → ResourceID → ℤ)
    (request : ResourceRequest)
    (nodeId : N) : Prop :=
  ∃ node, manager.nodes.get? nodeId = some node ∧ node.MatchesLabels request.labelSelector ∧
    ∀ r, used nodeId r + request.get r ≤ node.available.get r

theorem calculate_ok (requested : ℤ) {available : ℤ} (h : 0 ≤ available) :
    ∃ q, calculate requested available = .ok q := by
  unfold calculate
  rw [decide_eq_true h, rayCheck_true, ok_bind]
  exact ⟨_, rfl⟩

theorem score_ok (node : NodeResources) (hrequest : request.Valid)
    (hnode : ∀ r, 0 ≤ node.available.get r) :
    ∃ s, score request node = .ok s ∧
      (0 ≤ s → node.MatchesLabels request.labelSelector ∧ ∀ r,
        request.get r ≤ node.available.get r) := by
  obtain ⟨b, hb, havailable⟩ := NodeResources.isAvailable_ok node hrequest hnode false
  unfold score
  rw [hb, ok_bind]
  cases b with
  | false =>
    refine ⟨-1, rfl, fun h => ?_⟩
    norm_num at h
  | true =>
    have hloop := foldlM_ok (f := fun nodeScore resourceId => do
        let resourceScore ← calculate (request.get resourceId) (node.available.get resourceId)
        return nodeScore + resourceScore) (P := fun _ (_ : ℚ) => True)
          (l := request.resources.resourceIds) (s := 0)
      trivial (fun done r s _ _ => by
        obtain ⟨q, hq⟩ := calculate_ok (request.get r) (hnode r)
        rw [hq]
        exact ⟨s + q, rfl, trivial⟩)
    obtain ⟨s, hs, -⟩ := hloop
    exact ⟨s, hs, fun _ => havailable rfl⟩

variable {nodeId : N}

theorem ClusterResourceManager.Deducted.available_of_score (h : Deducted manager used manager')
    (hrequest : request.Valid)
    (hnode : (manager.nodes.get? nodeId).isSome) :
    ∃ node' s, manager'.getNodeResources nodeId = .ok node' ∧ score request node' = .ok s ∧
      (0 ≤ s → Available manager used request nodeId) := by
  obtain ⟨node, hnode⟩ := Option.isSome_iff_exists.mp hnode
  obtain ⟨available, hget, havailable⟩ := h.node nodeId node hnode
  have hnonneg : ∀ r, 0 ≤ available.get r := by
    intro r
    obtain ⟨heq, hle⟩ := havailable r
    omega
  obtain ⟨s, hs, hscore⟩ := score_ok { node with available := available } hrequest hnonneg
  refine ⟨_, s, ?_, hs, fun hpos => ⟨node, hnode, (hscore hpos).1, fun r => ?_⟩⟩
  · unfold getNodeResources
    rw [hget, rayFind_some]
  · have hle : request.get r ≤ available.get r := (hscore hpos).2 r
    obtain ⟨heq, -⟩ := havailable r
    omega

theorem getBestNode_ok (h : Deducted manager used manager') (hrequest : request.Valid)
    (hcandidates : ∀ n ∈ candidateNodes, (manager.nodes.get? n).isSome) :
    ∃ best, getBestNode manager' request candidateNodes = .ok best ∧
      ∀ n, best = some n → n ∈ candidateNodes ∧ Available manager used request n := by
  have hloop := foldlM_ok (f := scoreNode manager' request) (l := candidateNodes) (s := (none, -1))
    (P := fun _ best => ∀ n, best.1 = some n →
      n ∈ candidateNodes ∧ (0 ≤ best.2 → Available manager used request n))
        nofun (fun done n best hn hbest => by
        obtain ⟨node', s, hget, hs, hscore⟩ := h.available_of_score hrequest (hcandidates n hn)
        unfold scoreNode
        rw [hget, ok_bind, hs, ok_bind]
        refine ⟨_, rfl, ?_⟩
        split_ifs
        · intro n' hn'
          cases hn'
          exact ⟨hn, hscore⟩
        · exact hbest)
  obtain ⟨best, hrun, hbest⟩ := hloop
  unfold getBestNode
  rw [hrun, ok_bind]
  refine ⟨_, rfl, fun n hn => ?_⟩
  split_ifs at hn with hpos
  exact ⟨(hbest n hn).1, (hbest n hn).2 hpos⟩

theorem hasFeasibleResources_ok (manager : ClusterResourceManager N) (hrequest : request.Valid)
    (nodeId : N) :
    ∃ b, manager.hasFeasibleResources nodeId request = .ok b := by
  unfold hasFeasibleResources
  cases manager.nodes.get? nodeId with
  | none => exact ⟨false, rfl⟩
  | some node => exact NodeResources.isFeasible_ok hrequest

variable {requests : List ResourceRequest}

theorem isRequestFeasible_ok (manager : ClusterResourceManager N) (candidateNodes : List N)
    (hrequests : ∀ q ∈ requests, q.Valid) :
    ∃ b, isRequestFeasible manager requests candidateNodes = .ok b := by
  have hone : ∀ q ∈ requests, ∃ b,
    candidateNodes.anyM (fun n => manager.hasFeasibleResources n q) = .ok b := by
    intro q hq
    induction candidateNodes with
    | nil => exact ⟨false, rfl⟩
    | cons n candidateNodes ih =>
      obtain ⟨b, hb⟩ := hasFeasibleResources_ok manager (hrequests q hq) n
      rw [List.anyM, hb, ok_bind]
      cases b with
      | true => exact ⟨true, rfl⟩
      | false => exact ih
  obtain ⟨b, hb, -⟩ := NodeResources.allM_ok (P := fun q =>
      candidateNodes.anyM (fun n => manager.hasFeasibleResources n q) = .ok true) (l := requests)
    (p := fun q => candidateNodes.anyM (fun n => manager.hasFeasibleResources n q)) (fun q hq => by
      obtain ⟨b, hb⟩ := hone q hq
      refine ⟨b, hb, ?_⟩
      rw [hb]
      exact ⟨fun h => by rw [h], fun h => Except.ok.inj h⟩)
  exact ⟨b, hb⟩

/-! ### Assignments -/

/-- The demands assigned to a node. -/
def assigned (l : List (Option N × ResourceRequest)) (nodeId : N) (r : ResourceID) : ℤ :=
  (l.map (fun e => if e.1 = some nodeId then e.2.get r else 0)).sum

theorem assigned_cons (e : Option N × ResourceRequest) (l : List (Option N × ResourceRequest))
    (nodeId : N)
    (r : ResourceID) :
    assigned (e :: l) nodeId r = (if e.1 = some nodeId then e.2.get r else 0) +
      assigned l nodeId r := by
  rw [assigned, List.map_cons, List.sum_cons, assigned]

variable {l : List (Option N × ResourceRequest)}
variable {l' : List (Option N × ResourceRequest)}

theorem assigned_perm (h : l.Perm l') : assigned l = assigned l' := by
  funext nodeId r
  exact (h.map _).sum_eq

theorem assigned_cons_some (nodeId : N) (request : ResourceRequest)
    (l : List (Option N × ResourceRequest)) :
    assigned ((some nodeId, request) :: l) = addUsed (assigned l) nodeId request.get := by
  funext n r
  rw [assigned_cons, addUsed, add_comm]
  by_cases hn : n = nodeId
  · subst hn
    rw [if_pos rfl, if_pos rfl]
  · rw [if_neg hn, if_neg (fun h => hn (Option.some.inj h).symm)]

theorem assigned_cons_none (request : ResourceRequest) (l : List (Option N × ResourceRequest)) :
    assigned ((none, request) :: l) = assigned l := by
  funext n r
  rw [assigned_cons, if_neg nofun, zero_add]

theorem assigned_nonneg (h : ∀ e ∈ l, e.2.Valid) (nodeId : N)
    (r : ResourceID) : 0 ≤ assigned l nodeId r := by
  apply List.sum_nonneg
  intro x hx
  obtain ⟨e, he, rfl⟩ := List.mem_map.mp hx
  split_ifs
  · exact (h e he).nonneg r
  · exact le_refl _

theorem releaseAll_ok (hmanager : manager.Valid)
    (hl : ∀ e ∈ l, e.2.Valid ∧ ∀ n, e.1 = some n → (manager.nodes.get? n).isSome)
    (h : Deducted manager (assigned l) manager') :
    ∃ manager'', l.foldlM releaseResources manager' = .ok manager'' ∧ SameView manager manager'' := by
  induction l generalizing manager' with
  | nil => exact ⟨manager', rfl, h.sameView⟩
  | cons e l ih =>
    obtain ⟨nodeId, request⟩ := e
    obtain ⟨hrequest, hnode⟩ := hl (nodeId, request) (.head _)
    have htail := (List.forall_mem_cons.mp hl).2
    rw [List.foldlM_cons]
    cases nodeId with
    | none =>
      rw [assigned_cons_none] at h
      exact ih htail h
    | some nodeId =>
      obtain ⟨node, hnode⟩ := Option.isSome_iff_exists.mp (hnode nodeId rfl)
      rw [assigned_cons_some] at h
      obtain ⟨manager₁, hadd, h₁⟩ :=
        h.add hmanager hnode hrequest (assigned_nonneg (fun e he => (htail e he).1))
      obtain ⟨manager₂, hrun, h₂⟩ := ih htail h₁
      refine ⟨manager₂, ?_, h₂⟩
      have hstep : releaseResources manager' (some nodeId, request) = .ok manager₁ := by
        unfold releaseResources
        dsimp only
        rw [hadd]
        rfl
      rw [hstep, ok_bind, hrun]

theorem takeResources_ok (h : Deducted manager used manager') (hrequest : request.Valid)
    (havailable : Available manager used request nodeId) :
    ∃ manager'', takeResources manager' nodeId request = .ok manager'' ∧
      Deducted manager (addUsed used nodeId request.get) manager'' := by
  obtain ⟨node, hnode, -, hle⟩ := havailable
  obtain ⟨manager'', hsub, hdeducted⟩ := h.subtract hnode hrequest hle
  refine ⟨manager'', ?_, hdeducted⟩
  unfold takeResources
  rw [hsub]
  rfl

/-! ### Placements -/

/-- Every assigned node is a candidate whose labels satisfy the selector of its request. -/
def Placed (manager : ClusterResourceManager N) (candidateNodes : List N)
    (l : List (Option N × ResourceRequest)) :
    Prop :=
  ∀ e ∈ l, ∀ nodeId, e.1 = some nodeId → nodeId ∈ candidateNodes ∧
    ∃ node, manager.nodes.get? nodeId = some node ∧ node.MatchesLabels e.2.labelSelector

/-- A node for every request: a candidate that satisfies its label selector, and no node is assigned
more than it has. -/
structure Placement (manager : ClusterResourceManager N) (candidateNodes : List N)
    (requests : List ResourceRequest)
    (selectedNodes : List (Option N)) : Prop where
  length : selectedNodes.length = requests.length
  node : ∀ (i : ℕ) (request : ResourceRequest), requests[i]? = some request →
    ∃ nodeId node, selectedNodes[i]? = some (some nodeId) ∧
    nodeId ∈ candidateNodes ∧ manager.nodes.get? nodeId = some node ∧
    node.MatchesLabels request.labelSelector
  fits : ∀ nodeId node, manager.nodes.get? nodeId = some node →
    ∀ r, assigned (selectedNodes.zip requests) nodeId r ≤ node.available.get r

theorem Placed.append (h : Placed manager candidateNodes l)
    (h' : Placed manager candidateNodes l') : Placed manager candidateNodes (l ++ l') := by
  intro e he
  obtain he | he := List.mem_append.mp he
  · exact h e he
  · exact h' e he

theorem Placed.single (hmem : nodeId ∈ candidateNodes) (h : Available manager used request nodeId) :
    Placed manager candidateNodes [(some nodeId, request)] := by
  intro e he n hn
  obtain rfl := List.mem_singleton.mp he
  cases hn
  obtain ⟨node, hnode, hlabels, -⟩ := h
  exact ⟨hmem, node, hnode, hlabels⟩

theorem Placed.placement {selectedNodes : List (Option N)}
    (h : Placed manager candidateNodes (selectedNodes.zip requests))
    (hlength : selectedNodes.length = requests.length)
    (hsome : ∀ i : ℕ, selectedNodes[i]? ≠ some none)
    (hfits : Deducted manager (assigned (selectedNodes.zip requests)) manager') :
    Placement manager candidateNodes requests selectedNodes where
  length := hlength
  node i request hrequest := by
    have hi : i < requests.length := (List.getElem?_eq_some_iff.mp hrequest).1
    obtain ⟨found, hfound⟩ : ∃ found, selectedNodes[i]? = some found :=
      ⟨selectedNodes[i], List.getElem?_eq_getElem (hlength ▸ hi)⟩
    have hmem : (found, request) ∈ selectedNodes.zip requests := by
      apply List.mem_of_getElem? (i := i)
      rw [List.getElem?_zip_eq_some]
      exact ⟨hfound, hrequest⟩
    cases found with
    | none => exact absurd hfound (hsome i)
    | some nodeId =>
      obtain ⟨hcandidate, node, hnode, hlabels⟩ := h _ hmem nodeId rfl
      exact ⟨nodeId, node, hfound, hcandidate, hnode, hlabels⟩
  fits nodeId node hnode r := by
    obtain ⟨available, -, havailable⟩ := hfits.node nodeId node hnode
    exact (havailable r).2

theorem Placement.sortBack {index : List ℕ} {resultNodes : List (Option N)}
    (h : Placement manager candidateNodes (index.map (requestAt requests)) resultNodes)
    (hindex : index.Perm (List.range requests.length)) :
    Placement manager candidateNodes requests (sortSchedulingResult resultNodes index).selectedNodes ∧
      (sortSchedulingResult resultNodes index).selectedNodes.Perm resultNodes := by
  have hlength : resultNodes.length = requests.length := by
    rw [h.length, List.length_map, hindex.length_eq, List.length_range]
  have hilength : resultNodes.length = index.length := by rw [h.length, List.length_map]
  set selected := (sortSchedulingResult resultNodes index).selectedNodes with hselected
  have hslength : selected.length = requests.length := by
    rw [hselected, sortSchedulingResult, SchedulingResult.successful, length_scatter,
      List.length_replicate, hlength]
  have hscatter : resultNodes.map some = index.map (fun j => selected[j]?) :=
    eq_map_scatter (List.replicate resultNodes.length none)
      (by rwa [List.length_replicate, hlength]) hilength
  have hsorted : resultNodes.zip (index.map (requestAt requests)) =
      index.map (fun j => ((selected[j]?).getD none, requestAt requests j)) := by
    have hvalues : resultNodes = index.map (fun j => (selected[j]?).getD none) := by
      have hget := congrArg (List.map (fun v => Option.getD v none)) hscatter
      rw [List.map_map, List.map_map] at hget
      simpa [Function.comp_def] using hget
    conv_lhs => rw [hvalues]
    rw [List.zip_map']
  have hrange : selected.zip requests =
      (List.range requests.length).map (fun j => ((selected[j]?).getD none, requestAt requests j)) := by
    apply List.ext_getElem?
    intro j
    by_cases hj : j < requests.length
    · have hjs : j < selected.length := by omega
      have hzip : (selected.zip requests)[j]? = some (selected[j], requests[j]) :=
        List.getElem?_zip_eq_some.mpr ⟨List.getElem?_eq_getElem hjs, List.getElem?_eq_getElem hj⟩
      rw [hzip, List.getElem?_map, List.getElem?_range hj]
      simp [List.getElem?_eq_getElem hjs, List.getElem?_eq_getElem hj, requestAt]
    · rw [List.getElem?_eq_none (by rw [List.length_zip]; omega),
        List.getElem?_eq_none (by simp; omega)]
  have hperm : (selected.zip requests).Perm (resultNodes.zip (index.map (requestAt requests))) := by
    rw [hrange, hsorted]
    exact (hindex.map _).symm
  refine ⟨⟨hslength, fun i request hrequest => ?_, fun nodeId node hnode r => ?_⟩, ?_⟩
  · have hi : i < requests.length := (List.getElem?_eq_some_iff.mp hrequest).1
    obtain ⟨k, hk⟩ := List.getElem?_of_mem (hindex.mem_iff.mpr (List.mem_range.mpr hi))
    have hat : requestAt requests i = request := by
      rw [requestAt, List.getD_eq_getElem?_getD, hrequest, Option.getD_some]
    obtain ⟨nodeId, node, hresult, hnode⟩ :=
      h.node k request (by rw [List.getElem?_map, hk, Option.map_some, hat])
    refine ⟨nodeId, node, ?_, hnode⟩
    have hget := congrArg (fun l => l[k]?) hscatter
    simp only [List.getElem?_map, hk, hresult, Option.map_some] at hget
    exact (Option.some.inj hget).symm
  · rw [assigned_perm hperm]
    exact h.fits nodeId node hnode r
  · have hfst : (selected.zip requests).map Prod.fst = selected := List.map_fst_zip (by omega)
    have hfst' : (resultNodes.zip (index.map (requestAt requests))).map Prod.fst = resultNodes :=
      List.map_fst_zip (le_of_eq h.length)
    rw [← hfst, ← hfst']
    exact hperm.map _

end RayTfm.Raylet
