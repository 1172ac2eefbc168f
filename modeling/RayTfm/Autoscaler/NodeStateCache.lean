import RayTfm.Autoscaler.SchedulerPlacements
import RayTfm.Lib.NestedDict
import RayTfm.Lib.Selection

/-! # The cache of node states

`_sched_best_node` simulates the requests on every node and takes the node with the best result.  A
node that does not run ray is skipped when an earlier such node has the same type, kind, resources
and labels (`NodeStateCache`).  Here the search without the cache (`bestPlain`) stands beside the
one with it (`bestCached`).

Nodes of the same state take the same requests (`Alike`), but the score also reads the requests that
were recorded on the node before.  So the cache changes the decision when a skipped node has the
best result of all, which needs recorded requests that the node it is taken for does not have
(`nodeStateCache_of_sameRecords`). -/

namespace RayTfm.Autoscaler

/-! ### The search with and without the cache -/

/-- The result that comes first. -/
def bestResult (ctx : ScheduleContext) (results : List ScheduleResult) : Option ScheduleResult :=
  (sortBy (fun r => OrderDual.toDual (rankResult ctx r)) results).head?

/-- The best result of `_sched_best_node`. -/
def bestCached (ctx : ScheduleContext) (requests : List ResourceRequest) (nodes : List SchedulingNode)
    (source : ResourceRequestSource) : Except AutoscalerError (Option ScheduleResult) := do
  let w ← nodes.zipIdx.foldlM (BestSearch.step requests source) ⟨[], []⟩
  return bestResult ctx w.results

/-- The loop without the cache, for one node and its index. -/
def plainSearchStep (requests : List ResourceRequest) (source : ResourceRequestSource)
    (results : List ScheduleResult)
    (e : SchedulingNode × ℕ) : Except AutoscalerError (List ScheduleResult) := do
  let (node, remaining, score) ← e.1.trySchedule requests source
  if remaining.length = requests.length then return results
  else return results ++ [⟨node, remaining, e.2, score⟩]

/-- The best result when every node is simulated. -/
def bestPlain (ctx : ScheduleContext) (requests : List ResourceRequest) (nodes : List SchedulingNode)
    (source : ResourceRequestSource) : Except AutoscalerError (Option ScheduleResult) := do
  let results ← nodes.zipIdx.foldlM (plainSearchStep requests source) []
  return bestResult ctx results

/-- `_sched_best_node` takes the best result, and the node of its index out of the nodes. -/
theorem schedBestNode_eq_bestCached (ctx : ScheduleContext) (requests : List ResourceRequest)
    (nodes : List SchedulingNode) (source : ResourceRequestSource) :
    schedBestNode ctx requests nodes source = (bestCached ctx requests nodes source).map
      (Option.map (fun best => (best.node, best.infeasibleRequests, nodes.eraseIdx best.idx))) := by
  unfold schedBestNode bestCached bestResult
  cases nodes.zipIdx.foldlM (BestSearch.step requests source) ⟨[], []⟩ with
  | error e => rfl
  | ok w =>
    dsimp only [bind, Except.bind, pure, Except.pure]
    cases sortBy (fun r => OrderDual.toDual (rankResult ctx r)) w.results with
    | nil => rfl
    | cons best rest => rfl

/-- The node does not run ray, and an earlier such node has the same state. -/
def isSkipped (source : ResourceRequestSource) (nodes : List SchedulingNode) (idx : ℕ) : Bool :=
  match nodes[idx]? with
  | none => false
  | some node =>
    decide (node.imInstanceStatus ≠ some .rayRunning) && (nodes.take idx).any (fun other =>
      decide (other.imInstanceStatus ≠ some .rayRunning) && sameState source node other)

/-- The result of a node, if the node can take a request. -/
def resultOf (requests : List ResourceRequest) (source : ResourceRequestSource)
    (e : SchedulingNode × ℕ) :
    Option ScheduleResult :=
  match e.1.trySchedule requests source with
  | .error _ => none
  | .ok (node, remaining, score) =>
    if remaining.length = requests.length then none else some ⟨node, remaining, e.2, score⟩

section
variable {ctx : ScheduleContext} {requests : List ResourceRequest} {nodes : List SchedulingNode}
  {source : ResourceRequestSource}

/-! ### States -/

variable {node node' : SchedulingNode}

theorem sameState_trans {node'' : SchedulingNode} (h : sameState source node node' = true)
    (h' : sameState source node' node'' = true) : sameState source node node'' = true := by
  unfold sameState at *
  simp only [Bool.and_eq_true, decide_eq_true_iff, List.isPerm_iff] at *
  obtain ⟨⟨⟨⟨htype, hkind⟩, htotal⟩, havailable⟩, hlabels⟩ := h
  obtain ⟨⟨⟨⟨htype', hkind'⟩, htotal'⟩, havailable'⟩, hlabels'⟩ := h'
  exact ⟨⟨⟨⟨htype.trans htype', hkind.trans hkind'⟩, htotal.trans htotal'⟩,
    havailable.trans havailable'⟩,
    hlabels.trans hlabels'⟩

/-- The nodes agree on all that scheduling reads, except for the requests that were recorded on them
before. -/
structure Alike (source : ResourceRequestSource) (recorded recorded' : List ResourceRequest)
    (node node' : SchedulingNode) : Prop where
  nodeType : node.nodeType = node'.nodeType
  totalResources : node.totalResources.entries.Perm node'.totalResources.entries
  available : ∀ k, (node.availableResourcesForSched.get source).get? k =
    (node'.availableResourcesForSched.get source).get? k
  labels : ∀ k, node.labels.get? k = node'.labels.get? k
  records : ∃ placed, node.schedRequests.get source = recorded ++ placed ∧
    node'.schedRequests.get source = recorded' ++ placed

theorem alike_of_sameState (h : sameState source node node' = true) :
    Alike source (node.schedRequests.get source) (node'.schedRequests.get source) node node' := by
  unfold sameState at h
  simp only [Bool.and_eq_true, decide_eq_true_iff, List.isPerm_iff] at h
  obtain ⟨⟨⟨⟨htype, -⟩, htotal⟩, havailable⟩, hlabels⟩ := h
  exact ⟨htype, htotal, Dict.get?_eq_of_perm havailable, Dict.get?_eq_of_perm hlabels, [],
    (List.append_nil _).symm, (List.append_nil _).symm⟩

variable {d d' : Dict String ℚ}

theorem fits_of_get?_eq (h : ∀ k, d.get? k = d'.get? k) (resources : Dict String ℚ) :
    fits d resources = fits d' resources := by
  unfold fits
  simp only [h]

theorem mem_keys_congr (h : ∀ k, d.get? k = d'.get? k) (k : String) :
    k ∈ d.keys ↔ k ∈ d'.keys := by
  rw [← Dict.get?_isSome_iff, h, Dict.get?_isSome_iff]

theorem inplaceSubtract_sameOutcome (h : ∀ k, d.get? k = d'.get? k)
    (resources : Dict String ℚ) : SameOutcome (fun d d' : Dict String ℚ => ∀ k, d.get? k = d'.get? k)
      (inplaceSubtract d resources) (inplaceSubtract d' resources) := by
  apply SameOutcome.foldlM _ _ h
  intro d d' e h
  unfold subtractOne
  by_cases hzero : e.2 = 0
  · rw [if_pos hzero, if_pos hzero]
    exact h
  · rw [if_neg hzero, if_neg hzero]
    simp only [mem_keys_congr h, h]
    apply SameOutcome.rfl.bind
    rintro - - -
    apply SameOutcome.rfl.bind
    rintro - - -
    intro k
    rw [Dict.get?_set, Dict.get?_set, h]

theorem satisfiesLabelConstraints_congr
    (h : ∀ k, node.labels.get? k = node'.labels.get? k) (requests : List ResourceRequest) :
    node.satisfiesLabelConstraints requests = node'.satisfiesLabelConstraints requests := by
  have hholds : LabelSelectorConstraint.holds node.labels = LabelSelectorConstraint.holds
    node'.labels := by
    funext constraint
    unfold LabelSelectorConstraint.holds
    rw [h]
  unfold SchedulingNode.satisfiesLabelConstraints
  rw [hholds]

variable {recorded recorded' : List ResourceRequest}

theorem addLabels_sameOutcome
    (h : Alike source recorded recorded' node node') (labels : List NodeLabel) :
    SameOutcome (Alike source recorded recorded') (labels.foldlM SchedulingNode.addLabel node)
      (labels.foldlM SchedulingNode.addLabel node') := by
  apply SameOutcome.foldlM _ _ h
  intro node node' label h
  unfold SchedulingNode.addLabel
  simp only [h.labels]
  apply SameOutcome.rfl.bind
  rintro - - -
  refine ⟨h.nodeType, h.totalResources, h.available, ?_, h.records⟩
  intro k
  rw [Dict.get?_set, Dict.get?_set, h.labels]

theorem tryScheduleOne_sameOutcome
    (h : Alike source recorded recorded' node node') (request : ResourceRequest) :
    SameOutcome (Option.Rel (Alike source recorded recorded')) (node.tryScheduleOne request source)
      (node'.tryScheduleOne request source) := by
  have hlabel : node.hasLabel = node'.hasLabel := by
    funext label
    unfold SchedulingNode.hasLabel
    rw [h.labels]
  unfold SchedulingNode.tryScheduleOne
  rw [satisfiesLabelConstraints_congr h.labels, hlabel, fits_of_get?_eq h.available]
  split_ifs
  · exact .none
  · exact .none
  · exact .none
  apply (inplaceSubtract_sameOutcome h.available request.resourcesBundle).bind
  intro available available' havailable
  have hplaced : Alike source recorded recorded'
      { node with
        availableResourcesForSched := node.availableResourcesForSched.set available source
        schedRequests := node.schedRequests.set (node.schedRequests.get source ++ [request]) source }
      { node' with
        availableResourcesForSched := node'.availableResourcesForSched.set available' source
        schedRequests := node'.schedRequests.set (node'.schedRequests.get source ++ [request])
          source } := by
    obtain ⟨placed, hrecords, hrecords'⟩ := h.records
    refine ⟨h.nodeType, h.totalResources, ?_, h.labels, placed ++ [request], ?_, ?_⟩
    · simpa only [BySource.get_set_self] using havailable
    · rw [BySource.get_set_self, hrecords, List.append_assoc]
    · rw [BySource.get_set_self, hrecords', List.append_assoc]
  apply (addLabels_sameOutcome hplaced request.antiAffinities).bind
  intro node node' h
  exact .some h

/-- Two nodes that have come as far with the requests. -/
structure Attempt.Alike (source : ResourceRequestSource) (recorded recorded' : List ResourceRequest)
    (a a' : Attempt) :
    Prop where
  node : Autoscaler.Alike source recorded recorded' a.node a'.node
  unschedulableRequests : a.unschedulableRequests = a'.unschedulableRequests
  shapes : a.shapes = a'.shapes

theorem size_congr {d d' : Dict String String} (h : ∀ k, d.get? k = d'.get? k) : d.size = d'.size :=
  (Dict.perm_of_get?_eq h).length_eq

theorem attemptStep_sameOutcome {a a' : Attempt}
    (h : a.Alike source recorded recorded' a') (r : ResourceRequest) :
    SameOutcome (Attempt.Alike source recorded recorded') (a.step source r) (a'.step source r) := by
  unfold Attempt.step
  rw [h.shapes, h.unschedulableRequests]
  by_cases hshape : a'.shapes.any r.sameShape
  · rw [if_pos hshape, if_pos hshape]
    exact ⟨h.node, rfl, rfl⟩
  · rw [if_neg hshape, if_neg hshape]
    apply (tryScheduleOne_sameOutcome h.node r).bind
    intro node node' hnode
    cases hnode with
    | none => exact ⟨h.node, rfl, rfl⟩
    | some hnode => exact ⟨hnode, rfl, by rw [size_congr h.node.labels, size_congr hnode.labels]⟩

/-! ### Scores -/

/-- The resources that the requests take. -/
def resourceTypes (requests : List ResourceRequest) : List String :=
  requests.flatMap (fun req => (req.resourcesBundle.entries.filter (fun e => 0 < e.2)).map Prod.fst)

/-- The requests count alike in the score of every node. -/
structure SameRecords (recorded recorded' : List ResourceRequest) : Prop where
  labelSelectors : (recorded.map (·.labelSelectors)).filter (· ≠ []) =
    (recorded'.map (·.labelSelectors)).filter (· ≠ [])
  gpu : recorded.any (fun r => "GPU" ∈ r.resourcesBundle.keys) = recorded'.any
    (fun r => "GPU" ∈ r.resourcesBundle.keys)
  resourceTypes : ∀ t, t ∈ Autoscaler.resourceTypes recorded ↔ t ∈ Autoscaler.resourceTypes recorded'

theorem findSome?_labelSelectors {β : Type} {f : List LabelSelector → Option β} (hf : f [] = none)
    (requests : List ResourceRequest) : requests.findSome? (fun req => f req.labelSelectors) =
      ((requests.map (·.labelSelectors)).filter (· ≠ [])).findSome? f := by
  induction requests with
  | nil => rfl
  | cons req requests ih =>
    rw [List.findSome?_cons, List.map_cons, ih]
    by_cases hnone : req.labelSelectors = []
    · rw [hnone, hf, List.filter_cons_of_neg (by simp)]
    · rw [List.filter_cons_of_pos (by simpa using hnone), List.findSome?_cons]

theorem SameRecords.satisfiesLabelConstraints
    (h : SameRecords recorded recorded') (node : SchedulingNode) (placed : List ResourceRequest) :
    node.satisfiesLabelConstraints (recorded ++ placed) = node.satisfiesLabelConstraints
      (recorded' ++ placed) := by
  unfold SchedulingNode.satisfiesLabelConstraints
  rw [List.findSome?_append, List.findSome?_append]
  have hfind := findSome?_labelSelectors (f := fun selectors =>
    (selectors.findIdx? (fun selector => selector.labelConstraints.all (·.holds node.labels))).map
      (fun i =>
      selectors.length - i)) rfl
  rw [hfind recorded, hfind recorded', h.labelSelectors]

theorem SameRecords.matchingTypes (h : SameRecords recorded recorded')
    (htotal : node.totalResources.entries.Perm node'.totalResources.entries)
    (placed : List ResourceRequest) :
    ((Autoscaler.resourceTypes (recorded ++ placed)).dedup.filter
      (· ∈ node.totalResources.keys)).length =
      ((Autoscaler.resourceTypes (recorded' ++ placed)).dedup.filter
        (· ∈ node'.totalResources.keys)).length := by
  have hkeys := mem_keys_congr (Dict.get?_eq_of_perm htotal)
  have hmem : ∀ t, t ∈ Autoscaler.resourceTypes (recorded ++ placed) ↔
      t ∈ Autoscaler.resourceTypes (recorded' ++ placed) := by
    intro t
    have happend : ∀ l l', Autoscaler.resourceTypes (l ++ l') = Autoscaler.resourceTypes l ++
      Autoscaler.resourceTypes l' :=
      fun l l' => List.flatMap_append
    rw [happend, happend, List.mem_append, List.mem_append, h.resourceTypes]
  apply List.Perm.length_eq
  rw [List.perm_ext_iff_of_nodup ((List.nodup_dedup _).filter _) ((List.nodup_dedup _).filter _)]
  intro t
  rw [List.mem_filter, List.mem_filter, List.mem_dedup, List.mem_dedup, hmem]
  simp only [hkeys]

theorem mapM_assertThat {α β : Type} (p : α → Bool) (msg : String) (f : α → β) (l : List α) :
    l.mapM (fun e => do
      assertThat (p e) msg
      return f e) = if l.all p then Except.ok (l.map f) else .error (.assertionError msg) := by
  induction l with
  | nil => rfl
  | cons e l ih =>
    rw [List.mapM_cons, ih, List.all_cons]
    cases p e with
    | false => rfl
    | true =>
      by_cases hall : l.all p
      · simp only [hall, if_true, Bool.and_true]
        rfl
      · simp only [hall, Bool.and_false]
        rfl

theorem min?_eq_of_perm {l l' : List ℚ} (h : l.Perm l') : l.min? = l'.min? := by
  apply Option.ext
  intro q
  rw [List.min?_eq_some_iff, List.min?_eq_some_iff, h.mem_iff]
  simp only [h.mem_iff]

theorem computeScore_sameOutcome (h : Alike source recorded recorded' node node') :
    SameOutcome (fun score score' => SameRecords recorded recorded' → score = score')
      (node.computeScore source)
      (node'.computeScore source) := by
  obtain ⟨placed, hrecords, hrecords'⟩ := h.records
  have hutilization : SchedulingNode.utilization (node.availableResourcesForSched.get source) =
      SchedulingNode.utilization (node'.availableResourcesForSched.get source) := by
    funext e
    unfold SchedulingNode.utilization
    rw [h.available]
  have hused := h.totalResources.filter (fun e => decide (e.2 ≠ 0 ∧ e.1 ∈
    (node'.availableResourcesForSched.get source).keys))
  unfold SchedulingNode.computeScore
  simp only [mapM_assertThat, mem_keys_congr h.available, hutilization, hrecords, hrecords']
  rw [hused.all_eq]
  split_ifs
  · intro hsame
    have hmap := hused.map (fun e => e.2 * SchedulingNode.utilization
      (node'.availableResourcesForSched.get source) e ^ 3)
    have hnone : node.totalResources.entries.filter (fun e => decide (e.2 ≠ 0 ∧ e.1 ∈
        (node'.availableResourcesForSched.get source).keys)) = [] ↔
          node'.totalResources.entries.filter (fun e =>
        decide (e.2 ≠ 0 ∧ e.1 ∈ (node'.availableResourcesForSched.get source).keys)) = [] := by
      rw [← List.length_eq_zero_iff, hused.length_eq, List.length_eq_zero_iff]
    have hmatching := hsame.matchingTypes h.totalResources placed
    unfold resourceTypes at hmatching
    simp only [List.any_append, hsame.gpu, hsame.satisfiesLabelConstraints,
      satisfiesLabelConstraints_congr h.labels, Dict.get?_eq_of_perm h.totalResources, hmatching,
      min?_eq_of_perm hmap, List.map_eq_nil_iff, hnone, hmap.sum_eq, hmap.length_eq]
  · rfl

theorem trySchedule_sameOutcome (requests : List ResourceRequest)
    (h : Alike source recorded recorded' node node') :
    SameOutcome (fun r r' => Alike source recorded recorded' r.1 r'.1 ∧ r.2.1 = r'.2.1 ∧
        (SameRecords recorded recorded' → r.2.2 = r'.2.2))
      (node.trySchedule requests source) (node'.trySchedule requests source) := by
  have hattempt : Attempt.Alike source recorded recorded' ⟨node, [], []⟩ ⟨node', [], []⟩ :=
    ⟨h, rfl, rfl⟩
  apply (SameOutcome.foldlM (fun _ _ r h => attemptStep_sameOutcome h r) requests hattempt).bind
  intro a a' ha
  apply (computeScore_sameOutcome ha.node).bind
  intro score score' hscore
  exact ⟨ha.node, ha.unschedulableRequests, hscore⟩

/-! ### The results of the two loops -/

variable {e : SchedulingNode × ℕ}
variable {r : SchedulingNode × List ResourceRequest × SchedulingNode.UtilizationScore}

theorem plainSearchStep_eq (h : e.1.trySchedule requests source = .ok r)
    (results : List ScheduleResult) :
    plainSearchStep requests source results e =
      .ok (results ++ (resultOf requests source e).toList) := by
  obtain ⟨node, remaining, score⟩ := r
  unfold plainSearchStep resultOf
  simp only [h, bind, Except.bind]
  by_cases hnone : remaining.length = requests.length
  · simp only [hnone, if_true, Option.toList_none, List.append_nil]
    rfl
  · simp only [hnone, if_false]
    rfl

/-- The nodes can all be simulated. -/
def Simulates (requests : List ResourceRequest) (source : ResourceRequestSource)
    (l : List (SchedulingNode × ℕ)) :
    Prop := ∀ e ∈ l, ∃ r, e.1.trySchedule requests source = .ok r

variable {results : List ScheduleResult}

theorem plainSearch_eq_ok_iff {l : List (SchedulingNode × ℕ)} {results' : List ScheduleResult} :
    l.foldlM (plainSearchStep requests source) results = .ok results' ↔
      Simulates requests source l ∧ results' = results ++ l.filterMap (resultOf requests source) := by
  induction l generalizing results with
  | nil =>
    rw [List.filterMap_nil, List.append_nil]
    constructor
    · intro h
      cases h
      exact ⟨fun _ hmem => absurd hmem List.not_mem_nil, rfl⟩
    · rintro ⟨-, rfl⟩
      rfl
  | cons e l ih =>
    rw [List.foldlM_cons]
    cases htry : e.1.trySchedule requests source with
    | error err =>
      rw [plainSearchStep, htry]
      refine ⟨nofun, ?_⟩
      rintro ⟨hsim, -⟩
      obtain ⟨r, hr⟩ := hsim e (.head _)
      rw [htry] at hr
      cases hr
    | ok r =>
      rw [plainSearchStep_eq htry]
      show l.foldlM (plainSearchStep requests source) _ = .ok results' ↔ _
      rw [ih, List.append_assoc, List.filterMap_cons]
      have hcons : Simulates requests source (e :: l) ↔ Simulates requests source l := by
        unfold Simulates
        rw [List.forall_mem_cons]
        exact and_iff_right ⟨r, htry⟩
      rw [hcons]
      cases resultOf requests source e <;> rfl

/-! ### The results with the cache -/

theorem isSkipped_append_cons (done rest : List SchedulingNode) (node : SchedulingNode) :
    isSkipped source (done ++ node :: rest) done.length =
      (decide (node.imInstanceStatus ≠ some .rayRunning) && done.any (fun other =>
        decide (other.imInstanceStatus ≠ some .rayRunning) && sameState source node other)) := by
  unfold isSkipped
  rw [List.getElem?_append_right le_rfl, Nat.sub_self, List.getElem?_cons_zero, List.take_left]

theorem idx_of_resultOf {r : ScheduleResult} (h : resultOf requests source e = some r) :
    r.idx = e.2 := by
  unfold resultOf at h
  split at h
  · cases h
  · split_ifs at h
    cases h
    rfl

theorem searchStep_eq {w : BestSearch}
    (hlooked : ¬ (e.1.imInstanceStatus ≠ some .rayRunning ∧ w.seenStates.any (sameState source e.1)))
    (h : e.1.trySchedule requests source = .ok r) :
    w.step requests source e = .ok ⟨if e.1.imInstanceStatus = some .rayRunning then w.seenStates
      else e.1 :: w.seenStates, w.results ++ (resultOf requests source e).toList⟩ := by
  obtain ⟨node, remaining, score⟩ := r
  unfold BestSearch.step resultOf
  rw [if_neg hlooked]
  simp only [h, bind, Except.bind]
  by_cases hnone : remaining.length = requests.length
  · simp only [hnone, if_true, Option.toList_none, List.append_nil]
    rfl
  · simp only [hnone, if_false]
    rfl

theorem filter_append_resultOf (p : ℕ → Bool) (results : List ScheduleResult) (e : SchedulingNode × ℕ) :
    (results ++ (resultOf requests source e).toList).filter (fun r => p r.idx) =
      results.filter (fun r => p r.idx) ++ if p e.2 then (resultOf requests source e).toList
        else [] := by
  rw [List.filter_append]
  cases h : resultOf requests source e with
  | none => rw [Option.toList_none, List.filter_nil, ite_self]
  | some r =>
    rw [Option.toList_some, List.filter_singleton, idx_of_resultOf h]
    cases p e.2 <;> rfl

/-- The two loops over the nodes after some that are done: the states that were seen are those of
the nodes that do not run ray, and all of them were simulated. -/
theorem search_sameOutcome {rest : List SchedulingNode} (done : List SchedulingNode) {w : BestSearch}
    (hseen : ∀ node, w.seenStates.any (sameState source node) = done.any (fun other =>
      decide (other.imInstanceStatus ≠ some .rayRunning) && sameState source node other))
    (hsim : ∀ state ∈ w.seenStates, ∃ r, state.trySchedule requests source = .ok r)
    (hresults : w.results = results.filter (fun r => !isSkipped source (done ++ rest) r.idx)) :
    SameOutcome (fun w results => w.results = results.filter
      (fun r => !isSkipped source (done ++ rest) r.idx))
      ((rest.zipIdx done.length).foldlM (BestSearch.step requests source) w)
      ((rest.zipIdx done.length).foldlM (plainSearchStep requests source) results) := by
  induction rest generalizing done w results with
  | nil => exact hresults
  | cons node rest ih =>
    have happend : done ++ node :: rest = (done ++ [node]) ++ rest := by
      rw [List.append_assoc, List.singleton_append]
    have hlength : done.length + 1 = (done ++ [node]).length := by
      rw [List.length_append, List.length_singleton]
    have hskip : isSkipped source (done ++ node :: rest) done.length = _ :=
      isSkipped_append_cons done rest node
    rw [← hseen] at hskip
    have hany : ∀ other, (done ++ [node]).any (fun other' =>
        decide (other'.imInstanceStatus ≠ some .rayRunning) && sameState source other other') =
          (w.seenStates.any (sameState source other) ||
            decide (node.imInstanceStatus ≠ some .rayRunning) && sameState source other node) := by
      intro other
      rw [List.any_append, ← hseen other, List.any_cons, List.any_nil, Bool.or_false]
    rw [List.zipIdx_cons, List.foldlM_cons, List.foldlM_cons]
    by_cases hseenNode : node.imInstanceStatus ≠ some .rayRunning ∧
      w.seenStates.any (sameState source node) = true
    · -- a skipped node has the outcome of the state it is taken for, and what has its state has that state as well
      obtain ⟨hstatus, hseenNode⟩ := hseenNode
      obtain ⟨state, hstate, hsame⟩ := List.any_eq_true.mp hseenNode
      obtain ⟨r', hr'⟩ := hsim state hstate
      have hout := trySchedule_sameOutcome requests (alike_of_sameState hsame)
      rw [hr'] at hout
      cases htry : node.trySchedule requests source with
      | error err =>
        rw [htry] at hout
        exact hout.elim
      | ok r =>
        have hstep : w.step requests source (node, done.length) = .ok w := by
          unfold BestSearch.step
          rw [if_pos ⟨hstatus, hseenNode⟩]
        rw [hstep, plainSearchStep_eq htry, happend, hlength]
        refine ih _ ?_ hsim ?_
        · intro other
          rw [hany]
          cases hnode : sameState source other node with
          | false => rw [Bool.and_false, Bool.or_false]
          | true =>
            have hother : w.seenStates.any (sameState source other) = true :=
              List.any_eq_true.mpr ⟨state, hstate, sameState_trans hnode hsame⟩
            rw [hother, Bool.true_or]
        · rw [← happend,
            filter_append_resultOf (fun i => !isSkipped source (done ++ node :: rest) i), hskip,
            if_neg (by simp [hstatus, hseenNode]), List.append_nil, hresults]
    · have hlooked : (decide (node.imInstanceStatus ≠ some .rayRunning) &&
          w.seenStates.any (sameState source node)) = false := by
        rw [Bool.and_eq_false_iff, decide_eq_false_iff_not]
        by_cases hstatus : node.imInstanceStatus ≠ some .rayRunning
        · exact .inr (Bool.of_not_eq_true (fun hany => hseenNode ⟨hstatus, hany⟩))
        · exact .inl hstatus
      cases htry : node.trySchedule requests source with
      | error err =>
        have hstep : w.step requests source (node, done.length) = .error err := by
          unfold BestSearch.step
          rw [if_neg hseenNode]
          simp only [htry, bind, Except.bind]
        have hplain : plainSearchStep requests source results (node, done.length) = .error err := by
          unfold plainSearchStep
          simp only [htry, bind, Except.bind]
        rw [hstep, hplain]
        exact Eq.refl err
      | ok r =>
        rw [searchStep_eq hseenNode htry, plainSearchStep_eq htry, happend, hlength]
        refine ih _ ?_ ?_ ?_
        · intro other
          rw [hany]
          by_cases hstatus : node.imInstanceStatus = some .rayRunning
          · rw [if_pos hstatus]
            simp [hstatus]
          · rw [if_neg hstatus, List.any_cons, Bool.or_comm]
            simp [hstatus]
        · intro state hstate
          split_ifs at hstate with hstatus
          · exact hsim state hstate
          · obtain rfl | hstate := List.mem_cons.mp hstate
            · exact ⟨r, htry⟩
            · exact hsim state hstate
        · rw [← happend,
            filter_append_resultOf (fun i => !isSkipped source (done ++ node :: rest) i), hskip,
            hlooked, hresults]
          rfl

/-- Both loops fail alike, or the one with the cache has the results of the nodes that are not
skipped. -/
theorem search_cases (requests : List ResourceRequest) (nodes : List SchedulingNode)
    (source : ResourceRequestSource) :
    (∃ e, nodes.zipIdx.foldlM (BestSearch.step requests source) ⟨[], []⟩ = .error e ∧
        nodes.zipIdx.foldlM (plainSearchStep requests source) [] = .error e ∧
        ¬ Simulates requests source nodes.zipIdx) ∨
      Simulates requests source nodes.zipIdx ∧
        ∃ seen, nodes.zipIdx.foldlM (BestSearch.step requests source) ⟨[], []⟩ =
            .ok ⟨seen, (nodes.zipIdx.filterMap (resultOf requests source)).filter (fun r =>
              !isSkipped source nodes r.idx)⟩ ∧
          nodes.zipIdx.foldlM (plainSearchStep requests source) [] =
            .ok (nodes.zipIdx.filterMap (resultOf requests source)) := by
  have hout : SameOutcome
    (fun w results => w.results = results.filter (fun r => !isSkipped source nodes r.idx))
      (nodes.zipIdx.foldlM (BestSearch.step requests source) ⟨[], []⟩)
      (nodes.zipIdx.foldlM (plainSearchStep requests source) []) :=
    search_sameOutcome [] (fun _ => rfl) (by simp) rfl
  cases hplain : nodes.zipIdx.foldlM (plainSearchStep requests source) [] with
  | error e =>
    rw [hplain] at hout
    cases hcached : nodes.zipIdx.foldlM (BestSearch.step requests source) ⟨[], []⟩ with
    | error e' =>
      rw [hcached] at hout
      refine .inl ⟨e', rfl, congrArg _ (Eq.symm hout), fun hsim => ?_⟩
      rw [plainSearch_eq_ok_iff.mpr ⟨hsim, rfl⟩] at hplain
      cases hplain
    | ok w =>
      rw [hcached] at hout
      exact hout.elim
  | ok results =>
    obtain ⟨hsim, rfl⟩ := plainSearch_eq_ok_iff.mp hplain
    rw [hplain] at hout
    cases hcached : nodes.zipIdx.foldlM (BestSearch.step requests source) ⟨[], []⟩ with
    | error e' =>
      rw [hcached] at hout
      exact hout.elim
    | ok w =>
      rw [hcached] at hout
      obtain ⟨seen, results⟩ := w
      subst hout
      exact .inr ⟨hsim, seen, rfl, rfl⟩

/-! ### When the cache keeps the decision -/

theorem results_pairwise (requests : List ResourceRequest) (nodes : List SchedulingNode)
    (source : ResourceRequestSource) :
    (nodes.zipIdx.filterMap (resultOf requests source)).Pairwise (fun r r' => r.idx < r'.idx) := by
  have hidx : nodes.zipIdx.Pairwise (fun e e' => e.2 < e'.2) := by
    have hrange : (List.range' 0 nodes.length).Pairwise (· < ·) := List.pairwise_lt_range'
    rw [← List.zipIdx_map_snd, List.pairwise_map] at hrange
    exact hrange
  rw [List.pairwise_filterMap]
  refine hidx.imp ?_
  intro e e' hlt r hr r' hr'
  rw [idx_of_resultOf hr, idx_of_resultOf hr']
  exact hlt

/-- What the caller uses of the best result. -/
def ScheduleResult.decision (r : ScheduleResult) : ℕ × SchedulingNode × List ResourceRequest :=
  (r.idx, r.node, r.infeasibleRequests)

/-- The results stand at different places, so that the decision is which of them is the best. -/
theorem map_decision_inj (hpairwise : results.Pairwise (fun r r' => r.idx < r'.idx))
    {best best' : Option ScheduleResult} (h : ∀ r, best = some r → r ∈ results)
    (h' : ∀ r, best' = some r → r ∈ results) :
    best.map (·.decision) = best'.map (·.decision) ↔ best = best' := by
  refine ⟨fun heq => ?_, congrArg _⟩
  have hnodup : (results.map (·.idx)).Nodup := (List.pairwise_map.mpr hpairwise).imp Nat.ne_of_lt
  cases best with
  | none =>
    cases best' with
    | none => rfl
    | some r' => cases heq
  | some r =>
    cases best' with
    | none => cases heq
    | some r' =>
      have hidx : r.idx = r'.idx := congrArg Prod.fst (Option.some.inj heq)
      rw [List.inj_on_of_nodup_map hnodup (h r rfl) (h' r' rfl) hidx]

/-- The result `r'` ranks before `r`. -/
def RanksBefore (ctx : ScheduleContext) (r' r : ScheduleResult) : Prop :=
  Leads (fun r => OrderDual.toDual (rankResult ctx r)) (·.idx) r' r

theorem bestResult_filter_iff (ctx : ScheduleContext)
    (hpairwise : results.Pairwise (fun r r' => r.idx < r'.idx)) (p : ScheduleResult → Bool) :
    (bestResult ctx (results.filter p)).map (·.decision) = (bestResult ctx results).map (·.decision) ↔
      ∀ r ∈ results, p r = false → ∃ r' ∈ results, p r' = true ∧ RanksBefore ctx r' r := by
  rw [map_decision_inj hpairwise]
  · exact head?_sortBy_filter hpairwise p
  · intro r hr
    exact List.mem_of_mem_filter (leads_of_head? (hpairwise.filter p) hr).1
  · intro r hr
    exact (leads_of_head? hpairwise hr).1

end

variable {source : ResourceRequestSource}

/-- A node is skipped for an earlier node of the same state that is simulated. -/
theorem exists_looked {nodes : List SchedulingNode} {i : ℕ} (h : isSkipped source nodes i = true) :
    ∃ j node other, nodes[i]? = some node ∧ nodes[j]? = some other ∧ j < i ∧
    node.imInstanceStatus ≠ some .rayRunning ∧
      other.imInstanceStatus ≠ some .rayRunning ∧ sameState source node other = true ∧
      isSkipped source nodes j = false := by
  induction i using Nat.strong_induction_on with
  | _ i ih =>
    unfold isSkipped at h
    cases hnode : nodes[i]? with
    | none =>
      rw [hnode] at h
      cases h
    | some node =>
      rw [hnode, Bool.and_eq_true, decide_eq_true_iff, List.any_eq_true] at h
      obtain ⟨hstatus, other, hmem, hother⟩ := h
      rw [Bool.and_eq_true, decide_eq_true_iff] at hother
      obtain ⟨j, hj⟩ := List.mem_iff_getElem?.mp hmem
      rw [List.getElem?_take] at hj
      split_ifs at hj with hlt
      cases hskipped : isSkipped source nodes j with
      | false => exact ⟨j, node, other, rfl, hj, hlt, hstatus, hother.1, hother.2, hskipped⟩
      | true =>
        obtain ⟨k, node', first, hnode', hfirst, hlt', -, hstatus', hsame, hlooked⟩ := ih j hlt hskipped
        rw [hj] at hnode'
        cases hnode'
        exact ⟨k, node, first, rfl, hfirst, hlt'.trans hlt, hstatus, hstatus',
          sameState_trans hother.2 hsame,
          hlooked⟩

theorem resultOf_alike {requests recorded recorded' : List ResourceRequest}
    {node other : SchedulingNode} (h : Alike source recorded recorded' node other) {i j : ℕ}
    {r : ScheduleResult}
    (hr : resultOf requests source (node, i) = some r) :
    ∃ r', resultOf requests source (other, j) = some r' ∧ r.node.nodeType = r'.node.nodeType ∧
      (SameRecords recorded recorded' → r.score = r'.score) ∧ r.node.priority = node.priority ∧
      r'.node.priority = other.priority := by
  have hpriority : ∀ {node n : SchedulingNode} {remaining : List ResourceRequest}
      {score : SchedulingNode.UtilizationScore}, node.trySchedule requests source =
        .ok (n, remaining, score) →
      n.priority = node.priority := by
    intro node n remaining score h
    refine (placements_of_tryScheduleNode (N := fun _ => False) h).keeps
      (P := fun n => n.priority = node.priority)
      (fun hplaced hn => ?_) (fun _ h => h.elim) (List.forall_mem_singleton.mpr rfl) n
        (List.mem_singleton_self n)
    rw [hplaced.eq]
    exact hn
  have hout := trySchedule_sameOutcome requests h
  unfold resultOf at hr ⊢
  cases htry : node.trySchedule requests source with
  | error err =>
    simp only [htry] at hr
    cases hr
  | ok x =>
    cases htry' : other.trySchedule requests source with
    | error err =>
      rw [htry, htry'] at hout
      exact hout.elim
    | ok x' =>
      rw [htry, htry'] at hout
      obtain ⟨n, remaining, score⟩ := x
      obtain ⟨n', remaining', score'⟩ := x'
      obtain ⟨halike, hremaining, hscore⟩ := hout
      simp only [htry] at hr
      split_ifs at hr with hnone
      cases hr
      refine ⟨⟨n', remaining', j, score'⟩, ?_, halike.nodeType, hscore, hpriority htry, hpriority htry'⟩
      simp only at hremaining
      rw [hremaining] at hnone
      simp only [hnone, if_false]

/-- The cache does not change the decision, nor what `_sched_best_node` returns, while nodes that do
not run ray and share a state also have alike requests recorded, and the priority of the earlier one
is no lower. -/
theorem nodeStateCache_of_sameRecords (ctx : ScheduleContext) (requests : List ResourceRequest)
    (nodes : List SchedulingNode) (source : ResourceRequestSource)
    (h : ∀ (i j : ℕ) (node other : SchedulingNode), nodes[i]? = some node →
      nodes[j]? = some other → j < i →
      node.imInstanceStatus ≠ some .rayRunning → other.imInstanceStatus ≠ some .rayRunning →
      sameState source node other = true →
      SameRecords (node.schedRequests.get source) (other.schedRequests.get source) ∧
      node.priority ≤ other.priority) :
    (bestCached ctx requests nodes source).map (Option.map (·.decision)) =
        (bestPlain ctx requests nodes source).map (Option.map (·.decision)) ∧
      schedBestNode ctx requests nodes source = (bestPlain ctx requests nodes source).map
        (Option.map (fun best => (best.node, best.infeasibleRequests, nodes.eraseIdx best.idx))) := by
  suffices hdecision : (bestCached ctx requests nodes source).map (Option.map (·.decision)) =
      (bestPlain ctx requests nodes source).map (Option.map (·.decision)) by
    have hmap := congrArg (Except.map (Option.map (fun d : ℕ × SchedulingNode × List ResourceRequest =>
      (d.2.1, d.2.2, nodes.eraseIdx d.1)))) hdecision
    refine ⟨hdecision, ?_⟩
    rw [schedBestNode_eq_bestCached]
    generalize bestCached ctx requests nodes source = cached at hmap ⊢
    generalize bestPlain ctx requests nodes source = plain at hmap ⊢
    cases cached <;> cases plain <;>
      simp [Except.map, Function.comp_def, ScheduleResult.decision] at hmap ⊢ <;> exact hmap
  unfold bestCached bestPlain
  obtain ⟨err, hcached, hplain, -⟩ | ⟨-, seen, hcached, hplain⟩ := search_cases requests nodes source
  · rw [hcached, hplain]
    rfl
  · rw [hcached, hplain]
    show Except.ok _ = Except.ok _
    rw [Except.ok.injEq, bestResult_filter_iff ctx (results_pairwise requests nodes source)]
    intro r hr hskipped
    obtain ⟨⟨n, i⟩, he, hr⟩ := List.mem_filterMap.mp hr
    have hidx := idx_of_resultOf hr
    rw [hidx, Bool.not_eq_false'] at hskipped
    obtain ⟨j, node, other, hi, hj, hlt, hstatus, hstatus', hsame, hlooked⟩ := exists_looked hskipped
    obtain ⟨hrecords, hpriority⟩ := h i j node other hi hj hlt hstatus hstatus' hsame
    rw [List.mk_mem_zipIdx_iff_getElem?] at he
    rw [show nodes[(n, i).2]? = some n from he] at hi
    cases hi
    obtain ⟨r', hr', htype, hscore, hnode, hother⟩ :=
      resultOf_alike (j := j) (alike_of_sameState hsame) hr
    have hidx' := idx_of_resultOf hr'
    refine ⟨r', List.mem_filterMap.mpr ⟨(other, j), List.mk_mem_zipIdx_iff_getElem?.mpr hj, hr'⟩,
      ?_, .inr ⟨?_, ?_⟩⟩
    · rw [hidx', hlooked]
      rfl
    · rw [OrderDual.toDual_le_toDual]
      unfold rankResult
      rw [htype, hscore hrecords]
      refine Prod.Lex.toLex_le_toLex'.mpr ⟨le_rfl, fun _ => ?_⟩
      refine Prod.Lex.toLex_le_toLex'.mpr ⟨le_rfl, fun _ => ?_⟩
      refine Prod.Lex.toLex_le_toLex'.mpr ⟨?_, fun _ => le_rfl⟩
      show r.node.priority ≤ r'.node.priority
      rw [hnode, hother]
      exact hpriority
    · show r'.idx < r.idx
      rw [hidx, hidx']
      exact hlt

/-- The context when the resource requests are scheduled. -/
def demandContext (req : SchedulingRequest) : Except AutoscalerError ScheduleContext := do
  let ctx ← enforceCounts req
  let (ctx, _) ← enforceResourceConstraints ctx req.clusterResourceConstraints
  let (ctx, _) ← schedGangResourceRequests ctx req.gangResourceRequests
  return ctx

/-- A worker in `zone` a. -/
def zoneConfig : NodeTypeConfig :=
  ⟨"worker", 0, 2, by decide, none, 0, (Dict.empty.set "CPU" 1).set "memory" 2,
    Dict.empty.set "zone" "a", ""⟩

/-- The node of an instance of the worker type. -/
def zoneNode (id : String) : SchedulingNode :=
  .fromNodeConfig zoneConfig .schedulable .worker (some id) (some .allocated)

/-- An instance of the worker type that does not run ray yet. -/
def allocatedInstance (id : String) : AutoscalerInstance where
  cloudInstanceId := some id
  rayNode := none
  imInstance := some ⟨id, id, "", .allocated, "worker", 0, [], "", .worker, ""⟩

/-- One placement group asks for a CPU in `zone` a, another for a CPU anywhere, and a task for
memory. -/
def zoneRequest : SchedulingRequest where
  disableLaunchConfigCheck := false
  nodeTypeConfigs := ⟨Dict.empty.set "worker" zoneConfig, by decide⟩
  maxNumNodes := none
  idleTimeoutS := none
  resourceRequests := [⟨⟨Dict.empty.set "memory" 1, [], []⟩, 1⟩]
  gangResourceRequests := [⟨[⟨Dict.empty.set "CPU" 1, [], [⟨[⟨"zone", .labelIn, ["a"]⟩]⟩]⟩], []⟩,
    ⟨[⟨Dict.empty.set "CPU" 1, [], []⟩], []⟩]
  clusterResourceConstraints := []
  currentInstances := [allocatedInstance "x", allocatedInstance "y"]
  cloudResourceAvailabilities := Dict.empty
  recoverableResourceAvailabilities := Dict.empty
  ipprSpecs := none
  ipprStatuses := Dict.empty

/-- Two instances that share a state, with nothing recorded. -/
theorem nodeStateCache_of_sameRecords_zone :
    schedBestNode (.fromScheduleRequest zoneRequest) (ungroupByCount zoneRequest.resourceRequests)
        [zoneNode "x", zoneNode "y"] .pendingDemand =
      (bestPlain (.fromScheduleRequest zoneRequest) (ungroupByCount zoneRequest.resourceRequests)
        [zoneNode "x", zoneNode "y"] .pendingDemand).map (Option.map (fun best =>
          (best.node, best.infeasibleRequests, [zoneNode "x", zoneNode "y"].eraseIdx best.idx))) := by
  have hnode : ∀ node ∈ [zoneNode "x", zoneNode "y"],
      node.schedRequests.get .pendingDemand = [] ∧ node.priority = 0 := by
    intro node hnode
    obtain rfl | hnode := List.mem_cons.mp hnode
    · exact ⟨rfl, rfl⟩
    · rw [List.mem_singleton.mp hnode]
      exact ⟨rfl, rfl⟩
  refine (nodeStateCache_of_sameRecords _ _ _ _ ?_).2
  intro i j node other hi hj _ _ _ _
  obtain ⟨hrecords, hpriority⟩ := hnode node (List.mem_of_getElem? hi)
  obtain ⟨hrecords', hpriority'⟩ := hnode other (List.mem_of_getElem? hj)
  rw [hrecords, hrecords', hpriority, hpriority']
  exact ⟨⟨rfl, rfl, fun _ => Iff.rfl⟩, le_rfl⟩

/-- The request for memory goes to the first instance, and without the cache it would go to the
second: that one has the first placement group, so that its label counts. -/
theorem nodeStateCache_changes_decision : ∃ ctx, demandContext zoneRequest = .ok ctx ∧
    (bestCached ctx (ungroupByCount zoneRequest.resourceRequests)
      (ctx.nodes.map useDesired) .pendingDemand).map
        (Option.map (·.decision)) ≠
      (bestPlain ctx (ungroupByCount zoneRequest.resourceRequests)
        (ctx.nodes.map useDesired) .pendingDemand).map
        (Option.map (·.decision)) := by
  have hidx : (do
      let ctx ← demandContext zoneRequest
      let best ← bestCached ctx (ungroupByCount zoneRequest.resourceRequests)
        (ctx.nodes.map useDesired) .pendingDemand
      let best' ← bestPlain ctx (ungroupByCount zoneRequest.resourceRequests)
        (ctx.nodes.map useDesired) .pendingDemand
      return (best.map (·.idx), best'.map (·.idx)) :
        Except AutoscalerError (Option ℕ × Option ℕ)).toOption =
        some (some 0, some 1) := by decide +kernel
  cases hctx : demandContext zoneRequest with
  | error e =>
    rw [hctx] at hidx
    cases hidx
  | ok ctx =>
    refine ⟨ctx, rfl, fun heq => ?_⟩
    simp only [hctx, bind, Except.bind] at hidx
    cases hcached : bestCached ctx (ungroupByCount zoneRequest.resourceRequests)
      (ctx.nodes.map useDesired)
        .pendingDemand with
    | error e =>
      simp only [hcached] at hidx
      cases hidx
    | ok best =>
      cases hplain : bestPlain ctx (ungroupByCount zoneRequest.resourceRequests)
        (ctx.nodes.map useDesired)
          .pendingDemand with
      | error e =>
        simp only [hcached, hplain] at hidx
        cases hidx
      | ok best' =>
        simp only [hcached, hplain] at hidx
        rw [hcached, hplain] at heq
        have hdecision : best.map (·.decision) = best'.map (·.decision) := Except.ok.inj heq
        have hsame : best.map (·.idx) = best'.map (·.idx) := by
          have hfst := congrArg (Option.map Prod.fst) hdecision
          rwa [Option.map_map, Option.map_map] at hfst
        obtain ⟨hfirst, hsecond⟩ := Prod.mk.inj (Option.some.inj hidx)
        rw [hfirst, hsecond] at hsame
        cases hsame

end RayTfm.Autoscaler
