import RayTfm.Autoscaler.SchedulerPlacements

/-! # Where the demands go

Without in-place resizing `_try_schedule` is a run of placements, so that the passes over the
demands lose no request and record none twice, and on each node requests are placed that fit into it
and keep apart (`schedDemands_accounted`). -/

namespace RayTfm.Autoscaler

/-! ### One call of `_try_schedule` -/

section
variable {source : ResourceRequestSource} {N : SchedulingNode → Prop} {ctx : ScheduleContext}
  {nodes nodes' : List SchedulingNode} {requests remaining : List ResourceRequest}

/-- The best node is one of the nodes, with the requests that it takes. -/
theorem placements_of_schedBestNode {best : SchedulingNode} {rest : List SchedulingNode}
    (h : schedBestNode ctx requests nodes source = .ok (some (best, remaining, rest))) :
    ∃ node, nodes.Perm (node :: rest) ∧ Placements source N [node] requests [best] remaining := by
  obtain ⟨w, hw, h⟩ := bind_eq_ok.mp h
  have hresults : ∀ r ∈ w.results, ∃ node, nodes[r.idx]? = some node ∧
      Placements source N [node] requests [r.node] r.infeasibleRequests := by
    refine foldlM_inv (P := fun _ w => ∀ r ∈ w.results, ∃ node, nodes[r.idx]? = some node ∧
      Placements source N [node] requests [r.node] r.infeasibleRequests) (by simp) ?_ hw
    intro _ e w w' he hkept hstep
    unfold BestSearch.step at hstep
    split_ifs at hstep
    · cases hstep
      exact hkept
    all_goals
      obtain ⟨found, hfound, hstep⟩ := bind_eq_ok.mp hstep
      dsimp only at hstep
      split_ifs at hstep
      · cases hstep
        exact hkept
      · cases hstep
        intro r hr
        obtain hr | hr := List.mem_append.mp hr
        · exact hkept r hr
        · rw [List.mem_singleton.mp hr]
          exact ⟨e.1, List.mem_zipIdx_iff_getElem?.mp he, placements_of_tryScheduleNode hfound⟩
  cases hsort : sortBy (fun r => OrderDual.toDual (rankResult ctx r)) w.results with
  | nil =>
    rw [hsort] at h
    cases h
  | cons r results =>
    rw [hsort] at h
    cases h
    have hr : r ∈ w.results := (isStableSort_sortBy _ _).perm.mem_iff.mp (hsort ▸ List.mem_cons_self)
    obtain ⟨node, hnode, hplaced⟩ := hresults r hr
    obtain ⟨hlt, rfl⟩ := List.getElem?_eq_some_iff.mp hnode
    exact ⟨_, (List.getElem_cons_eraseIdx_perm hlt).symm, hplaced⟩

theorem placements_of_schedOnNodes {fuel : ℕ} {w w' : Trying}
    (h : schedOnNodes ctx source id fuel w = .ok w') :
    Placements source N (w.targetNodes ++ w.nodes) w.requests (w'.targetNodes ++ w'.nodes)
      w'.requests := by
  induction fuel generalizing w with
  | zero =>
    cases h
    exact .of_perm .rfl .rfl
  | succ fuel ih =>
    unfold schedOnNodes at h
    split_ifs at h
    · cases h
      exact .of_perm .rfl .rfl
    obtain ⟨found, hfound, h⟩ := bind_eq_ok.mp h
    obtain _ | ⟨best, remaining, rest⟩ := found
    · cases h
      exact .of_perm .rfl .rfl
    obtain ⟨node, hperm, hplaced⟩ := placements_of_schedBestNode (N := N) hfound
    have hround := hplaced.frame (w.targetNodes ++ rest) []
    rw [List.append_nil, List.append_nil] at hround
    have hbefore : (w.targetNodes ++ w.nodes).Perm ([node] ++ (w.targetNodes ++ rest)) :=
      (hperm.append_left _).trans List.perm_middle
    have hafter : ([best] ++ (w.targetNodes ++ rest)).Perm ((w.targetNodes ++ [best]) ++ rest) := by
      rw [← List.append_assoc]
      exact List.perm_append_comm.append_right rest
    exact ((Placements.of_perm hbefore .rfl).trans hround).trans
      ((Placements.of_perm hafter .rfl).trans (ih h))

theorem placements_of_schedOnNewNodes
    (hnew : ∀ nodeType node, toLaunchNodeWithIpprCaps ctx nodeType = .ok node → N node)
    {fuel : ℕ} {w w' : Launching} (h : schedOnNewNodes ctx source fuel w = .ok w')
    (hpool : ∀ node ∈ w.nodePools, N node) :
    Placements source N w.targetNodes w.requests w'.targetNodes w'.requests := by
  induction fuel generalizing w with
  | zero =>
    cases h
    exact .of_perm .rfl .rfl
  | succ fuel ih =>
    unfold schedOnNewNodes at h
    split_ifs at h
    · cases h
      exact .of_perm .rfl .rfl
    obtain ⟨found, hfound, h⟩ := bind_eq_ok.mp h
    obtain _ | ⟨best, remaining, rest⟩ := found
    · cases h
      exact .of_perm .rfl .rfl
    obtain ⟨newNodes, hnext, h⟩ := bind_eq_ok.mp h
    obtain ⟨node, hperm, hplaced⟩ := placements_of_schedBestNode (N := N) hfound
    have hpools : ∀ n ∈ node :: rest, N n := fun n hn => hpool n (hperm.mem_iff.mpr hn)
    have hnewNodes : ∀ n ∈ newNodes, N n := by
      unfold nextPoolNodes at hnext
      split_ifs at hnext
      · obtain ⟨n, hn, hnext⟩ := bind_eq_ok.mp hnext
        cases hnext
        exact List.forall_mem_singleton.mpr (hnew _ _ hn)
      · cases hnext
        exact fun _ hn => absurd hn List.not_mem_nil
    have hround := hplaced.frame w.targetNodes []
    rw [List.append_nil, List.append_nil] at hround
    have hlaunch : Placements source N w.targetNodes w.requests (node :: w.targetNodes) w.requests :=
      .launch (hpools node (.head _)) _ _
    refine (hlaunch.trans hround).trans
      ((Placements.of_perm (List.perm_append_singleton best _).symm .rfl).trans
      (ih h fun n hn => ?_))
    obtain hn | hn := List.mem_append.mp hn
    · exact hpools n (.tail _ hn)
    · exact hnewNodes n hn

/-- A node that can be launched. -/
def IsNewNode (configs : NodeTypeConfigs) (node : SchedulingNode) : Prop :=
  ∃ name config, configs.configs.get? name = some config ∧
  node = .fromNodeConfig config .toLaunch .worker none none

theorem isNewNode_of_toLaunch (hspecs : ctx.ipprSpecs = none) {nodeType : String}
    {node : SchedulingNode}
    (h : toLaunchNodeWithIpprCaps ctx nodeType = .ok node) : IsNewNode ctx.nodeTypeConfigs node := by
  unfold toLaunchNodeWithIpprCaps at h
  rw [hspecs] at h
  cases hconfig : ctx.nodeTypeConfigs.configs.get? nodeType with
  | none =>
    rw [hconfig] at h
    cases h
  | some config =>
    rw [hconfig] at h
    cases h
    exact ⟨nodeType, config, hconfig, rfl⟩

/-- `_try_schedule` is a run of placements. -/
theorem placements_of_trySchedule (hspecs : ctx.ipprSpecs = none)
    (hnodes : ∀ n ∈ ctx.nodes, n.ipprStatus = none)
    (h : trySchedule ctx requests source = .ok (nodes', remaining)) :
    Placements source (IsNewNode ctx.nodeTypeConfigs) ctx.nodes requests nodes' remaining := by
  obtain ⟨w, hw, h⟩ := bind_eq_ok.mp h
  have hdesired : ctx.nodes.map useDesired = ctx.nodes := by
    rw [List.map_congr_left (g := id) (fun n hn => ?_), List.map_id]
    unfold useDesired
    rw [hnodes n hn]
    rfl
  rw [hdesired] at hw
  have hexisting : ∀ n ∈ w.targetNodes ++ w.nodes, canResizeUp n = false := by
    intro n hn
    have hnone := (placements_of_schedOnNodes (N := fun _ => False) hw).keeps
      (P := fun n => n.ipprStatus = none)
      (fun hplaced hn => by rw [hplaced.eq]; exact hn) (fun _ hfalse => hfalse.elim) hnodes n hn
    unfold canResizeUp
    rw [hnone]
    rfl
  have hcandidates : (w.targetNodes ++ w.nodes).filter canResizeUp = [] :=
    List.filter_eq_nil_iff.mpr (fun n hn => by rw [hexisting n hn]; exact Bool.false_ne_true)
  have hothers : (w.targetNodes ++ w.nodes).filter (fun n => !canResizeUp n) =
    w.targetNodes ++ w.nodes :=
    List.filter_eq_self.mpr (fun n hn => by rw [hexisting n hn]; rfl)
  dsimp only at h
  rw [hcandidates, hothers] at h
  obtain ⟨resized, hresized, h⟩ := bind_eq_ok.mp h
  cases hresized
  obtain ⟨nodePools, hpools, h⟩ := bind_eq_ok.mp h
  obtain ⟨launched, hlaunched, h⟩ := bind_eq_ok.mp h
  cases h
  have hpool : ∀ n ∈ nodePools, IsNewNode ctx.nodeTypeConfigs n := by
    intro n hn
    obtain ⟨nodeType, -, hnode⟩ := exists_of_mem_mapM hpools n hn
    exact isNewNode_of_toLaunch hspecs hnode
  have hsorted : requests.Perm
    (sortBy (fun req => OrderDual.toDual (sortResourceRequest req)) requests) :=
    (isStableSort_sortBy _ _).perm.symm
  have hnone : (w.targetNodes ++ w.nodes) ++ [] ++ notResized [] [] = w.targetNodes ++ w.nodes := by
    rw [List.append_nil]
    exact List.append_nil _
  have hlaunches := placements_of_schedOnNewNodes (fun _ _ => isNewNode_of_toLaunch hspecs)
    hlaunched hpool
  exact (Placements.of_perm .rfl hsorted).trans
    ((placements_of_schedOnNodes hw).trans (hnone ▸ hlaunches))

end

/-! ### Nodes and what they were made of -/

/-- The node has been made of `origin` by placing requests: they fit into what `origin` had
available, and none of them is to be apart from `origin` or from another one. -/
structure MadeOf (source : ResourceRequestSource) (origin node : SchedulingNode)
    (placed : List ResourceRequest) :
    Prop where
  schedRequests : node.schedRequests.get source = origin.schedRequests.get source ++ placed
  others : ∀ s, s ≠ source → node.schedRequests.get s = origin.schedRequests.get s
  nodeType : node.nodeType = origin.nodeType
  imInstanceId : node.imInstanceId = origin.imInstanceId
  ipprStatus : node.ipprStatus = origin.ipprStatus
  fits : placed.foldlM (fun available r => inplaceSubtract available r.resourcesBundle)
    (origin.availableResourcesForSched.get source) = .ok (node.availableResourcesForSched.get source)
  kept : ∀ label, origin.hasLabel label = true → node.hasLabel label = true
  labelled : ∀ r ∈ placed, ∀ label ∈ r.antiAffinities, node.hasLabel label = true
  apartFrom : ∀ r ∈ placed, ∀ label ∈ r.antiAffinities, origin.hasLabel label = false
  apart : placed.Pairwise (fun r r' => ∀ label ∈ r.antiAffinities, label ∉ r'.antiAffinities)

section
variable {source : ResourceRequestSource} {origin node node' : SchedulingNode}
    {placed : List ResourceRequest}
  {request : ResourceRequest}

theorem MadeOf.refl (source : ResourceRequestSource) (node : SchedulingNode) :
    MadeOf source node node [] where
  schedRequests := (List.append_nil _).symm
  others _ _ := rfl
  nodeType := rfl
  imInstanceId := rfl
  ipprStatus := rfl
  fits := rfl
  kept _ h := h
  labelled := nofun
  apartFrom := nofun
  apart := .nil

theorem MadeOf.place (h : MadeOf source origin node placed)
    (hplaced : PlacedOn source node request node') :
    MadeOf source origin node' (placed ++ [request]) where
  schedRequests := by rw [hplaced.schedRequests, if_pos rfl, h.schedRequests, List.append_assoc]
  others s hs := by rw [hplaced.schedRequests, if_neg hs, List.append_nil, h.others s hs]
  nodeType := by rw [hplaced.eq]; exact h.nodeType
  imInstanceId := by rw [hplaced.eq]; exact h.imInstanceId
  ipprStatus := by rw [hplaced.eq]; exact h.ipprStatus
  fits := by
    rw [List.foldlM_append, h.fits, ok_bind, List.foldlM_cons, hplaced.subtract]
    rfl
  kept label hlabel := hplaced.kept label (h.kept label hlabel)
  labelled := List.forall_mem_append.mpr
    ⟨fun r hr label hlabel => hplaced.kept label (h.labelled r hr label hlabel),
    List.forall_mem_singleton.mpr hplaced.labelled⟩
  apartFrom := List.forall_mem_append.mpr
    ⟨h.apartFrom, List.forall_mem_singleton.mpr (fun label hlabel =>
    Bool.eq_false_iff.mpr
      (fun horigin => Bool.eq_false_iff.mp (hplaced.apart label hlabel) (h.kept label horigin)))⟩
  apart := List.pairwise_append.mpr
    ⟨h.apart, List.pairwise_singleton _ _, fun r hr => List.forall_mem_singleton.mpr
    (fun label hlabel hrequest =>
      Bool.eq_false_iff.mp (hplaced.apart label hrequest) (h.labelled r hr label hlabel))⟩

end

/-! ### The passes over the demands -/

/-- The nodes of `ctx'` are made of those of `ctx`, and of nodes that can be launched. -/
structure MadeFrom (ctx ctx' : ScheduleContext) : Prop where
  nodeTypeConfigs : ctx'.nodeTypeConfigs = ctx.nodeTypeConfigs
  ipprSpecs : ctx'.ipprSpecs = ctx.ipprSpecs
  nodes : ∀ node ∈ ctx'.nodes, ∃ origin placed,
    (origin ∈ ctx.nodes ∨ IsNewNode ctx.nodeTypeConfigs origin) ∧
    MadeOf .pendingDemand origin node placed

section
variable {ctx ctx' ctx'' : ScheduleContext} {requests infeasible : List ResourceRequest}

theorem MadeFrom.of_trySchedule (h : MadeFrom ctx ctx') (hspecs : ctx.ipprSpecs = none)
    (hnodes : ∀ n ∈ ctx.nodes, n.ipprStatus = none) {nodes : List SchedulingNode}
    (htry : trySchedule ctx' requests .pendingDemand = .ok (nodes, infeasible)) :
    MadeFrom ctx (ctx'.update nodes) ∧ (recordedOn .pendingDemand nodes ++ infeasible).Perm
      (recordedOn .pendingDemand ctx'.nodes ++ requests) := by
  have hnone : ∀ n ∈ ctx'.nodes, n.ipprStatus = none := by
    intro n hn
    obtain ⟨origin, placed, horigin | ⟨_, _, _, rfl⟩, hmade⟩ := h.nodes n hn
    · rw [hmade.ipprStatus, hnodes origin horigin]
    · rw [hmade.ipprStatus]
      rfl
  have hplaced := placements_of_trySchedule (h.ipprSpecs.trans hspecs) hnone htry
  rw [h.nodeTypeConfigs] at hplaced
  refine ⟨⟨h.nodeTypeConfigs, h.ipprSpecs, ?_⟩, hplaced.conserved ?_⟩
  · refine hplaced.keeps ?_ (fun n hn => ⟨n, [], .inr hn, .refl _ n⟩) h.nodes
    rintro n r n' hn ⟨origin, placed, horigin, hmade⟩
    exact ⟨origin, _, horigin, hmade.place hn⟩
  · rintro _ ⟨_, _, _, rfl⟩
    rfl

/-- The gangs are infeasible or recorded as a whole, and the requests are infeasible or recorded;
nothing else is recorded, and nothing twice. -/
def Accounted (ctx ctx' : ScheduleContext) (gangs infeasibleGangs : List GangResourceRequest)
    (requests infeasible : List ResourceRequest) : Prop :=
  ∃ feasible combined, (feasible ++ infeasibleGangs).Perm gangs ∧
    feasible.mapM (fun g => combineRequestsWithAffinity (gangRequests g)) = .ok combined ∧
    (recordedOn .pendingDemand ctx'.nodes ++ infeasible).Perm
      (recordedOn .pendingDemand ctx.nodes ++ combined.flatten ++ requests)

theorem schedGang_spec (hspecs : ctx.ipprSpecs = none) (hnodes : ∀ n ∈ ctx.nodes, n.ipprStatus = none)
    {gang : GangResourceRequest} {gangs : List GangResourceRequest}
    {w w' : ScheduleContext × List GangResourceRequest}
    (hmade : MadeFrom ctx w.1) (h : Accounted ctx w.1 gangs w.2 [] [])
    (hstep : schedGang w gang = .ok w') :
    MadeFrom ctx w'.1 ∧ Accounted ctx w'.1 (gangs ++ [gang]) w'.2 [] [] := by
  obtain ⟨requests, hrequests, hstep⟩ := bind_eq_ok.mp hstep
  obtain ⟨⟨nodes, remaining⟩, htry, hstep⟩ := bind_eq_ok.mp hstep
  obtain ⟨hmade', hplaced⟩ := hmade.of_trySchedule hspecs hnodes htry
  obtain ⟨feasible, combined, hperm, hcombined, hrecorded⟩ := h
  dsimp only at hstep
  split_ifs at hstep with hremaining
  · cases hstep
    refine ⟨hmade, feasible, combined, ?_, hcombined, hrecorded⟩
    rw [← List.append_assoc]
    exact hperm.append_right _
  · cases hstep
    rw [not_not] at hremaining
    subst hremaining
    rw [List.append_nil, List.append_nil] at hrecorded
    refine ⟨hmade', feasible ++ [gang], combined ++ [requests], ?_, ?_, ?_⟩
    · rw [List.append_assoc]
      exact (List.perm_middle.trans (List.perm_append_singleton _ _).symm).trans (hperm.append_right _)
    · rw [List.mapM_append, hcombined, ok_bind, List.mapM_cons, hrequests]
      rfl
    · rw [List.append_nil (_ ++ _), List.flatten_append, ← List.append_assoc, List.flatten_singleton]
      exact hplaced.trans (hrecorded.append_right _)

theorem schedGangResourceRequests_spec (hspecs : ctx.ipprSpecs = none)
    (hnodes : ∀ n ∈ ctx.nodes, n.ipprStatus = none)
    {gangs infeasible : List GangResourceRequest}
    (h : schedGangResourceRequests ctx gangs = .ok (ctx', infeasible)) :
    MadeFrom ctx ctx' ∧ Accounted ctx ctx' gangs infeasible [] [] := by
  have hstart : Accounted ctx ctx [] [] [] [] := ⟨[], [], .rfl, rfl, by simp⟩
  obtain ⟨hmade, feasible, combined, hperm, hrest⟩ :=
    foldlM_inv (P := fun done w => MadeFrom ctx w.1 ∧ Accounted ctx w.1 done w.2 [] [])
      ⟨⟨rfl, rfl, fun n hn => ⟨n, [], .inl hn, .refl _ n⟩⟩, hstart⟩
      (fun _ _ _ _ _ hw hstep => schedGang_spec hspecs hnodes hw.1 hw.2 hstep) h
  exact ⟨hmade, feasible, combined, hperm.trans (isStableSort_sortBy _ _).perm, hrest⟩

/-- The demands of placement groups and of tasks are accounted for, and each node afterwards is one
that was there, or that can be launched, on which requests were placed that fit into it and keep
apart. -/
theorem schedDemands_accounted (hspecs : ctx.ipprSpecs = none)
    (hnodes : ∀ n ∈ ctx.nodes, n.ipprStatus = none)
    {gangs infeasibleGangs : List GangResourceRequest}
    (hgangs : schedGangResourceRequests ctx gangs = .ok (ctx', infeasibleGangs))
    (hrequests : schedResourceRequests ctx' requests = .ok (ctx'', infeasible)) :
    MadeFrom ctx ctx'' ∧ Accounted ctx ctx'' gangs infeasibleGangs requests infeasible := by
  obtain ⟨hmade, feasible, combined, hperm, hcombined, hrecorded⟩ :=
    schedGangResourceRequests_spec hspecs hnodes hgangs
  obtain ⟨⟨nodes, remaining⟩, htry, hrequests⟩ := bind_eq_ok.mp hrequests
  cases hrequests
  obtain ⟨hmade', hplaced⟩ := hmade.of_trySchedule hspecs hnodes htry
  rw [List.append_nil, List.append_nil] at hrecorded
  exact ⟨hmade', feasible, combined, hperm, hcombined, hplaced.trans (hrecorded.append_right _)⟩

end

/-- There may be one worker, with one CPU. -/
def cpuContext : ScheduleContext where
  nodeTypeConfigs := ⟨Dict.empty.set "worker"
    ⟨"worker", 0, 1, by decide, none, 0, Dict.empty.set "CPU" 1, Dict.empty, ""⟩,
    by decide⟩
  disableLaunchConfigCheck := false
  maxNumNodes := none
  idleTimeoutS := none
  nodes := []
  ipprSpecs := none
  cloudResourceAvailabilities := Dict.empty
  recoverableResourceAvailabilities := Dict.empty

def cpuRequest : ResourceRequest := ⟨Dict.empty.set "CPU" 1, [], []⟩

theorem schedDemands_accounted_cpu :
    ∃ r r', schedGangResourceRequests cpuContext [⟨[cpuRequest], []⟩] = .ok r ∧
    schedResourceRequests r.1 [cpuRequest] = .ok r' ∧
    Accounted cpuContext r'.1 [⟨[cpuRequest], []⟩] r.2 [cpuRequest] r'.2 := by
  have hrun : (schedGangResourceRequests cpuContext [⟨[cpuRequest], []⟩] >>= fun r =>
      schedResourceRequests r.1 [cpuRequest]).isOk = true := by decide +kernel
  cases h : schedGangResourceRequests cpuContext [⟨[cpuRequest], []⟩] >>= fun r =>
      schedResourceRequests r.1 [cpuRequest] with
  | error e =>
    rw [h] at hrun
    cases hrun
  | ok r' =>
    obtain ⟨r, hgangs, hrequests⟩ := bind_eq_ok.mp h
    exact ⟨r, r', hgangs, hrequests,
      (schedDemands_accounted rfl (fun _ hn => absurd hn List.not_mem_nil) hgangs hrequests).2⟩

end RayTfm.Autoscaler
