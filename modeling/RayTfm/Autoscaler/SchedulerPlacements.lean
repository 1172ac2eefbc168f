import RayTfm.Autoscaler.ResourceDemandScheduler
import RayTfm.Lib.Reach

/-! # What a request does to a node

A request that is scheduled on a node takes from what is available of it and sets its labels
(`PlacedOn`); nothing else of the node changes.  What the scheduler does with many requests and
nodes is a run of single placements: no request is lost or recorded twice (`Placements.conserved`),
and what each placement keeps holds of every node (`Placements.keeps`). -/

namespace RayTfm.Autoscaler

variable {node node' : SchedulingNode}

theorem foldlM_addLabel {labels : List NodeLabel}
    (h : labels.foldlM SchedulingNode.addLabel node = .ok node') :
    node' = { node with labels := node'.labels } ∧ (∀ label ∈ labels, node'.hasLabel label = true) ∧
      ∀ label, node.hasLabel label = true → node'.hasLabel label = true := by
  refine foldlM_inv (P := fun done n => n = { node with labels := n.labels } ∧
    (∀ label ∈ done, n.hasLabel label = true) ∧ ∀ label, node.hasLabel label = true →
    n.hasLabel label = true)
    ⟨rfl, nofun, fun _ h => h⟩ ?_ h
  rintro done label n n' _ ⟨hn, hdone, hkept⟩ hstep
  obtain ⟨_, hassert, hstep⟩ := bind_eq_ok.mp hstep
  have hassert := of_decide_eq_true (assertThat_eq_ok.mp hassert)
  obtain rfl := (Except.ok.inj hstep).symm
  have hmono : ∀ other, n.hasLabel other = true →
      SchedulingNode.hasLabel { n with labels := n.labels.set label.labelName label.labelValue }
        other = true := by
    intro other hother
    unfold SchedulingNode.hasLabel at hother ⊢
    rw [decide_eq_true_eq] at hother ⊢
    rw [Dict.get?_set]
    split_ifs with hname
    · rw [hname] at hother
      rcases hassert with hnone | hsome
      · rw [hnone] at hother
        cases hother
      · rw [← hother, hsome]
    · exact hother
  refine ⟨?_, fun other hother => ?_, fun other hother => hmono other (hkept other hother)⟩
  · rw [hn]
  · rcases List.mem_append.mp hother with hother | hother
    · exact hmono other (hdone other hother)
    · rw [List.mem_singleton.mp hother]
      unfold SchedulingNode.hasLabel
      rw [decide_eq_true_eq]
      exact Dict.get?_set_self _ _ _

/-- What a node is whose request was scheduled. -/
structure PlacedOn (source : ResourceRequestSource) (node : SchedulingNode) (request : ResourceRequest)
    (node' : SchedulingNode) : Prop where
  apart : ∀ label ∈ request.antiAffinities, node.hasLabel label = false
  fits : fits (node.availableResourcesForSched.get source) request.resourcesBundle = true
  subtract : inplaceSubtract (node.availableResourcesForSched.get source) request.resourcesBundle =
    .ok (node'.availableResourcesForSched.get source)
  eq : node' = { node with
    availableResourcesForSched :=
      node.availableResourcesForSched.set (node'.availableResourcesForSched.get source) source
    schedRequests := node.schedRequests.set (node.schedRequests.get source ++ [request]) source
    labels := node'.labels }
  labelled : ∀ label ∈ request.antiAffinities, node'.hasLabel label = true
  kept : ∀ label, node.hasLabel label = true → node'.hasLabel label = true

theorem tryScheduleOne_eq_some {source : ResourceRequestSource} {request : ResourceRequest}
    (h : node.tryScheduleOne request source = .ok (some node')) :
    PlacedOn source node request node' := by
  unfold SchedulingNode.tryScheduleOne at h
  split_ifs at h with hselectors hlabels hfits
  · cases h
  · cases h
  · cases h
  obtain ⟨available, hsubtract, h⟩ := bind_eq_ok.mp h
  obtain ⟨n, hn, h⟩ := bind_eq_ok.mp h
  obtain rfl := Option.some.inj (Except.ok.inj h)
  obtain ⟨heq, hlabelled, hkept⟩ := foldlM_addLabel hn
  have havailable : n.availableResourcesForSched.get source = available := by
    rw [heq]
    exact BySource.get_set_self _ _ _
  refine ⟨fun label hlabel => ?_, Bool.of_not_eq_false hfits, ?_, ?_, hlabelled, hkept⟩
  · rw [Bool.not_eq_true, List.any_eq_false] at hlabels
    exact Bool.of_not_eq_true (hlabels label hlabel)
  · rw [havailable]
    exact hsubtract
  · rw [havailable]
    exact heq

/-! ### Placements -/

/-- A request goes to a node that takes it, or a node joins. -/
inductive Placement (source : ResourceRequestSource) (isNew : SchedulingNode → Prop) :
    Multiset SchedulingNode × Multiset ResourceRequest →
    Multiset SchedulingNode × Multiset ResourceRequest → Prop where
  | place {node node' : SchedulingNode} {request : ResourceRequest} (nodes : Multiset SchedulingNode)
      (requests : Multiset ResourceRequest) (h : PlacedOn source node request node') :
      Placement source isNew (node ::ₘ nodes, request ::ₘ requests) (node' ::ₘ nodes, requests)
  | launch {node : SchedulingNode} (nodes : Multiset SchedulingNode)
      (requests : Multiset ResourceRequest)
      (h : isNew node) : Placement source isNew (nodes, requests) (node ::ₘ nodes, requests)

/-- A run of placements, from the nodes and requests of two lists to those of two others. -/
def Placements (source : ResourceRequestSource) (isNew : SchedulingNode → Prop)
    (nodes : List SchedulingNode)
    (requests : List ResourceRequest) (nodes' : List SchedulingNode)
    (requests' : List ResourceRequest) : Prop :=
  Relation.ReflTransGen (Placement source isNew) (nodes, requests) (nodes', requests')

section
variable {source : ResourceRequestSource} {N : SchedulingNode → Prop}
    {nodes nodes' nodes'' : List SchedulingNode}
  {requests requests' requests'' : List ResourceRequest}

theorem Placements.of_perm (hnodes : nodes.Perm nodes') (hrequests : requests.Perm requests') :
    Placements source N nodes requests nodes' requests' := by
  unfold Placements
  rw [Multiset.coe_eq_coe.mpr hnodes, Multiset.coe_eq_coe.mpr hrequests]

theorem Placements.trans (h : Placements source N nodes requests nodes' requests')
    (h' : Placements source N nodes' requests' nodes'' requests'') :
    Placements source N nodes requests nodes'' requests'' :=
  Relation.ReflTransGen.trans h h'

/-- Other nodes and requests may stand beside. -/
theorem Placements.frame (h : Placements source N nodes requests nodes' requests')
    (others : List SchedulingNode)
    (more : List ResourceRequest) :
    Placements source N (nodes ++ others) (requests ++ more) (nodes' ++ others)
      (requests' ++ more) := by
  let beside : Multiset SchedulingNode × Multiset ResourceRequest := (others, more)
  have hstep : ∀ a b, Placement source N a b → Placement source N (a + beside) (b + beside) := by
    intro a b hab
    cases hab with
    | place nodes requests h =>
      simpa only [beside, Prod.mk_add_mk, Multiset.cons_add] using
        (Placement.place (nodes + others) (requests + more) h : Placement source N _ _)
    | launch nodes requests h =>
      simpa only [beside, Prod.mk_add_mk, Multiset.cons_add] using
        (Placement.launch (nodes + others) (requests + more) h : Placement source N _ _)
  exact Relation.ReflTransGen.lift (· + beside) hstep _ _ h

theorem Placements.keeps {P : SchedulingNode → Prop}
    (h : Placements source N nodes requests nodes' requests')
    (hplaced : ∀ {n r n'}, PlacedOn source n r n' → P n → P n') (hnew : ∀ n, N n → P n)
    (hnodes : ∀ n ∈ nodes, P n) :
    ∀ n ∈ nodes', P n := by
  have hrun : ∀ b, Relation.ReflTransGen (Placement source N) (↑nodes, ↑requests) b →
    ∀ n ∈ b.1, P n := by
    intro b hb
    induction hb with
    | refl => exact hnodes
    | tail _ hstep ih =>
      cases hstep with
      | place nodes requests h =>
        rw [Multiset.forall_mem_cons] at ih ⊢
        exact ⟨hplaced h ih.1, ih.2⟩
      | launch nodes requests h => exact Multiset.forall_mem_cons.mpr ⟨hnew _ h, ih⟩
  exact hrun _ h

variable {node node' : SchedulingNode}
variable {request : ResourceRequest}

theorem PlacedOn.schedRequests
    (h : PlacedOn source node request node') (s : ResourceRequestSource) :
    node'.schedRequests.get s = node.schedRequests.get s ++ if s = source then [request] else [] := by
  rw [h.eq]
  cases s <;> cases source <;> simp [BySource.get, BySource.set]

/-- What is recorded on the nodes for a source. -/
def recordedOn (s : ResourceRequestSource) (nodes : List SchedulingNode) : List ResourceRequest :=
  nodes.flatMap (·.schedRequests.get s)

/-- What is recorded, with what is still asked for, stays the same. -/
theorem Placements.conserved (h : Placements source N nodes requests nodes' requests')
    (hnew : ∀ n, N n → n.schedRequests.get source = []) :
    (recordedOn source nodes' ++ requests').Perm (recordedOn source nodes ++ requests) := by
  let total (a : Multiset SchedulingNode × Multiset ResourceRequest) : Multiset ResourceRequest :=
    a.1.bind (fun n => (n.schedRequests.get source : Multiset ResourceRequest)) + a.2
  have hrun : ∀ b, Relation.ReflTransGen (Placement source N) (↑nodes, ↑requests) b →
      total b = total (↑nodes, ↑requests) := by
    intro b hb
    induction hb with
    | refl => rfl
    | tail _ hstep ih =>
      rw [← ih]
      cases hstep with
      | @place _ _ request nodes requests h =>
        simp only [total, Multiset.cons_bind, h.schedRequests, if_pos, ← Multiset.coe_add,
          Multiset.coe_singleton]
        rw [← Multiset.singleton_add request requests]
        abel
      | launch nodes requests h =>
        simp only [total, Multiset.cons_bind, hnew _ h, Multiset.coe_nil, zero_add]
  have htotal := hrun _ h
  simp only [total, Multiset.coe_bind, Multiset.coe_add, Multiset.coe_eq_coe] at htotal
  exact htotal

theorem PlacedOn.placements
    (h : PlacedOn source node request node') (requests : List ResourceRequest) :
    Placements source N [node] (requests ++ [request]) [node'] requests :=
  (Placements.of_perm .rfl (List.perm_append_singleton request requests)).trans
    (.single (.place 0 requests h))

theorem Placements.launch (h : N node) (nodes : List SchedulingNode)
    (requests : List ResourceRequest) : Placements source N nodes requests (node :: nodes) requests :=
  .single (.launch (nodes : Multiset SchedulingNode) (requests : Multiset ResourceRequest) h)

theorem placements_of_tryScheduleNode {remaining : List ResourceRequest}
    {score : SchedulingNode.UtilizationScore}
    (h : node.trySchedule requests source = .ok (node', remaining, score)) :
    Placements source N [node] requests [node'] remaining := by
  obtain ⟨a, ha, h⟩ := bind_eq_ok.mp h
  obtain ⟨s, hs, h⟩ := bind_eq_ok.mp h
  cases h
  refine foldlM_inv (P := fun done a => Placements source N [node] done
    [a.node] a.unschedulableRequests)
    (.of_perm .rfl .rfl) ?_ ha
  intro done r a a' _ hdone hstep
  have hmore := hdone.frame [] [r]
  unfold Attempt.step at hstep
  split_ifs at hstep
  · cases hstep
    exact hmore
  · obtain ⟨found, hfound, hstep⟩ := bind_eq_ok.mp hstep
    cases found with
    | none =>
      cases hstep
      exact hmore
    | some n =>
      cases hstep
      exact hmore.trans ((tryScheduleOne_eq_some hfound).placements _)

end

end RayTfm.Autoscaler
