import RayTfm.Autoscaler.Instances
import RayTfm.Lib.Sorting

/-! # Resource requests

What tasks, actors and placement groups ask the autoscaler for.  The requests of a placement group
that must be placed together are combined into one (`combineRequestsWithAffinity`). -/

namespace RayTfm.Autoscaler

/-- `AffinityConstraint` and `AntiAffinityConstraint`: a label that the node must have, or must not
have. -/
structure NodeLabel where
  labelName : String
  labelValue : String
deriving DecidableEq, Repr

/-- `PlacementConstraint`. -/
structure PlacementConstraint where
  antiAffinity : Option NodeLabel
  affinity : Option NodeLabel
deriving DecidableEq, Repr

/-- `LabelSelectorOperator`. -/
inductive LabelSelectorOperator where
  | unspecified
  | labelIn
  | labelNotIn
deriving DecidableEq, Repr

/-- `LabelSelectorConstraint`. -/
structure LabelSelectorConstraint where
  labelKey : String
  operator : LabelSelectorOperator
  labelValues : List String
deriving DecidableEq, Repr

/-- `LabelSelector`. -/
structure LabelSelector where
  labelConstraints : List LabelSelectorConstraint
deriving DecidableEq, Repr

/-- `ResourceRequest`. -/
structure ResourceRequest where
  resourcesBundle : Dict String ℚ
  placementConstraints : List PlacementConstraint
  labelSelectors : List LabelSelector
deriving DecidableEq

/-- `ResourceRequestByCount`. -/
structure ResourceRequestByCount where
  request : ResourceRequest
  count : ℤ
deriving DecidableEq

/-- `GangResourceRequest`; a bundle selector is its resource requests. -/
structure GangResourceRequest where
  requests : List ResourceRequest
  bundleSelectors : List (List ResourceRequest)
deriving DecidableEq

/-- `ClusterResourceConstraint`. -/
structure ClusterResourceConstraint where
  resourceRequests : List ResourceRequestByCount
deriving DecidableEq

/-- The labels that the nodes of a request must not have, and get from it. -/
def ResourceRequest.antiAffinities (request : ResourceRequest) : List NodeLabel :=
  request.placementConstraints.filterMap (·.antiAffinity)

/-! ### `ResourceRequestUtil` -/

/-- `ResourceRequestUtil.ungroup_by_count`. -/
def ungroupByCount (requestsByCount : List ResourceRequestByCount) : List ResourceRequest :=
  requestsByCount.flatMap (fun r => List.replicate r.count.toNat r.request)

/-- `ResourceRequestUtil._label_selector_key`. -/
def labelSelectorKey (labelSelectors : List LabelSelector) :
    List (List (String × LabelSelectorOperator × List String)) :=
  labelSelectors.map (fun selector => selector.labelConstraints.map (fun constraint =>
    (constraint.labelKey, constraint.operator, sortBy id constraint.labelValues)))

/-- The amounts of two bundles together. -/
def addBundle (combined bundle : Dict String ℚ) : Dict String ℚ :=
  bundle.entries.foldl (fun combined e => combined.set e.1 ((combined.get? e.1).getD 0 + e.2)) combined

/-- The key by which requests with an affinity constraint are combined. -/
structure AffinityKey where
  affinity : NodeLabel
  labelSelectorKey : List (List (String × LabelSelectorOperator × List String))
deriving DecidableEq

/-- The requests that stay as they are, and those that are combined. -/
structure Combining where
  requestsByAffinity : Dict AffinityKey (List ResourceRequest)
  combinedRequests : List ResourceRequest

/-- The first loop of `combine_requests_with_affinity`, for one request. -/
def Combining.add (c : Combining) (request : ResourceRequest) : Except AutoscalerError Combining := do
  assertThat (request.placementConstraints.length ≤ 1)
    "There should be at most 1 placement constraint, either an affinity constraint OR an anti-affinity constraint."
  match request.placementConstraints with
  | [] => return { c with combinedRequests := c.combinedRequests ++ [request] }
  | constraint :: _ =>
    match constraint.affinity, constraint.antiAffinity with
    | some affinity, _ =>
      let key := ⟨affinity, labelSelectorKey request.labelSelectors⟩
      return { c with
        requestsByAffinity :=
          c.requestsByAffinity.set key ((c.requestsByAffinity.get? key).getD [] ++ [request]) }
    | none, some _ => return { c with combinedRequests := c.combinedRequests ++ [request] }
    | none, none => return c

/-- The request that the requests with one affinity constraint are combined into. -/
def combinedRequest (key : AffinityKey) (requests : List ResourceRequest) : ResourceRequest where
  resourcesBundle := requests.foldl
    (fun combined request => addBundle combined request.resourcesBundle) Dict.empty
  placementConstraints := [⟨none, some key.affinity⟩]
  labelSelectors := (requests.head?.map (·.labelSelectors)).getD []

/-- `ResourceRequestUtil.combine_requests_with_affinity`. -/
def combineRequestsWithAffinity (resourceRequests : List ResourceRequest) :
    Except AutoscalerError (List ResourceRequest) := do
  let c ← resourceRequests.foldlM Combining.add ⟨Dict.empty, []⟩
  return c.combinedRequests ++ c.requestsByAffinity.entries.map (fun e => combinedRequest e.1 e.2)

end RayTfm.Autoscaler
