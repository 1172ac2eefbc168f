import RayTfm.Raylet.ResourceSet

/-! # The view of the cluster's resources

The resources and labels of the nodes as the scheduler sees them (`ClusterResourceManager`), and the
requests that are matched with them.  A request is subtracted from the available resources of a node
and added back later; `SameView` says that two views agree on every node, and `Deducted` that one is
the other less some outstanding demands.  A subtraction adds to the outstanding demands
(`Deducted.subtract`), an addition takes from them (`Deducted.add`). -/

namespace RayTfm.Raylet

/-! ### Requests -/

/-- `LabelSelectorOperator`. -/
inductive LabelSelectorOperator where
  | labelOperatorUnspecified
  | labelIn
  | labelNotIn
deriving DecidableEq, Repr

/-- `LabelConstraint`. -/
structure LabelConstraint where
  key : String
  op : LabelSelectorOperator
  values : List String
deriving DecidableEq, Repr

/-- `LabelSelector::AddConstraint`: a constraint is added once.  The values are a set in the source;
one set listed in two ways is kept twice here, which asks for the same. -/
def addConstraint (constraints : List LabelConstraint) (constraint : LabelConstraint) :
    List LabelConstraint :=
  if constraint ∈ constraints then constraints else constraints ++ [constraint]

/-- The comma-separated values of a label selector; nothing follows a comma at the end. -/
def labelTokens (val : List Char) : List String :=
  let tokens := val.splitOn ','
  (if tokens.getLast? = some [] then tokens.dropLast else tokens).map String.ofList

/-- `LabelSelector::ParseLabelSelectorValue`. -/
def parseLabelSelectorValue (value : String) : LabelSelectorOperator × List String :=
  let isNegated := value.toList.head? = some '!'
  let val := if isNegated then value.toList.tail else value.toList
  let values :=
    if "in(".toList.isPrefixOf val ∧ val.getLast? = some ')' then labelTokens (val.drop 3).dropLast
    else [String.ofList val]
  (if isNegated then .labelNotIn else .labelIn, values)

/-- The constraints of a label selector given as strings (`LabelSelector::LabelSelector`). -/
def labelSelectorOf (labelSelector : List (String × String)) : List LabelConstraint :=
  labelSelector.foldl (fun constraints entry =>
    let parsed := parseLabelSelectorValue entry.2
    addConstraint constraints ⟨entry.1, parsed.1, parsed.2⟩) []

theorem mem_addConstraint {constraints : List LabelConstraint} {constraint c : LabelConstraint} :
    c ∈ addConstraint constraints constraint ↔ c ∈ constraints ∨ c = constraint := by
  unfold addConstraint
  split_ifs with h
  · constructor
    · exact Or.inl
    · rintro (hc | rfl)
      · exact hc
      · exact h
  · simp

theorem parseLabelSelectorValue_specified (value : String) :
    (parseLabelSelectorValue value).1 ≠ .labelOperatorUnspecified := by
  unfold parseLabelSelectorValue
  dsimp only
  split_ifs <;> decide

/-- A label selector given as strings has an operator in each constraint. -/
theorem labelSelectorOf_specified (labelSelector : List (String × String)) :
    ∀ c ∈ labelSelectorOf labelSelector, c.op ≠ .labelOperatorUnspecified := by
  have hloop : ∀ constraints : List LabelConstraint,
    (∀ c ∈ constraints, c.op ≠ .labelOperatorUnspecified) →
      ∀ c ∈ labelSelector.foldl (fun constraints entry => addConstraint constraints
        ⟨entry.1, (parseLabelSelectorValue entry.2).1, (parseLabelSelectorValue entry.2).2⟩)
          constraints,
        c.op ≠ .labelOperatorUnspecified := by
    induction labelSelector with
    | nil => exact fun _ h => h
    | cons entry labelSelector ih =>
      intro constraints h
      apply ih
      intro c hc
      obtain hc | rfl := mem_addConstraint.mp hc
      · exact h c hc
      · exact parseLabelSelectorValue_specified entry.2
  exact hloop [] nofun

/-- `ResourceRequest`, its label selector as the constraints. -/
structure ResourceRequest where
  resources : ResourceSet
  requiresObjectStoreMemory : Bool
  labelSelector : List LabelConstraint

namespace ResourceRequest

/-- `ResourceRequest::Get`. -/
def get (request : ResourceRequest) (resourceId : ResourceID) : ℤ := request.resources.get resourceId

/-- A request that can be made: no demand is negative, and every constraint has an operator, as
those of a label selector given as strings have (`labelSelectorOf_specified`). -/
structure Valid (request : ResourceRequest) : Prop where
  nonneg : ∀ r, 0 ≤ request.get r
  specified : ∀ c ∈ request.labelSelector, c.op ≠ .labelOperatorUnspecified

end ResourceRequest

/-! ### Nodes -/

/-- `NodeResources`. -/
structure NodeResources where
  total : NodeResourceSet
  available : NodeResourceSet
  labels : Dict String String
  objectPullsQueued : Bool

namespace NodeResources

/-- `NodeResources::NodeLabelMatchesConstraint`. -/
def nodeLabelMatchesConstraint (node : NodeResources) (constraint : LabelConstraint) :
    Except RayError Bool :=
  match constraint.op with
  | .labelIn => .ok ((node.labels.get? constraint.key).any (· ∈ constraint.values))
  | .labelNotIn => .ok (!(node.labels.get? constraint.key).any (· ∈ constraint.values))
  | .labelOperatorUnspecified =>
    .error (.checkFailed
      "Node label constraint operator type must be one of equals, not equals (!), in, or not in (!in)")

/-- `NodeResources::HasRequiredLabels`. -/
def hasRequiredLabels (node : NodeResources) (labelSelector : List LabelConstraint) :
    Except RayError Bool :=
  labelSelector.allM node.nodeLabelMatchesConstraint

/-- `NodeResources::IsFeasible`. -/
def isFeasible (node : NodeResources) (request : ResourceRequest) : Except RayError Bool := do
  if !(← node.hasRequiredLabels request.labelSelector) then
    return false
  return node.total.covers request.resources

/-- `NodeResources::IsAvailable`. -/
def isAvailable (node : NodeResources) (request : ResourceRequest)
    (ignorePullManagerAtCapacity : Bool) :
    Except RayError Bool := do
  if !ignorePullManagerAtCapacity && request.requiresObjectStoreMemory && node.objectPullsQueued then
    return false
  if !(← node.hasRequiredLabels request.labelSelector) then
    return false
  return node.available.covers request.resources

/-- Does the node have the label value that a constraint asks for? -/
def MatchesLabel (node : NodeResources) (constraint : LabelConstraint) : Prop :=
  match constraint.op with
  | .labelIn => ∃ value ∈ constraint.values, node.labels.get? constraint.key = some value
  | .labelNotIn => ∀ value ∈ constraint.values, node.labels.get? constraint.key ≠ some value
  | .labelOperatorUnspecified => False

/-- The labels satisfy a label selector. -/
def MatchesLabels (node : NodeResources) (labelSelector : List LabelConstraint) : Prop :=
  ∀ constraint ∈ labelSelector, node.MatchesLabel constraint

theorem any_mem_eq_true {found : Option String} {values : List String} :
    found.any (· ∈ values) = true ↔ ∃ value ∈ values, found = some value := by
  cases found with
  | none => simp
  | some value => simp

variable {node : NodeResources}

theorem nodeLabelMatchesConstraint_ok {constraint : LabelConstraint}
    (h : constraint.op ≠ .labelOperatorUnspecified) :
    ∃ b, node.nodeLabelMatchesConstraint constraint = .ok b ∧
    (b = true ↔ node.MatchesLabel constraint) := by
  unfold nodeLabelMatchesConstraint MatchesLabel
  cases hop : constraint.op with
  | labelOperatorUnspecified => exact absurd hop h
  | labelIn => exact ⟨_, rfl, any_mem_eq_true⟩
  | labelNotIn =>
    refine ⟨_, rfl, ?_⟩
    rw [Bool.not_eq_true', ← Bool.not_eq_true, any_mem_eq_true]
    push Not
    rfl

theorem allM_ok {ε A : Type} {p : A → Except ε Bool} {P : A → Prop} {l : List A}
    (h : ∀ a ∈ l, ∃ b, p a = .ok b ∧ (b = true ↔ P a)) : ∃ b, l.allM p = .ok b ∧
    (b = true ↔ ∀ a ∈ l, P a) := by
  induction l with
  | nil => exact ⟨true, rfl, by simp⟩
  | cons a l ih =>
    obtain ⟨b, hb, hP⟩ := h a (.head _)
    obtain ⟨b', hb', hP'⟩ := ih (fun a ha => h a (.tail _ ha))
    rw [List.allM, hb, ok_bind, List.forall_mem_cons]
    cases b with
    | false => exact ⟨false, rfl, by simp [← hP]⟩
    | true => exact ⟨b', hb', by simp [← hP, hP']⟩

variable {request : ResourceRequest}

theorem hasRequiredLabels_ok (node : NodeResources) (h : request.Valid) :
    ∃ b, node.hasRequiredLabels request.labelSelector = .ok b ∧
      (b = true ↔ node.MatchesLabels request.labelSelector) :=
  allM_ok (fun c hc => nodeLabelMatchesConstraint_ok (h.specified c hc))

/-- The available resources are within the total ones. -/
def Valid (node : NodeResources) : Prop :=
  ∀ r, 0 ≤ node.available.get r ∧ node.available.get r ≤ node.total.get r

theorem isFeasible_ok (hrequest : request.Valid) :
    ∃ b, node.isFeasible request = .ok b := by
  obtain ⟨b, hb, -⟩ := hasRequiredLabels_ok node hrequest
  unfold isFeasible
  rw [hb, ok_bind]
  cases b
  · exact ⟨_, rfl⟩
  · exact ⟨_, rfl⟩

/-- A node that is available for a request satisfies its label selector and has what it demands. -/
theorem isAvailable_ok (node : NodeResources) (hrequest : request.Valid)
    (hnode : ∀ r, 0 ≤ node.available.get r) (ignore : Bool) :
    ∃ b, node.isAvailable request ignore = .ok b ∧
      (b = true → node.MatchesLabels request.labelSelector ∧ ∀ r,
        request.get r ≤ node.available.get r) := by
  obtain ⟨b, hb, hlabels⟩ := hasRequiredLabels_ok node hrequest
  unfold isAvailable
  split_ifs
  · exact ⟨false, rfl, by simp⟩
  · rw [hb, ok_bind]
    cases b with
    | false => exact ⟨false, rfl, by simp⟩
    | true =>
      exact ⟨node.available.covers request.resources, rfl, fun h =>
        ⟨hlabels.mp rfl, (NodeResourceSet.covers_iff hnode).mp h⟩⟩

end NodeResources

/-! ### The manager -/

/-- `ClusterResourceManager`, over any identities of the nodes. -/
structure ClusterResourceManager (N : Type) where
  nodes : Dict N NodeResources

namespace ClusterResourceManager

variable {N : Type} [DecidableEq N]

/-- `ClusterResourceManager::GetNodeResources`. -/
def getNodeResources (manager : ClusterResourceManager N) (nodeId : N) :
    Except RayError NodeResources :=
  rayFind (manager.nodes.get? nodeId) "Key doesn't exist"

/-- `ClusterResourceManager::HasFeasibleResources`. -/
def hasFeasibleResources (manager : ClusterResourceManager N) (nodeId : N) (request : ResourceRequest) :
    Except RayError Bool :=
  match manager.nodes.get? nodeId with
  | none => .ok false
  | some node => node.isFeasible request

/-- `ClusterResourceManager::HasAvailableResources`. -/
def hasAvailableResources (manager : ClusterResourceManager N) (nodeId : N) (request : ResourceRequest)
    (ignoreObjectStoreMemoryRequirement : Bool) : Except RayError Bool :=
  match manager.nodes.get? nodeId with
  | none => .ok false
  | some node => node.isAvailable request ignoreObjectStoreMemoryRequirement

/-- `ClusterResourceManager::SubtractNodeAvailableResources`: was there such a node, and the view
after it. -/
def subtractNodeAvailableResources (manager : ClusterResourceManager N) (nodeId : N)
    (request : ResourceRequest) :
    Bool × ClusterResourceManager N :=
  match manager.nodes.get? nodeId with
  | none => (false, manager)
  | some node =>
    let available := (node.available.subtract request.resources).removeNegative
    (true, ⟨manager.nodes.set nodeId { node with available := available }⟩)

/-- What `AddNodeAvailableResources` does for one resource. -/
def addAvailable (total : NodeResourceSet) (available : NodeResourceSet) (entry : ResourceID × ℤ) :
    NodeResourceSet :=
  if total.has entry.1 then
    let newAvailable := available.get entry.1 + entry.2
    available.set entry.1 (if newAvailable > total.get entry.1 then total.get entry.1 else newAvailable)
  else available

/-- `ClusterResourceManager::AddNodeAvailableResources`. -/
def addNodeAvailableResources (manager : ClusterResourceManager N) (nodeId : N)
    (resourceSet : ResourceSet) :
    Bool × ClusterResourceManager N :=
  match manager.nodes.get? nodeId with
  | none => (false, manager)
  | some node =>
    let available := resourceSet.entries.entries.foldl (addAvailable node.total) node.available
    (true, ⟨manager.nodes.set nodeId { node with available := available }⟩)

/-- The available resources of every node are within its total ones. -/
def Valid (manager : ClusterResourceManager N) : Prop :=
  ∀ nodeId node, manager.nodes.get? nodeId = some node → node.Valid

/-! ### Outstanding demands -/

/-- `manager'` is `manager` less the demands `used` of each node. -/
structure Deducted (manager : ClusterResourceManager N) (used : N → ResourceID → ℤ)
    (manager' : ClusterResourceManager N) : Prop where
  nonneg : ∀ nodeId r, 0 ≤ used nodeId r
  node : ∀ nodeId node, manager.nodes.get? nodeId = some node → ∃ available,
    manager'.nodes.get? nodeId = some { node with available := available } ∧
    ∀ r, available.get r = node.available.get r - used nodeId r ∧ used nodeId r ≤ node.available.get r
  none : ∀ nodeId, manager.nodes.get? nodeId = none → manager'.nodes.get? nodeId = none

/-- The same nodes with the same resources, entry by entry, labels and flags. -/
structure SameView (manager manager' : ClusterResourceManager N) : Prop where
  node : ∀ nodeId node, manager.nodes.get? nodeId = some node → ∃ available,
    manager'.nodes.get? nodeId = some { node with available := available } ∧
    ∀ r, available.entries.get? r = node.available.entries.get? r
  none : ∀ nodeId, manager.nodes.get? nodeId = none → manager'.nodes.get? nodeId = none

variable {manager manager' : ClusterResourceManager N} {used : N → ResourceID → ℤ} {nodeId : N}
  {node : NodeResources} {request : ResourceRequest}

theorem Deducted.refl (h : manager.Valid) : Deducted manager (fun _ _ => 0) manager where
  nonneg _ _ := le_refl 0
  node nodeId node hnode :=
    ⟨node.available, hnode, fun r => ⟨(sub_zero _).symm, (h nodeId node hnode r).1⟩⟩
  none _ h := h

theorem SameView.refl (manager : ClusterResourceManager N) : SameView manager manager where
  node _ node hnode := ⟨node.available, hnode, fun _ => rfl⟩
  none _ h := h

theorem Deducted.sameView (h : Deducted manager (fun _ _ => 0) manager') :
    SameView manager manager' where
  node nodeId node hnode := by
    obtain ⟨available, hget, havailable⟩ := h.node nodeId node hnode
    refine ⟨available, hget, fun r => DefaultMap.lookup_eq_of_get_eq (fun r => ?_) r⟩
    rw [(havailable r).1, sub_zero]
  none := h.none

/-- The outstanding demands after one more on a node. -/
def addUsed (used : N → ResourceID → ℤ) (nodeId : N) (demand : ResourceID → ℤ) : N → ResourceID → ℤ :=
  fun n r => used n r + if n = nodeId then demand r else 0

variable {available : NodeResourceSet}

theorem Deducted.set (h : Deducted manager used manager')
    (hnode : manager.nodes.get? nodeId = some node)
    {used' : N → ResourceID → ℤ} (hother : ∀ n, n ≠ nodeId → used' n = used n)
    (hthis : ∀ r, 0 ≤ used' nodeId r ∧ used' nodeId r ≤ node.available.get r ∧
      available.get r = node.available.get r - used' nodeId r) :
    Deducted manager used' ⟨manager'.nodes.set nodeId { node with available := available }⟩ where
  nonneg n r := by
    by_cases hn : n = nodeId
    · rw [hn]
      exact (hthis r).1
    · rw [hother n hn]
      exact h.nonneg n r
  node n node' hn' := by
    by_cases hn : n = nodeId
    · subst hn
      obtain rfl : _ = node' := Option.some.inj (hnode.symm.trans hn')
      exact ⟨available, Dict.get?_set_self _ _ _, fun r => ⟨(hthis r).2.2, (hthis r).2.1⟩⟩
    · obtain ⟨available', hget, havailable⟩ := h.node n node' hn'
      refine ⟨available', ?_, ?_⟩
      · rw [Dict.get?_set_ne _ _ hn, hget]
      · rw [hother n hn]
        exact havailable
  none n hn' := by
    have hn : n ≠ nodeId := by
      rintro rfl
      rw [hnode] at hn'
      cases hn'
    rw [Dict.get?_set_ne _ _ hn]
    exact h.none n hn'

/-- Subtracting a request that is available adds it to the outstanding demands. -/
theorem Deducted.subtract (h : Deducted manager used manager')
    (hnode : manager.nodes.get? nodeId = some node)
    (hrequest : request.Valid) (hle : ∀ r, used nodeId r + request.get r ≤ node.available.get r) :
    ∃ manager'', manager'.subtractNodeAvailableResources nodeId request = (true, manager'') ∧
      Deducted manager (addUsed used nodeId request.get) manager'' := by
  obtain ⟨available, hget, havailable⟩ := h.node nodeId node hnode
  unfold subtractNodeAvailableResources
  rw [hget]
  refine ⟨_, rfl, h.set hnode (fun n hn => ?_) (fun r => ?_)⟩
  · funext r
    rw [addUsed, if_neg hn, add_zero]
  · have hsub : ∀ r, (available.subtract request.resources).get r =
        node.available.get r - addUsed used nodeId request.get nodeId r := by
      intro r
      rw [NodeResourceSet.get_subtract, (havailable r).1, addUsed, if_pos rfl, sub_sub]
      rfl
    have hused : ∀ r, addUsed used nodeId request.get nodeId r = used nodeId r + request.get r :=
      fun r => by rw [addUsed, if_pos rfl]
    refine ⟨?_, ?_, ?_⟩
    · rw [hused]
      exact add_nonneg (h.nonneg nodeId r) (hrequest.nonneg r)
    · rw [hused]
      exact hle r
    · rw [NodeResourceSet.get_removeNegative _ r, hsub]
      intro r
      rw [hsub, hused]
      exact sub_nonneg.mpr (hle r)

theorem get_addAvailable (total available : NodeResourceSet) (entry : ResourceID × ℤ) (r : ResourceID) :
    (addAvailable total available entry).get r = if r = entry.1 then
      (if total.has r then min (available.get r + entry.2) (total.get r) else available.get r)
      else available.get r := by
  unfold addAvailable
  by_cases hr : r = entry.1
  · subst hr
    rw [if_pos rfl]
    split_ifs
    · rw [DefaultMap.get_set_self]
      split_ifs with hgt
      · exact (min_eq_right (le_of_lt hgt)).symm
      · exact (min_eq_left (not_lt.mp hgt)).symm
    · rfl
  · rw [if_neg hr]
    split_ifs
    · exact DefaultMap.get_set_ne _ _ hr
    · rfl

/-- A demand that fits under the total is added back in full: a resource with a demand to add is
there, so it is not skipped, and the cap is not reached. -/
theorem get_addAll {total : NodeResourceSet} {resourceSet : ResourceSet} {r : ResourceID}
    (hdemand : 0 ≤ resourceSet.get r) (havailable : 0 ≤ available.get r)
    (hfits : available.get r + resourceSet.get r ≤ total.get r) :
    (resourceSet.entries.entries.foldl (addAvailable total) available).get r =
      available.get r + resourceSet.get r := by
  rw [DefaultMap.get_foldl_step (f := fun r a d => if total.has r then min (a + d) (total.get r) else a)
    (get_addAvailable total) resourceSet.entries.nodup, NodeResourceSet.lookup_entries]
  by_cases hzero : resourceSet.get r = 0
  · rw [if_pos hzero, hzero, add_zero]
    rfl
  · rw [if_neg hzero]
    have hhas : total.has r = true := by
      unfold NodeResourceSet.has
      rw [decide_eq_true_iff]
      omega
    show (if total.has r = true then _ else _) = _
    rw [if_pos hhas, min_eq_left hfits]

theorem Deducted.add (h : Deducted manager (addUsed used nodeId request.get) manager')
    (hmanager : manager.Valid)
    (hnode : manager.nodes.get? nodeId = some node) (hrequest : request.Valid)
    (hused : ∀ n r, 0 ≤ used n r) :
    ∃ manager'', manager'.addNodeAvailableResources nodeId request.resources = (true, manager'') ∧
      Deducted manager used manager'' := by
  obtain ⟨available, hget, havailable⟩ := h.node nodeId node hnode
  have hadd : ∀ r, addUsed used nodeId request.get nodeId r = used nodeId r + request.get r :=
    fun r => by rw [addUsed, if_pos rfl]
  unfold addNodeAvailableResources
  rw [hget]
  refine ⟨_, rfl, h.set hnode (fun n hn => ?_) (fun r => ?_)⟩
  · funext r
    rw [addUsed, if_neg hn, add_zero]
  · obtain ⟨heq, hle⟩ := havailable r
    rw [hadd] at heq hle
    have hvalid := hmanager nodeId node hnode r
    have hdemand : 0 ≤ request.resources.get r := hrequest.nonneg r
    have hget : request.get r = request.resources.get r := rfl
    have hu := hused nodeId r
    refine ⟨hu, by omega, ?_⟩
    have havail : 0 ≤ available.get r := by omega
    have hfits : available.get r + request.resources.get r ≤ node.total.get r := by omega
    rw [get_addAll hdemand havail hfits]
    show available.get r + request.resources.get r = _
    omega

end ClusterResourceManager

end RayTfm.Raylet
