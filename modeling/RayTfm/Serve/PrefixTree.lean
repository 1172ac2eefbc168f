import RayTfm.Lib.Dict
import RayTfm.Lib.Threads

/-! # The prefix tree of the prefix-aware router

`prefix_tree.py`: a radix tree shared by tenants.  Every node holds a piece of text, its children by
first character, the time of the last access by each tenant that owns the node, and two pointers
for each tenant: the nodes of a tenant are threaded by a doubly linked list, which starts at the
root and ends at the node the tenant has not accessed for longest.

The nodes are Python objects that refer to each other, so they live in a heap and are named by the
order in which they were created; the root is node 0.  A pointer dictionary is only read with `get`,
so a missing key is the same as `None`.  The loops get as many rounds as their inputs allow; a
function returns nothing if these do not suffice or an exception is raised. -/

namespace RayTfm.Serve

/-- A string as the list of its characters. -/
abbrev Text := List Char

/-- A node; `T` is the type of times. -/
structure Node (T : Type) where
  text : Text
  parent : Option ℕ
  edgeLabelToChild : Dict Char ℕ
  tenantToLastAccessTime : Dict String T
  tenantToOlderNode : String → Option ℕ
  tenantToNewerNode : String → Option ℕ

/-- `Node(text, parent)`. -/
def Node.init {T : Type} (text : Text) (parent : Option ℕ) : Node T :=
  ⟨text, parent, Dict.empty, Dict.empty, fun _ => none, fun _ => none⟩

structure PrefixTree (T : Type) where
  nodes : ℕ → Node T
  numNodes : ℕ
  tenantToCharCount : Dict String ℤ
  tenantToLruTail : String → Option ℕ

/-- `_shared_prefix_count`. -/
def sharedPrefixCount : Text → Text → ℕ
  | a :: as, b :: bs => if a = b then sharedPrefixCount as bs + 1 else 0
  | _, _ => 0

namespace PrefixTree
variable {T : Type}

/-- The node `self.root`. -/
def root : ℕ := 0

def init : PrefixTree T := ⟨fun _ => .init [] none, 1, Dict.empty, fun _ => none⟩

/-- `tenant in self.tenant_to_char_count`. -/
def HasTenant (s : PrefixTree T) (tenant : String) : Prop := tenant ∈ s.tenantToCharCount.keys

instance (s : PrefixTree T) (tenant : String) : Decidable (s.HasTenant tenant) :=
  inferInstanceAs (Decidable (_ ∈ _))

/-- Change the fields of a node. -/
def modify (s : PrefixTree T) (n : ℕ) (f : Node T → Node T) : PrefixTree T :=
  { s with nodes := Function.update s.nodes n (f (s.nodes n)) }

/-- `node.tenant_to_older_node[tenant] = v`. -/
def setOlder (s : PrefixTree T) (n : ℕ) (tenant : String) (v : Option ℕ) : PrefixTree T :=
  s.modify n (fun x => { x with tenantToOlderNode := Function.update x.tenantToOlderNode tenant v })

/-- `node.tenant_to_newer_node[tenant] = v`. -/
def setNewer (s : PrefixTree T) (n : ℕ) (tenant : String) (v : Option ℕ) : PrefixTree T :=
  s.modify n (fun x => { x with tenantToNewerNode := Function.update x.tenantToNewerNode tenant v })

/-- `if node: node.tenant_to_older_node[tenant] = v`. -/
def setOlderIf (s : PrefixTree T) (n : Option ℕ) (tenant : String) (v : Option ℕ) : PrefixTree T :=
  match n with
  | some n => s.setOlder n tenant v
  | none => s

/-- `if node: node.tenant_to_newer_node[tenant] = v`. -/
def setNewerIf (s : PrefixTree T) (n : Option ℕ) (tenant : String) (v : Option ℕ) : PrefixTree T :=
  match n with
  | some n => s.setNewer n tenant v
  | none => s

/-- `if self.tenant_to_lru_tail[tenant] == old: self.tenant_to_lru_tail[tenant] = new`. -/
def replaceTail (s : PrefixTree T) (tenant : String) (old new : Option ℕ) : PrefixTree T :=
  if s.tenantToLruTail tenant = old then
    { s with tenantToLruTail := Function.update s.tenantToLruTail tenant new }
  else s

/-- `_insert_node_into_linked_list`. -/
def insertNodeIntoLinkedList (s : PrefixTree T) (node : ℕ) (newerNeighbor olderNeighbor : Option ℕ)
    (tenant : String) : PrefixTree T :=
  if ¬ s.HasTenant tenant then s
  else if node = root then s
  else
    let s := s.setNewer node tenant newerNeighbor
    let s := s.setOlder node tenant olderNeighbor
    let s := s.setOlderIf newerNeighbor tenant (some node)
    let s := s.setNewerIf olderNeighbor tenant (some node)
    s.replaceTail tenant newerNeighbor (some node)

/-- `_remove_node_from_linked_list`. -/
def removeNodeFromLinkedList (s : PrefixTree T) (node : ℕ) (tenant : String) : PrefixTree T :=
  if ¬ s.HasTenant tenant then s
  else if node = root then s
  else
    let olderNeighbor := (s.nodes node).tenantToOlderNode tenant
    let newerNeighbor := (s.nodes node).tenantToNewerNode tenant
    let s := s.setNewerIf olderNeighbor tenant newerNeighbor
    let s := s.setOlderIf newerNeighbor tenant olderNeighbor
    let s := s.replaceTail tenant (some node) newerNeighbor
    (s.setNewer node tenant none).setOlder node tenant none

/-- A node without tenants is taken out of its parent's children. -/
def detachIfEmpty (s : PrefixTree T) (node : ℕ) : PrefixTree T :=
  if (s.nodes node).tenantToLastAccessTime.entries = [] then
    match (s.nodes node).parent, (s.nodes node).text with
    | some parent, firstChar :: _ =>
      s.modify parent (fun x => { x with edgeLabelToChild := x.edgeLabelToChild.erase firstChar })
    | _, _ => s
  else s

/-- `_remove_tenant_single_node`: the tree, and the number of characters removed. -/
def removeTenantSingleNode (s : PrefixTree T) (tenant : String) (node : ℕ) : PrefixTree T × ℤ :=
  match s.tenantToCharCount.get? tenant with
  | none => (s, 0)
  | some count =>
    if tenant ∉ (s.nodes node).tenantToLastAccessTime.keys then (s, 0)
    else
      let removedCharsLen : ℤ := (s.nodes node).text.length
      let s := { s with
        tenantToCharCount := s.tenantToCharCount.set tenant (count - removedCharsLen) }
      let s := s.modify node (fun x =>
        { x with tenantToLastAccessTime := x.tenantToLastAccessTime.erase tenant })
      ((s.removeNodeFromLinkedList node tenant).detachIfEmpty node, removedCharsLen)

/-! ### Inserting -/

/-- The start of a round of `insert`: the tenant accesses a node, which moves to the front of its
list. -/
def visit (s : PrefixTree T) (tenant : String) (time : T) (currNode : ℕ) : PrefixTree T :=
  let s :=
    if tenant ∉ (s.nodes currNode).tenantToLastAccessTime.keys then
      let count := (s.tenantToCharCount.get? tenant).getD 0
      { s with
        tenantToCharCount :=
          s.tenantToCharCount.set tenant (count + (s.nodes currNode).text.length) }
    else s
  let s := s.modify currNode (fun x =>
    { x with tenantToLastAccessTime := x.tenantToLastAccessTime.set tenant time })
  if currNode ≠ root then
    let s := s.removeNodeFromLinkedList currNode tenant
    s.insertNodeIntoLinkedList currNode (some root) ((s.nodes root).tenantToOlderNode tenant) tenant
  else s

/-- A new node object. -/
def newNode (s : PrefixTree T) (x : Node T) : PrefixTree T :=
  { s with nodes := Function.update s.nodes s.numNodes x, numNodes := s.numNodes + 1 }

/-- `node.edge_label_to_child[c] = child`. -/
def setChild (s : PrefixTree T) (node : ℕ) (c : Char) (child : ℕ) : PrefixTree T :=
  s.modify node (fun x => { x with edgeLabelToChild := x.edgeLabelToChild.set c child })

/-- The child of a node for a first character. -/
def child? (s : PrefixTree T) (node : ℕ) (c : Char) : Option ℕ :=
  (s.nodes node).edgeLabelToChild.get? c

/-- A new leaf for the rest of the text, at the end of the tenant's list. -/
def addLeaf (s : PrefixTree T) (tenant : String) (currNode : ℕ) (firstChar : Char)
    (currText : Text) : PrefixTree T :=
  let node := s.numNodes
  let s := s.newNode (.init currText (some currNode))
  let s := s.setChild currNode firstChar node
  s.insertNodeIntoLinkedList node (s.tenantToLruTail tenant) none tenant

/-- Split a node behind its first `sharedCount` characters; the second component is the new node,
which takes its place. -/
def split (s : PrefixTree T) (tenant : String) (currNode : ℕ) (firstChar : Char) (matchedNode : ℕ)
    (sharedCount : ℕ) : PrefixTree T × ℕ :=
  let matchedText := (s.nodes matchedNode).text.take sharedCount
  let remainingText := (s.nodes matchedNode).text.drop sharedCount
  let newParent := s.numNodes
  let times := (s.nodes matchedNode).tenantToLastAccessTime
  let node : Node T := .init matchedText (some currNode)
  let s := s.newNode { node with tenantToLastAccessTime := times }
  let s := s.insertNodeIntoLinkedList newParent (s.tenantToLruTail tenant) none tenant
  let s := times.keys.foldl (fun s existingTenant =>
    if existingTenant ≠ tenant then
      s.insertNodeIntoLinkedList newParent
        ((s.nodes matchedNode).tenantToNewerNode existingTenant) (some matchedNode) existingTenant
    else s) s
  let s := s.modify matchedNode (fun x =>
    { x with text := remainingText, parent := some newParent })
  let s := match remainingText with
    | c :: _ => s.setChild newParent c matchedNode
    | [] => s
  (s.setChild currNode firstChar newParent, newParent)

/-- The loop of `insert`; `currText` is what is left of the text at the current node. -/
def insertLoop (tenant : String) (time : T) :
    ℕ → PrefixTree T → ℕ → Text → Option (PrefixTree T)
  | 0, _, _, _ => none
  | rounds + 1, s, currNode, currText =>
    let s := s.visit tenant time currNode
    match currText with
    | [] => some s
    | firstChar :: _ =>
      let s :=
        if s.child? currNode firstChar = none then s.addLeaf tenant currNode firstChar currText
        else s
      match s.child? currNode firstChar with
      | none => none
      | some matchedNode =>
        let sharedCount := sharedPrefixCount (s.nodes matchedNode).text currText
        if sharedCount < (s.nodes matchedNode).text.length then
          let r := s.split tenant currNode firstChar matchedNode sharedCount
          insertLoop tenant time rounds r.1 r.2 (currText.drop sharedCount)
        else insertLoop tenant time rounds s matchedNode (currText.drop sharedCount)

/-- `insert`: nothing happens for a tenant that does not exist. -/
def insert (s : PrefixTree T) (text : Text) (tenant : String) (time : T) : Option (PrefixTree T) :=
  if ¬ s.HasTenant tenant then some s
  else insertLoop tenant time (text.length + 1) s root text

/-- One tenant of `add_tenants`. -/
def addTenant (s : PrefixTree T) (tenant : String) (time : T) : Option (PrefixTree T) :=
  if s.HasTenant tenant then some s
  else
    let s := { s with
      tenantToCharCount := s.tenantToCharCount.set tenant 0
      tenantToLruTail := Function.update s.tenantToLruTail tenant (some root) }
    let s := (s.setNewer root tenant none).setOlder root tenant none
    s.insert [] tenant time

/-- `add_tenants`. -/
def addTenants (s : PrefixTree T) (tenants : List String) (time : T) : Option (PrefixTree T) :=
  tenants.foldlM (fun s tenant => s.addTenant tenant time) s

/-! ### Matching -/

/-- The loop of `prefix_match`: the number of matched characters, and the node it ends at. -/
def prefixMatchLoop (s : PrefixTree T) (available : List String) :
    ℕ → ℕ → ℕ → Text → Option (ℕ × ℕ)
  | _, currNode, i, [] => some (i, currNode)
  | 0, _, _, _ :: _ => none
  | rounds + 1, currNode, i, firstChar :: rest =>
    match s.child? currNode firstChar with
    | none => some (i, currNode)
    | some matchedNode =>
      if ¬ available.any (fun tenant =>
          decide (tenant ∈ (s.nodes matchedNode).tenantToLastAccessTime.keys)) then
        some (i, currNode)
      else
        let sharedCount := sharedPrefixCount (s.nodes matchedNode).text (firstChar :: rest)
        if sharedCount < (s.nodes matchedNode).text.length then
          some (i + sharedCount, matchedNode)
        else
          prefixMatchLoop s available rounds matchedNode (i + sharedCount)
            ((firstChar :: rest).drop sharedCount)

/-- The tenants of a list that own a node; `None` if there is none. -/
def matchedTenants (s : PrefixTree T) (available : List String) (node : ℕ) : Option (List String) :=
  let tenants := available.filter (fun tenant =>
    tenant ∈ (s.nodes node).tenantToLastAccessTime.keys)
  if tenants = [] then none else some tenants

/-- `prefix_match`; an empty list of available tenants counts as none. -/
def prefixMatch (s : PrefixTree T) (text : Text) (availableTenants : Option (List String)) :
    Option (Text × Option (List String)) :=
  let search (available : List String) : Option (Text × Option (List String)) :=
    (s.prefixMatchLoop available text.length root 0 text).map (fun r =>
      (text.take r.1, s.matchedTenants available r.2))
  match availableTenants with
  | none | some [] => search s.tenantToCharCount.keys
  | some available =>
    let available := available.filter (fun tenant => s.HasTenant tenant)
    if available = [] then some ([], none) else search available

/-! ### Removing -/

/-- The loop of `remove_tenants` over one tenant's list, from its end. -/
def removeLoop (tenant : String) : ℕ → PrefixTree T → Option ℕ → ℤ → Option (PrefixTree T × ℤ)
  | _, s, none, removed => some (s, removed)
  | 0, _, some _, _ => none
  | rounds + 1, s, some currentTail, removed =>
    let newerNeighbor := (s.nodes currentTail).tenantToNewerNode tenant
    let r := s.removeTenantSingleNode tenant currentTail
    removeLoop tenant rounds r.1 newerNeighbor (removed + r.2)

/-- One tenant of `remove_tenants`: the tree, and the number of characters removed. -/
def removeTenant (s : PrefixTree T) (tenant : String) : Option (PrefixTree T × ℤ) :=
  if ¬ s.HasTenant tenant then some (s, 0)
  else do
    let r ← removeLoop tenant s.numNodes s (s.tenantToLruTail tenant) 0
    some ({ r.1 with
      tenantToCharCount := r.1.tenantToCharCount.erase tenant
      tenantToLruTail := Function.update r.1.tenantToLruTail tenant none }, r.2)

/-- `remove_tenants`. -/
def removeTenants (s : PrefixTree T) (tenants : List String) :
    Option (PrefixTree T × Dict String ℤ) :=
  tenants.foldlM (fun r tenant => do
    let r' ← r.1.removeTenant tenant
    some (r'.1, r.2.set tenant r'.2)) (s, Dict.empty)

variable [DecidableEq T]

/-- The inner loop of `evict_tenant_by_lru`: remove the nodes with one time of access. -/
def evictGroup (tenant : String) (currentTimestamp : T) :
    ℕ → PrefixTree T → Option ℕ → ℤ → Option (PrefixTree T × Option ℕ × ℤ)
  | 0, _, _, _ => none
  | _, _, none, _ => none
  | rounds + 1, s, some currentTail, removed =>
    if currentTail = root then some (s, some currentTail, removed)
    else
      match (s.nodes currentTail).tenantToLastAccessTime.get? tenant with
      | none => none
      | some time =>
        if time = currentTimestamp then
          let newerNeighbor := (s.nodes currentTail).tenantToNewerNode tenant
          let r := s.removeTenantSingleNode tenant currentTail
          evictGroup tenant currentTimestamp rounds r.1 newerNeighbor (removed + r.2)
        else some (s, some currentTail, removed)

/-- The outer loop of `evict_tenant_by_lru`. -/
def evictLoop (tenant : String) (minRemoveSize : ℤ) :
    ℕ → PrefixTree T → Option ℕ → ℤ → Option (PrefixTree T × ℤ)
  | 0, _, _, _ => none
  | rounds + 1, s, currentTail, removed =>
    match currentTail with
    | none => some (s, removed)
    | some tail =>
      if minRemoveSize ≤ removed ∨ tail = root then some (s, removed)
      else do
        let currentTimestamp ← (s.nodes tail).tenantToLastAccessTime.get? tenant
        let r ← evictGroup tenant currentTimestamp (s.numNodes + 1) s (some tail) removed
        evictLoop tenant minRemoveSize rounds r.1 r.2.1 r.2.2

/-- `evict_tenant_by_lru`: the tree, and the number of characters removed. -/
def evictTenantByLru (s : PrefixTree T) (tenant : String) (minRemoveSize : ℤ) :
    Option (PrefixTree T × ℤ) :=
  match s.tenantToCharCount.get? tenant with
  | none => some (s, 0)
  | some count =>
    let minRemoveSize := if count < minRemoveSize then count else minRemoveSize
    evictLoop tenant minRemoveSize (s.numNodes + 1) s (s.tenantToLruTail tenant) 0

end PrefixTree
end RayTfm.Serve
