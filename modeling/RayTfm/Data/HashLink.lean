import RayTfm.Lib.Dict
import RayTfm.Lib.Linked
import RayTfm.Lib.Runs
import RayTfm.Data.BundleQueue

/-! # The queue with fast removal

The model of `execution/bundle_queue/hash_link.py`: a doubly linked list of nodes, and a dictionary
from each bundle to its nodes.  Nodes are never freed here; those that are not reachable any more do
not matter.  A method that raises does so before it changes anything.

`Describes` relates a queue to the list of its nodes, and each operation to the plain list
operation: `add` appends, `get_next` takes the head, `remove` erases the first equal bundle. -/

namespace RayTfm.Data

open Linked

variable {ρ : Type} [DecidableEq ρ]

structure HashLinkedQueue (ρ : Type) where
  metrics : QueueMetrics
  nodes : List (Node (RefBundle ρ))
  head : Option ℕ
  tail : Option ℕ
  bundleToNodes : Dict (RefBundle ρ) (List ℕ)

namespace HashLinkedQueue

def init : HashLinkedQueue ρ := ⟨.reset, [], none, none, .empty⟩

def contains (q : HashLinkedQueue ρ) (bundle : RefBundle ρ) : Bool :=
  (q.bundleToNodes.get? bundle).isSome

/-- `_add_inner` up to the dictionary: link a new node behind the tail. -/
def linkNode (q : HashLinkedQueue ρ) (bundle : RefBundle ρ) : Except PyError (HashLinkedQueue ρ) :=
  let newNode := q.nodes.length
  let nodes := q.nodes ++ [⟨bundle, none, q.tail⟩]
  match q.head, q.tail with
  | none, none => .ok { q with nodes, head := some newNode, tail := some newNode }
  | none, some _ => .error .assertionError
  | some _, none => .error .attributeError
  | some _, some tail =>
    .ok { q with nodes := setNext nodes tail (some newNode), tail := some newNode }

def addInner (q : HashLinkedQueue ρ) (bundle : RefBundle ρ) : Except PyError (HashLinkedQueue ρ) := do
  let linked ← q.linkNode bundle
  let deque := (q.bundleToNodes.get? bundle).getD []
  .ok { linked with bundleToNodes := q.bundleToNodes.set bundle (deque ++ [q.nodes.length]) }

def add (q : HashLinkedQueue ρ) (bundle : RefBundle ρ) : Except PyError (HashLinkedQueue ρ) :=
  { q with metrics := q.metrics.onEnqueueBundle bundle }.addInner bundle

def hasNext (q : HashLinkedQueue ρ) : Bool := 0 < q.metrics.numBundles

def peekNext (q : HashLinkedQueue ρ) : Option (RefBundle ρ) := do
  let head ← q.head
  let node ← q.nodes[head]?
  some node.value

/-- `_remove_node`: the only node, the first, the last, or one in the middle. -/
def removeNode (q : HashLinkedQueue ρ) (i : ℕ) (node : Node (RefBundle ρ)) :
    Except PyError (HashLinkedQueue ρ) :=
  if q.head = q.tail then .ok { q with head := none, tail := none }
  else if q.head = some i then
    match node.next with
    | none => .error .attributeError
    | some next => .ok { q with head := some next, nodes := setPrev q.nodes next none }
  else if q.tail = some i then
    match node.prev with
    | none => .error .attributeError
    | some prev => .ok { q with tail := some prev, nodes := setNext q.nodes prev none }
  else
    match node.prev, node.next with
    | some prev, some next =>
      .ok { q with nodes := setPrev (setNext q.nodes prev node.next) next node.prev }
    | _, _ => .error .attributeError

def removeInner (q : HashLinkedQueue ρ) (bundle : RefBundle ρ) :
    Except PyError (RefBundle ρ × HashLinkedQueue ρ) :=
  match q.bundleToNodes.get? bundle with
  | none => .error (.valueError "The bundle is not in the queue.")
  | some [] => .error .indexError
  | some (i :: deque) =>
    match q.nodes[i]? with
    | none => .error .indexError
    | some node => do
        let bundleToNodes :=
          if deque = [] then q.bundleToNodes.erase bundle else q.bundleToNodes.set bundle deque
        let q ← { q with bundleToNodes }.removeNode i node
        .ok (node.value, q)

def remove (q : HashLinkedQueue ρ) (bundle : RefBundle ρ) :
    Except PyError (RefBundle ρ × HashLinkedQueue ρ) := do
  let r ← q.removeInner bundle
  .ok (r.1, { r.2 with metrics := r.2.metrics.onDequeueBundle r.1 })

def getNextInner (q : HashLinkedQueue ρ) : Except PyError (RefBundle ρ × HashLinkedQueue ρ) :=
  match q.peekNext with
  | none => .error .indexError
  | some bundle => do
      let r ← q.removeInner bundle
      .ok (bundle, r.2)

def getNext (q : HashLinkedQueue ρ) : Except PyError (RefBundle ρ × HashLinkedQueue ρ) := do
  let r ← q.getNextInner
  .ok (r.1, { r.2 with metrics := r.2.metrics.onDequeueBundle r.1 })

/-- `__iter__`: the bundles found by following the links from the head. -/
def iter (q : HashLinkedQueue ρ) : Option (List (RefBundle ρ)) := walk q.nodes q.nodes.length q.head

def len (q : HashLinkedQueue ρ) : ℤ := q.metrics.numBundles

def clear (q : HashLinkedQueue ρ) : HashLinkedQueue ρ :=
  { q with metrics := .reset, bundleToNodes := .empty, head := none, tail := none }

/-! ### The nodes of a queue -/

/-- The addresses of the nodes that hold a bundle. -/
def addressesOf (l : List (ℕ × RefBundle ρ)) (bundle : RefBundle ρ) : List ℕ :=
  (l.filter (fun e => e.2 = bundle)).map Prod.fst

@[simp] theorem addressesOf_nil (bundle : RefBundle ρ) : addressesOf [] bundle = [] := rfl

theorem addressesOf_append (l l' : List (ℕ × RefBundle ρ)) (bundle : RefBundle ρ) :
    addressesOf (l ++ l') bundle = addressesOf l bundle ++ addressesOf l' bundle := by
  rw [addressesOf, List.filter_append, List.map_append]
  rfl

theorem addressesOf_cons (e : ℕ × RefBundle ρ) (l : List (ℕ × RefBundle ρ)) (bundle : RefBundle ρ) :
    addressesOf (e :: l) bundle = (if e.2 = bundle then [e.1] else []) ++ addressesOf l bundle := by
  rw [addressesOf, List.filter_cons]
  split_ifs <;> simp_all [addressesOf]

variable {bundle : RefBundle ρ}

theorem addressesOf_eq_nil_iff {l : List (ℕ × RefBundle ρ)} :
    addressesOf l bundle = [] ↔ bundle ∉ l.map Prod.snd := by
  rw [addressesOf, List.map_eq_nil_iff, List.filter_eq_nil_iff, List.mem_map]
  constructor
  · rintro h ⟨e, he, hb⟩
    exact h e he (decide_eq_true hb)
  · intro h e he hb
    exact h ⟨e, he, of_decide_eq_true hb⟩

/-- A queue has these nodes: its linked list and its dictionary describe them both, and the counters
count their bundles. -/
structure Describes (q : HashLinkedQueue ρ) (l : List (ℕ × RefBundle ρ)) : Prop where
  linked : IsLinkedList q.nodes q.head q.tail l
  index : ∀ bundle, (q.bundleToNodes.get? bundle).getD [] = addressesOf l bundle
  nonempty : ∀ bundle, q.bundleToNodes.get? bundle ≠ some []
  metrics : q.metrics = .totals (l.map Prod.snd)

theorem describes_init : (init : HashLinkedQueue ρ).Describes [] :=
  ⟨⟨trivial, rfl, rfl, List.nodup_nil⟩, fun _ => rfl, nofun, rfl⟩

variable {q : HashLinkedQueue ρ} {l l₁ l₂ : List (ℕ × RefBundle ρ)}

theorem Describes.get? (h : q.Describes l) (bundle : RefBundle ρ) :
    q.bundleToNodes.get? bundle =
      if addressesOf l bundle = [] then none else some (addressesOf l bundle) := by
  have hindex := h.index bundle
  have hne := h.nonempty bundle
  cases hget : q.bundleToNodes.get? bundle with
  | none =>
    rw [hget] at hindex
    have hnil : addressesOf l bundle = [] := hindex.symm
    rw [if_pos hnil]
  | some deque =>
    rw [hget] at hindex hne
    have hdeque : deque = addressesOf l bundle := hindex
    rw [if_neg (fun hnil => hne (by rw [hdeque, hnil])), hdeque]

theorem Describes.contains (h : q.Describes l) (bundle : RefBundle ρ) :
    q.contains bundle = decide (bundle ∈ l.map Prod.snd) := by
  rw [HashLinkedQueue.contains, h.get?]
  split_ifs with hnil
  · simp [addressesOf_eq_nil_iff.mp hnil]
  · rw [addressesOf_eq_nil_iff, not_not] at hnil
    simp [hnil]

theorem Describes.iter (h : q.Describes l) : q.iter = some (l.map Prod.snd) := h.linked.walk

theorem Describes.len (h : q.Describes l) : q.len = l.length := by
  rw [HashLinkedQueue.len, h.metrics, QueueMetrics.totals_numBundles, List.length_map]

theorem Describes.hasNext (h : q.Describes l) : q.hasNext = decide (l ≠ []) := by
  rw [HashLinkedQueue.hasNext, h.metrics, QueueMetrics.totals_numBundles, List.length_map,
    decide_eq_decide, Int.natCast_pos, List.length_pos_iff]

theorem Describes.peekNext (h : q.Describes l) : q.peekNext = (l.map Prod.snd).head? := by
  cases l with
  | nil => rw [HashLinkedQueue.peekNext, h.linked.head_eq]; rfl
  | cons e l =>
    rw [HashLinkedQueue.peekNext, h.linked.head_eq, firstId_cons]
    show (q.nodes[e.1]?.bind _) = _
    rw [h.linked.segment.1]
    rfl

theorem describes_clear (q : HashLinkedQueue ρ) : q.clear.Describes [] :=
  ⟨⟨trivial, rfl, rfl, List.nodup_nil⟩, fun _ => rfl, nofun, rfl⟩

/-! ### Adding -/

omit [DecidableEq ρ] in
theorem linkNode_spec (h : IsLinkedList q.nodes q.head q.tail l) (bundle : RefBundle ρ) :
    ∃ q', q.linkNode bundle = .ok q' ∧ q'.metrics = q.metrics ∧
      IsLinkedList q'.nodes q'.head q'.tail (l ++ [(q.nodes.length, bundle)]) := by
  cases l using List.reverseRecOn with
  | nil =>
    have hhead : q.head = none := h.head_eq
    have htail : q.tail = none := h.tail_eq
    rw [linkNode, hhead, htail]
    exact ⟨_, rfl, rfl, isLinkedList_single q.nodes bundle⟩
  | append_singleton l e =>
    have htail : q.tail = some e.1 := by rw [h.tail_eq, lastId_concat]
    obtain ⟨head, hhead⟩ : ∃ head, q.head = some head := by
      rw [h.head_eq, firstId_append]
      cases firstId l <;> exact ⟨_, rfl⟩
    have hlink := h.link bundle
    rw [htail, hhead] at hlink
    rw [linkNode, hhead, htail]
    exact ⟨_, rfl, rfl, hlink⟩

theorem Describes.add (h : q.Describes l) (bundle : RefBundle ρ) :
    ∃ q', q.add bundle = .ok q' ∧ q'.Describes (l ++ [(q.nodes.length, bundle)]) := by
  obtain ⟨q₁, hlink, hmetrics, hlist⟩ := linkNode_spec
    (q := { q with metrics := q.metrics.onEnqueueBundle bundle }) h.linked bundle
  set deque := (q.bundleToNodes.get? bundle).getD [] ++ [q.nodes.length] with hdeque
  refine ⟨{ q₁ with bundleToNodes := q.bundleToNodes.set bundle deque }, ?_, hlist, ?_, ?_, ?_⟩
  · rw [HashLinkedQueue.add, addInner, hlink]
    rfl
  · intro b
    rw [Dict.get?_set, addressesOf_append, addressesOf_cons, ← h.index b]
    by_cases hb : b = bundle
    · rw [if_pos hb, if_pos hb.symm, hb, hdeque]
      simp
    · rw [if_neg hb, if_neg (fun hb' => hb hb'.symm)]
      simp
  · intro b
    rw [Dict.get?_set]
    split_ifs
    · simp [hdeque]
    · exact h.nonempty b
  · show q₁.metrics = _
    rw [hmetrics, h.metrics, List.map_append]
    exact QueueMetrics.onEnqueueBundle_totals (List.perm_append_singleton bundle _)

/-! ### Removing -/

omit [DecidableEq ρ] in
theorem removeNode_spec {i : ℕ} (h : IsLinkedList q.nodes q.head q.tail (l₁ ++ (i, bundle) :: l₂)) :
    ∃ q', q.removeNode i ⟨bundle, firstId l₂, lastId l₁⟩ = .ok q' ∧ q'.metrics = q.metrics ∧
      q'.bundleToNodes = q.bundleToNodes ∧ IsLinkedList q'.nodes q'.head q'.tail (l₁ ++ l₂) := by
  cases l₁ using List.reverseRecOn with
  | nil =>
    cases l₂ with
    | nil =>
      have heq : q.head = q.tail := h.head_eq.trans h.tail_eq.symm
      rw [removeNode, if_pos heq]
      exact ⟨_, rfl, rfl, rfl, trivial, rfl, rfl, List.nodup_nil⟩
    | cons e l₂ =>
      have hsplit : IsLinkedList q.nodes q.head q.tail ([(i, bundle)] ++ e :: l₂) := h
      have hne : q.head ≠ q.tail := hsplit.head_ne_tail (by simp) (List.cons_ne_nil e l₂)
      have hhead : q.head = some i := h.head_eq
      rw [removeNode, if_neg hne, if_pos hhead]
      exact ⟨_, rfl, rfl, rfl, h.unlink_first⟩
  | append_singleton l₁ d =>
    have hhead : q.head ≠ some i := h.head_ne (by simp) (by simp)
    have hne : q.head ≠ q.tail := h.head_ne_tail (by simp) (by simp)
    rw [removeNode, if_neg hne, if_neg hhead, lastId_concat]
    cases l₂ with
    | nil =>
      have htail : q.tail = some i := by rw [h.tail_eq, lastId_concat]
      rw [if_pos htail, List.append_nil]
      exact ⟨_, rfl, rfl, rfl, h.unlink_last⟩
    | cons e l₂ =>
      have hmid : IsLinkedList q.nodes q.head q.tail ((l₁ ++ [d] ++ [(i, bundle)]) ++ e :: l₂) := by
        rw [List.append_assoc (l₁ ++ [d])]
        exact h
      have htail : q.tail ≠ some i := hmid.tail_ne (List.cons_ne_nil e l₂) (by simp)
      rw [if_neg htail, firstId_cons]
      exact ⟨_, rfl, rfl, rfl, h.unlink_middle⟩

theorem exists_first (hb : bundle ∈ l.map Prod.snd) :
    ∃ l₁ i l₂, l = l₁ ++ (i, bundle) :: l₂ ∧ bundle ∉ l₁.map Prod.snd := by
  induction l with
  | nil => simp at hb
  | cons e l ih =>
    obtain ⟨i, b⟩ := e
    by_cases heq : b = bundle
    · exact ⟨[], i, l, by rw [heq]; rfl, by simp⟩
    · rw [List.map_cons, List.mem_cons] at hb
      obtain ⟨l₁, j, l₂, rfl, hnot⟩ := ih (hb.resolve_left (fun h => heq h.symm))
      refine ⟨(i, b) :: l₁, j, l₂, rfl, ?_⟩
      rw [List.map_cons, List.mem_cons, not_or]
      exact ⟨fun h => heq h.symm, hnot⟩

/-- `_remove_inner` takes the first equal bundle out. -/
theorem Describes.removeInner {i : ℕ}
    (h : q.Describes (l₁ ++ (i, bundle) :: l₂)) (hb : bundle ∉ l₁.map Prod.snd) :
    ∃ q', q.removeInner bundle = .ok (bundle, q') ∧
      Describes { q' with metrics := q'.metrics.onDequeueBundle bundle } (l₁ ++ l₂) := by
  have hfirst : addressesOf (l₁ ++ (i, bundle) :: l₂) bundle = i :: addressesOf l₂ bundle := by
    rw [addressesOf_append, addressesOf_cons, addressesOf_eq_nil_iff.mpr hb, if_pos rfl]
    rfl
  have hget : q.bundleToNodes.get? bundle = some (i :: addressesOf l₂ bundle) := by
    rw [h.get?, hfirst, if_neg (List.cons_ne_nil i _)]
  set index := if addressesOf l₂ bundle = [] then q.bundleToNodes.erase bundle
    else q.bundleToNodes.set bundle (addressesOf l₂ bundle) with hindex
  obtain ⟨q', hremove, hmetrics, hdict, hlist⟩ := removeNode_spec
    (q := { q with bundleToNodes := index }) h.linked
  have hget' : ∀ b, q'.bundleToNodes.get? b = if b = bundle then
      if addressesOf l₂ bundle = [] then none else some (addressesOf l₂ bundle)
      else q.bundleToNodes.get? b := by
    intro b
    rw [hdict, hindex]
    split_ifs with hnil hb
    · rw [Dict.get?_erase, if_pos hb]
    · rw [Dict.get?_erase, if_neg hb]
    · rw [Dict.get?_set, if_pos ‹_›]
    · rw [Dict.get?_set, if_neg ‹_›]
  refine ⟨q', ?_, hlist, ?_, ?_, ?_⟩
  · rw [HashLinkedQueue.removeInner, hget]
    simp only [h.linked.node, ← hindex, hremove, ok_bind]
  · intro b
    rw [hget', addressesOf_append]
    by_cases heq : b = bundle
    · rw [if_pos heq, heq, addressesOf_eq_nil_iff.mpr hb, List.nil_append]
      split_ifs with hnil
      · exact hnil.symm
      · rfl
    · rw [if_neg heq, h.index, addressesOf_append, addressesOf_cons, if_neg (fun h => heq h.symm),
        List.nil_append]
  · intro b
    rw [hget']
    split_ifs with heq hnil
    · exact (Option.some_ne_none _).symm
    · exact fun hsome => hnil (Option.some.inj hsome)
    · exact h.nonempty b
  · show q'.metrics.onDequeueBundle bundle = _
    rw [hmetrics, h.metrics]
    apply QueueMetrics.onDequeueBundle_totals
    rw [List.map_append, List.map_append, List.map_cons]
    exact List.perm_middle

/-- `remove` erases the first equal bundle, and raises if there is none. -/
theorem Describes.remove (h : q.Describes l) (bundle : RefBundle ρ) :
    (bundle ∉ l.map Prod.snd ∧
      q.remove bundle = .error (.valueError "The bundle is not in the queue.")) ∨
    (bundle ∈ l.map Prod.snd ∧ ∃ q' l', q.remove bundle = .ok (bundle, q') ∧ q'.Describes l' ∧
      l'.map Prod.snd = (l.map Prod.snd).erase bundle) := by
  by_cases hb : bundle ∈ l.map Prod.snd
  · obtain ⟨l₁, i, l₂, rfl, hnot⟩ := exists_first hb
    obtain ⟨q', hremove, hdesc⟩ := h.removeInner hnot
    refine .inr ⟨hb, _, l₁ ++ l₂, by rw [HashLinkedQueue.remove, hremove]; rfl, hdesc, ?_⟩
    rw [List.map_append, List.map_append, List.map_cons, List.erase_append_right _ hnot,
      List.erase_cons_head]
  · refine .inl ⟨hb, ?_⟩
    have hget := h.get? bundle
    rw [if_pos (addressesOf_eq_nil_iff.mpr hb)] at hget
    rw [HashLinkedQueue.remove, HashLinkedQueue.removeInner, hget]
    rfl

/-- `get_next` takes the head, and raises on the empty queue. -/
theorem Describes.getNext (h : q.Describes l) :
    (l = [] ∧ q.getNext = .error .indexError) ∨
    ∃ e l', l = e :: l' ∧ ∃ q', q.getNext = .ok (e.2, q') ∧ q'.Describes l' := by
  cases l with
  | nil =>
    refine .inl ⟨rfl, ?_⟩
    rw [HashLinkedQueue.getNext, getNextInner, h.peekNext]
    rfl
  | cons e l =>
    have hsplit : q.Describes ([] ++ (e.1, e.2) :: l) := h
    obtain ⟨q', hremove, hdesc⟩ := hsplit.removeInner (by simp)
    refine .inr ⟨e, l, rfl, _, ?_, hdesc⟩
    rw [HashLinkedQueue.getNext, getNextInner, h.peekNext]
    simp only [List.map_cons, List.head?_cons, hremove, ok_bind]

/-! ### The bundles of a queue -/

/-- The queue holds these bundles, in order. -/
def Holds (q : HashLinkedQueue ρ) (bundles : List (RefBundle ρ)) : Prop :=
  ∃ l, q.Describes l ∧ l.map Prod.snd = bundles

variable {bundles : List (RefBundle ρ)}

theorem holds_init : (init : HashLinkedQueue ρ).Holds [] := ⟨[], describes_init, rfl⟩

theorem Holds.iter (h : q.Holds bundles) : q.iter = some bundles := by
  obtain ⟨l, hl, rfl⟩ := h
  exact hl.iter

theorem Holds.len (h : q.Holds bundles) : q.len = bundles.length := by
  obtain ⟨l, hl, rfl⟩ := h
  rw [hl.len, List.length_map]

theorem Holds.peekNext (h : q.Holds bundles) : q.peekNext = bundles.head? := by
  obtain ⟨l, hl, rfl⟩ := h
  exact hl.peekNext

theorem Holds.metrics (h : q.Holds bundles) : q.metrics = .totals bundles := by
  obtain ⟨l, hl, rfl⟩ := h
  exact hl.metrics

theorem Holds.add (h : q.Holds bundles) (bundle : RefBundle ρ) :
    ∃ q', q.add bundle = .ok q' ∧ q'.Holds (bundles ++ [bundle]) := by
  obtain ⟨l, hl, rfl⟩ := h
  obtain ⟨q', hadd, hl'⟩ := hl.add bundle
  exact ⟨q', hadd, _, hl', by rw [List.map_append]; rfl⟩

theorem Holds.remove (h : q.Holds bundles) (hb : bundle ∈ bundles) :
    ∃ q', q.remove bundle = .ok (bundle, q') ∧ q'.Holds (bundles.erase bundle) := by
  obtain ⟨l, hl, rfl⟩ := h
  obtain ⟨hnot, -⟩ | ⟨-, q', l', hremove, hl', heq⟩ := hl.remove bundle
  · exact absurd hb hnot
  · exact ⟨q', hremove, l', hl', heq⟩

theorem Holds.getNext (h : q.Holds (bundle :: bundles)) :
    ∃ q', q.getNext = .ok (bundle, q') ∧ q'.Holds bundles := by
  obtain ⟨l, hl, heq⟩ := h
  obtain ⟨rfl, -⟩ | ⟨e, l', rfl, q', hget, hl'⟩ := hl.getNext
  · cases heq
  · obtain ⟨rfl, rfl⟩ := List.cons.inj heq
    exact ⟨q', hget, l', hl', rfl⟩

end HashLinkedQueue

/-! ### Runs -/

/-- The operations on a queue with removal. -/
inductive QueueOp (ρ : Type) where
  | add (bundle : RefBundle ρ)
  | getNext
  | peekNext
  | remove (bundle : RefBundle ρ)
  | clear

/-- What an operation answers: nothing, a bundle if there is one, or an exception. -/
inductive QueueAnswer (ρ : Type) where
  | none
  | bundle (b : Option (RefBundle ρ))
  | raised (e : PyError)

/-- The outcome of a method that returns a bundle; if it raises, the queue stays. -/
def QueueAnswer.ofBundle {σ : Type} (s : σ) : Except PyError (RefBundle ρ × σ) → σ × QueueAnswer ρ
  | .ok (b, s') => (s', .bundle (some b))
  | .error e => (s, .raised e)

def HashLinkedQueue.step (q : HashLinkedQueue ρ) : QueueOp ρ → HashLinkedQueue ρ × QueueAnswer ρ
  | .add bundle =>
    match q.add bundle with
    | .ok q' => (q', .none)
    | .error e => (q, .raised e)
  | .getNext => QueueAnswer.ofBundle q q.getNext
  | .peekNext => (q, .bundle q.peekNext)
  | .remove bundle => QueueAnswer.ofBundle q (q.remove bundle)
  | .clear => (q.clear, .none)

/-- The plain list queue. -/
def listQueueStep (l : List (RefBundle ρ)) : QueueOp ρ → List (RefBundle ρ) × QueueAnswer ρ
  | .add bundle => (l ++ [bundle], .none)
  | .getNext =>
    match l with
    | [] => ([], .raised .indexError)
    | b :: l => (l, .bundle (some b))
  | .peekNext => (l, .bundle l.head?)
  | .remove bundle =>
    if bundle ∈ l then (l.erase bundle, .bundle (some bundle))
    else (l, .raised (.valueError "The bundle is not in the queue."))
  | .clear => ([], .none)

theorem HashLinkedQueue.step_sim {q : HashLinkedQueue ρ} {nodes : List (ℕ × RefBundle ρ)}
    (h : q.Describes nodes) (op : QueueOp ρ) :
    (q.step op).2 = (listQueueStep (nodes.map Prod.snd) op).2 ∧
      ∃ nodes', (q.step op).1.Describes nodes' ∧
        nodes'.map Prod.snd = (listQueueStep (nodes.map Prod.snd) op).1 := by
  cases op with
  | add bundle =>
    obtain ⟨q', hadd, hdesc⟩ := h.add bundle
    rw [step, hadd]
    exact ⟨rfl, _, hdesc, by rw [List.map_append]; rfl⟩
  | getNext =>
    obtain ⟨rfl, hget⟩ | ⟨e, l, rfl, q', hget, hdesc⟩ := h.getNext
    · rw [step, hget]
      exact ⟨rfl, [], h, rfl⟩
    · rw [step, hget]
      exact ⟨rfl, l, hdesc, rfl⟩
  | peekNext =>
    rw [step, h.peekNext]
    exact ⟨rfl, nodes, h, rfl⟩
  | remove bundle =>
    obtain ⟨hnot, hremove⟩ | ⟨hmem, q', l', hremove, hdesc, hl'⟩ := h.remove bundle
    · rw [step, hremove, listQueueStep, if_neg hnot]
      exact ⟨rfl, nodes, h, rfl⟩
    · rw [step, hremove, listQueueStep, if_pos hmem]
      exact ⟨rfl, l', hdesc, hl'⟩
  | clear => exact ⟨rfl, [], HashLinkedQueue.describes_clear q, rfl⟩

/-- `HashLinkedQueue` refines the list queue: over every sequence of operations it gives the same
answers, and it always shows the bundles of the list, with its links and its dictionary describing
the same nodes. -/
theorem hashLinkedQueue_refines (ops : List (QueueOp ρ)) :
    ∃ q l answers, run HashLinkedQueue.step .init ops = (q, answers) ∧
      run listQueueStep [] ops = (l, answers) ∧
      q.iter = some l ∧ (∀ bundle, q.contains bundle = decide (bundle ∈ l)) ∧
      q.hasNext = decide (l ≠ []) ∧ q.len = l.length ∧ q.metrics = .totals l ∧
      ∃ nodes, q.Describes nodes ∧ nodes.map Prod.snd = l := by
  have hsim : (run HashLinkedQueue.step .init ops).2 = (run listQueueStep [] ops).2 ∧
      ∃ nodes, (run HashLinkedQueue.step .init ops).1.Describes nodes ∧
        nodes.map Prod.snd = (run listQueueStep [] ops).1 := by
    apply run_sim (R := fun (q : HashLinkedQueue ρ) l => ∃ nodes, q.Describes nodes ∧
      nodes.map Prod.snd = l)
    · rintro q l op ⟨nodes, hdesc, rfl⟩
      exact HashLinkedQueue.step_sim hdesc op
    · exact ⟨[], HashLinkedQueue.describes_init, rfl⟩
  obtain ⟨hanswers, nodes, hdesc, hl⟩ := hsim
  refine ⟨_, nodes.map Prod.snd, _, rfl, ?_, hdesc.iter, hdesc.contains, ?_, ?_, hdesc.metrics, nodes,
    hdesc, rfl⟩
  · rw [hanswers, hl]
  · rw [hdesc.hasNext]
    simp
  · rw [hdesc.len, List.length_map]

end RayTfm.Data
