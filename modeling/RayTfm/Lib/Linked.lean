import Mathlib

/-! # Doubly linked lists in a heap

A heap is a list of nodes, and the address of a node is its position.  `Segment heap p l q` says
that the nodes of `l`, given by address and value, hang together in both directions, that the first
one has the predecessor `p` and the last one the successor `q`.  A segment only depends on its own
nodes (`Segment.congr`), a part of a segment is one (`segment_append`), and its two outer links can
be set (`Segment.setNext`, `Segment.setPrev`).  `IsLinkedList` is a whole list with its two ends; a
node can be linked behind it (`IsLinkedList.link`) and unlinked at either end or in the middle
(`IsLinkedList.unlink_first`, `IsLinkedList.unlink_last`, `IsLinkedList.unlink_middle`). -/

namespace RayTfm

/-- A node of a doubly linked list. -/
structure Node (β : Type) where
  value : β
  next : Option ℕ
  prev : Option ℕ
deriving DecidableEq, Repr

namespace Linked

variable {β : Type}

/-- The address of the first node. -/
def firstId (l : List (ℕ × β)) : Option ℕ := l.head?.map Prod.fst

/-- The address of the last node. -/
def lastId (l : List (ℕ × β)) : Option ℕ := l.getLast?.map Prod.fst

def setNext (heap : List (Node β)) (i : ℕ) (q : Option ℕ) : List (Node β) :=
  heap.modify i (fun node => { node with next := q })

def setPrev (heap : List (Node β)) (i : ℕ) (p : Option ℕ) : List (Node β) :=
  heap.modify i (fun node => { node with prev := p })

/-- The nodes of the list hang together between the predecessor and the successor. -/
def Segment (heap : List (Node β)) : Option ℕ → List (ℕ × β) → Option ℕ → Prop
  | _, [], _ => True
  | p, (i, v) :: l, q => heap[i]? = some ⟨v, (firstId l).or q, p⟩ ∧ Segment heap (some i) l q

@[simp] theorem firstId_nil : firstId ([] : List (ℕ × β)) = none := rfl
@[simp] theorem lastId_nil : lastId ([] : List (ℕ × β)) = none := rfl

@[simp] theorem firstId_cons (e : ℕ × β) (l : List (ℕ × β)) : firstId (e :: l) = some e.1 := rfl

@[simp] theorem lastId_concat (l : List (ℕ × β)) (e : ℕ × β) : lastId (l ++ [e]) = some e.1 := by
  simp [lastId]

theorem firstId_append (l l' : List (ℕ × β)) : firstId (l ++ l') = (firstId l).or (firstId l') := by
  cases l <;> simp

theorem lastId_append (l l' : List (ℕ × β)) : lastId (l ++ l') = (lastId l').or (lastId l) := by
  cases l' using List.reverseRecOn with
  | nil => simp
  | append_singleton l' e => rw [← List.append_assoc, lastId_concat, lastId_concat, Option.some_or]

theorem lastId_cons (e : ℕ × β) (l : List (ℕ × β)) :
    lastId (e :: l) = (lastId l).or (some e.1) := lastId_append [e] l

variable {heap heap' : List (Node β)} {p q : Option ℕ} {l l' : List (ℕ × β)}

theorem getElem?_setNext (heap : List (Node β)) (i j : ℕ) (q : Option ℕ) :
    (setNext heap i q)[j]? =
      if i = j then (heap[j]?).map (fun node => { node with next := q }) else heap[j]? := by
  rw [setNext, List.getElem?_modify]
  split_ifs <;> simp

theorem getElem?_setPrev (heap : List (Node β)) (i j : ℕ) (p : Option ℕ) :
    (setPrev heap i p)[j]? =
      if i = j then (heap[j]?).map (fun node => { node with prev := p }) else heap[j]? := by
  rw [setPrev, List.getElem?_modify]
  split_ifs <;> simp

/-- A segment depends only on its own nodes. -/
theorem Segment.congr (h : Segment heap p l q) (hl : ∀ e ∈ l, heap'[e.1]? = heap[e.1]?) :
    Segment heap' p l q := by
  induction l generalizing p with
  | nil => trivial
  | cons e l ih =>
    refine ⟨?_, ih h.2 (fun e' he' => hl e' (.tail _ he'))⟩
    rw [hl e List.mem_cons_self]
    exact h.1

theorem segment_append : Segment heap p (l ++ l') q ↔
    Segment heap p l ((firstId l').or q) ∧ Segment heap ((lastId l).or p) l' q := by
  induction l generalizing p with
  | nil => simp [Segment]
  | cons e l ih =>
    obtain ⟨i, v⟩ := e
    rw [List.cons_append, Segment, Segment, ih, firstId_append, Option.or_assoc, lastId_cons,
      Option.or_assoc, Option.some_or, and_assoc]

theorem segment_singleton {i : ℕ} {v : β} :
    Segment heap p [(i, v)] q ↔ heap[i]? = some ⟨v, q, p⟩ := by
  simp [Segment]

variable {e : ℕ × β}

/-- The nodes of a segment are in the heap. -/
theorem Segment.exists_node (h : Segment heap p l q) (he : e ∈ l) :
    ∃ q' p', heap[e.1]? = some ⟨e.2, q', p'⟩ := by
  obtain ⟨l₁, l₂, rfl⟩ := List.append_of_mem he
  rw [← List.singleton_append, segment_append, segment_append] at h
  exact ⟨_, _, segment_singleton.mp h.2.1⟩

theorem Segment.lt_length (h : Segment heap p l q) (he : e ∈ l) : e.1 < heap.length := by
  obtain ⟨q', p', hnode⟩ := h.exists_node he
  exact (List.getElem?_eq_some_iff.mp hnode).1

/-- Links of other nodes do not matter. -/
theorem Segment.setNext_of_notMem {i : ℕ} (h : Segment heap p l q) (hi : i ∉ l.map Prod.fst)
    (q' : Option ℕ) : Segment (Linked.setNext heap i q') p l q := by
  apply h.congr
  intro e he
  rw [getElem?_setNext, if_neg]
  rintro rfl
  exact hi (List.mem_map_of_mem he)

theorem Segment.setPrev_of_notMem {i : ℕ} (h : Segment heap p l q) (hi : i ∉ l.map Prod.fst)
    (p' : Option ℕ) : Segment (Linked.setPrev heap i p') p l q := by
  apply h.congr
  intro e he
  rw [getElem?_setPrev, if_neg]
  rintro rfl
  exact hi (List.mem_map_of_mem he)

theorem Segment.setNext (h : Segment heap p (l ++ [e]) q) (he : e.1 ∉ l.map Prod.fst)
    (q' : Option ℕ) : Segment (Linked.setNext heap e.1 q') p (l ++ [e]) q' := by
  obtain ⟨i, v⟩ := e
  rw [segment_append, segment_singleton] at h ⊢
  refine ⟨h.1.setNext_of_notMem he q', ?_⟩
  rw [getElem?_setNext, if_pos rfl, h.2]
  rfl

theorem Segment.setPrev (h : Segment heap p (e :: l) q) (he : e.1 ∉ l.map Prod.fst)
    (p' : Option ℕ) : Segment (Linked.setPrev heap e.1 p') p' (e :: l) q := by
  obtain ⟨i, v⟩ := e
  refine ⟨?_, h.2.setPrev_of_notMem he p'⟩
  rw [getElem?_setPrev, if_pos rfl, h.1]
  rfl

theorem Segment.alloc (h : Segment heap p l q) (node : Node β) : Segment (heap ++ [node]) p l q := by
  apply h.congr
  intro e he
  exact List.getElem?_append_left (h.lt_length he)

/-- The values found by following the links; `none` if the steps do not suffice. -/
def walk (heap : List (Node β)) : ℕ → Option ℕ → Option (List β)
  | _, none => some []
  | 0, some _ => none
  | steps + 1, some i => do
      let node ← heap[i]?
      let rest ← walk heap steps node.next
      some (node.value :: rest)

theorem Segment.walk (h : Segment heap p l none) {steps : ℕ} (hs : l.length ≤ steps) :
    walk heap steps (firstId l) = some (l.map Prod.snd) := by
  induction l generalizing p steps with
  | nil => cases steps <;> rfl
  | cons e l ih =>
    obtain ⟨i, v⟩ := e
    obtain ⟨hnode, hl⟩ := h
    cases steps with
    | zero => simp at hs
    | succ steps =>
      rw [List.length_cons] at hs
      rw [firstId_cons, Linked.walk, hnode]
      simp only [Option.or_none, Option.bind_eq_bind, Option.bind_some]
      rw [ih hl (by omega)]
      rfl

/-- The nodes of the list, in order, with the two ends. -/
structure IsLinkedList (heap : List (Node β)) (head tail : Option ℕ) (l : List (ℕ × β)) : Prop where
  segment : Segment heap none l none
  head_eq : head = firstId l
  tail_eq : tail = lastId l
  nodup : (l.map Prod.fst).Nodup

theorem IsLinkedList.length_le {head tail : Option ℕ} (h : IsLinkedList heap head tail l) :
    l.length ≤ heap.length := by
  have hsub : l.map Prod.fst ⊆ List.range heap.length := by
    intro i hi
    obtain ⟨e, he, rfl⟩ := List.mem_map.mp hi
    exact List.mem_range.mpr (h.segment.lt_length he)
  have := (h.nodup.subperm hsub).length_le
  rwa [List.length_map, List.length_range] at this

theorem IsLinkedList.walk {head tail : Option ℕ} (h : IsLinkedList heap head tail l) :
    Linked.walk heap heap.length head = some (l.map Prod.snd) := by
  rw [h.head_eq]
  exact h.segment.walk h.length_le

section nodes
variable {head tail : Option ℕ} {l₁ l₂ : List (ℕ × β)} {d e : ℕ × β} {i : ℕ} {v : β}

theorem IsLinkedList.node (h : IsLinkedList heap head tail (l₁ ++ (i, v) :: l₂)) :
    heap[i]? = some ⟨v, firstId l₂, lastId l₁⟩ := by
  have hsegment := h.segment
  rw [← List.singleton_append, segment_append, segment_append, segment_singleton] at hsegment
  rw [hsegment.2.1, Option.or_none, Option.or_none]

theorem IsLinkedList.disjoint (h : IsLinkedList heap head tail (l₁ ++ l₂)) :
    ∀ a ∈ l₁.map Prod.fst, ∀ b ∈ l₂.map Prod.fst, a ≠ b := by
  have hn := h.nodup
  rw [List.map_append, List.nodup_append] at hn
  exact hn.2.2

theorem IsLinkedList.head_mem (h : IsLinkedList heap head tail (l₁ ++ l₂)) (hl : l₁ ≠ []) :
    ∃ j ∈ l₁.map Prod.fst, head = some j := by
  obtain ⟨e, l, rfl⟩ := List.exists_cons_of_ne_nil hl
  exact ⟨e.1, by simp, h.head_eq⟩

theorem IsLinkedList.tail_mem (h : IsLinkedList heap head tail (l₁ ++ l₂)) (hl : l₂ ≠ []) :
    ∃ j ∈ l₂.map Prod.fst, tail = some j := by
  obtain ⟨l, e, rfl⟩ := List.eq_nil_or_concat' l₂ |>.resolve_left hl
  refine ⟨e.1, by simp, ?_⟩
  rw [h.tail_eq, ← List.append_assoc, lastId_concat]

theorem IsLinkedList.head_ne (h : IsLinkedList heap head tail (l₁ ++ l₂)) (hl : l₁ ≠ [])
    (hi : i ∈ l₂.map Prod.fst) : head ≠ some i := by
  obtain ⟨j, hj, rfl⟩ := h.head_mem hl
  exact fun heq => h.disjoint j hj i hi (Option.some.inj heq)

theorem IsLinkedList.tail_ne (h : IsLinkedList heap head tail (l₁ ++ l₂)) (hl : l₂ ≠ [])
    (hi : i ∈ l₁.map Prod.fst) : tail ≠ some i := by
  obtain ⟨j, hj, rfl⟩ := h.tail_mem hl
  exact fun heq => h.disjoint i hi j hj (Option.some.inj heq).symm

theorem IsLinkedList.head_ne_tail (h : IsLinkedList heap head tail (l₁ ++ l₂)) (hl₁ : l₁ ≠ [])
    (hl₂ : l₂ ≠ []) : head ≠ tail := by
  obtain ⟨j, hj, rfl⟩ := h.tail_mem hl₂
  exact h.head_ne hl₁ hj

theorem nodup_ids_middle (h : ((l₁ ++ d :: l₂).map Prod.fst).Nodup) :
    ((l₁ ++ l₂).map Prod.fst).Nodup :=
  h.sublist ((List.Sublist.append_left (List.sublist_cons_self d l₂) l₁).map Prod.fst)

theorem IsLinkedList.link (h : IsLinkedList heap head tail (l ++ [d])) (v : β) :
    IsLinkedList (Linked.setNext (heap ++ [⟨v, none, tail⟩]) d.1 (some heap.length)) head
      (some heap.length) (l ++ [d] ++ [(heap.length, v)]) := by
  have hlt : ∀ e ∈ l ++ [d], e.1 < heap.length := fun e he => h.segment.lt_length he
  have hd := hlt d (by simp)
  refine ⟨?_, ?_, by rw [lastId_concat], ?_⟩
  · rw [segment_append, segment_singleton]
    refine ⟨(h.segment.alloc _).setNext (fun hmem => h.disjoint d.1 hmem d.1 (by simp) rfl) _, ?_⟩
    rw [getElem?_setNext, if_neg (by omega), List.getElem?_concat_length, h.tail_eq, Option.or_none]
  · rw [h.head_eq, firstId_append (l ++ [d]), firstId_append]
    cases firstId l <;> rfl
  · rw [List.map_append, List.nodup_append]
    refine ⟨h.nodup, List.nodup_singleton _, ?_⟩
    rintro j hj k hk rfl
    obtain ⟨e, he, rfl⟩ := List.mem_map.mp hj
    have := hlt e he
    rw [List.map_singleton, List.mem_singleton] at hk
    omega

theorem isLinkedList_single (heap : List (Node β)) (v : β) :
    IsLinkedList (heap ++ [⟨v, none, none⟩]) (some heap.length) (some heap.length)
      [(heap.length, v)] :=
  ⟨segment_singleton.mpr List.getElem?_concat_length, rfl, rfl, List.nodup_singleton _⟩

theorem IsLinkedList.unlink_first (h : IsLinkedList heap head tail (d :: e :: l)) :
    IsLinkedList (Linked.setPrev heap e.1 none) (some e.1) tail (e :: l) := by
  have hn := h.nodup
  rw [List.map_cons, List.map_cons, List.nodup_cons, List.nodup_cons] at hn
  refine ⟨h.segment.2.setPrev hn.2.1 none, rfl, ?_, ?_⟩
  · rw [h.tail_eq, lastId_cons, lastId_cons]
    cases lastId l <;> rfl
  · rw [List.map_cons]
    exact List.nodup_cons.mpr hn.2

theorem IsLinkedList.unlink_last (h : IsLinkedList heap head tail (l ++ [d] ++ [e])) :
    IsLinkedList (Linked.setNext heap d.1 none) head (some d.1) (l ++ [d]) := by
  have hn := (List.nodup_append.mp (List.map_append ▸ h.nodup)).1
  have hd : d.1 ∉ l.map Prod.fst := by
    rw [List.map_append, List.nodup_append] at hn
    exact fun hmem => hn.2.2 d.1 hmem d.1 (by simp) rfl
  refine ⟨(segment_append.mp h.segment).1.setNext hd none, ?_, (lastId_concat l d).symm, hn⟩
  rw [h.head_eq, firstId_append (l ++ [d]), firstId_append]
  cases firstId l <;> rfl

theorem IsLinkedList.unlink_middle
    (h : IsLinkedList heap head tail (l₁ ++ [d] ++ (i, v) :: e :: l₂)) :
    IsLinkedList (Linked.setPrev (Linked.setNext heap d.1 (some e.1)) e.1 (some d.1)) head tail
      (l₁ ++ [d] ++ e :: l₂) := by
  have hnodup := nodup_ids_middle h.nodup
  have hn := hnodup
  rw [List.map_append, List.nodup_append] at hn
  obtain ⟨hn₁, hn₂, hdisj⟩ := hn
  have hd : d.1 ∉ l₁.map Prod.fst := by
    rw [List.map_append, List.nodup_append] at hn₁
    exact fun hmem => hn₁.2.2 d.1 hmem d.1 (by simp) rfl
  rw [List.map_cons, List.nodup_cons] at hn₂
  obtain ⟨hfront, hback⟩ := segment_append.mp h.segment
  refine ⟨?_, ?_, ?_, hnodup⟩
  · rw [segment_append, lastId_concat, firstId_cons]
    refine ⟨?_, ?_⟩
    · apply (hfront.setNext hd (some e.1)).setPrev_of_notMem
      exact fun hmem => hdisj e.1 hmem e.1 (by simp) rfl
    · apply (hback.2.setNext_of_notMem _ (some e.1)).setPrev hn₂.1
      exact fun hmem => hdisj d.1 (by simp) d.1 hmem rfl
  · rw [h.head_eq, firstId_append, firstId_append (l₁ ++ [d]), firstId_append l₁]
    cases firstId l₁ <;> rfl
  · rw [h.tail_eq, lastId_append (l₁ ++ [d]), lastId_append (l₁ ++ [d]), lastId_cons, lastId_cons]
    cases lastId l₂ <;> rfl

end nodes

end Linked
end RayTfm
