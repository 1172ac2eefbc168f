import RayTfm.Lib.WeakOrders
import RayTfm.Raylet.ClusterResources

/-! # The order of the requests of a placement group

Bundle scheduling begins with the requests for scarce and large resources.  Two requests are
compared by their GPUs, then by the custom resources that one of them demands, then by object store
memory, memory and CPUs (`lessRequired`).  Which custom resources are looked at depends on the two
requests; the comparator is a strict weak order all the same (`lessRequired_isStrictWeakOrder`), as
a resource that neither demands makes no difference, so that all comparisons follow one fixed order
of all resources (`priority`). -/

namespace RayTfm.Raylet

/-- `StringIdMap`: the integer that a name is interned as. -/
structure StringIdMap where
  toInt : String → ℤ
  injective : Function.Injective toInt

/-- Characters as the digits of a number, each at least one. -/
def ofCharacters : List Char → ℕ
  | [] => 0
  | c :: l => ofCharacters l * 1114112 + c.toNat + 1

theorem ofCharacters_injective : Function.Injective ofCharacters := by
  have hlt : ∀ c : Char, c.toNat < 1114112 := by
    intro c
    obtain h | ⟨-, h⟩ := c.valid
    · exact lt_trans h (by decide)
    · exact h
  intro l
  induction l with
  | nil =>
    intro l' h
    cases l' with
    | nil => rfl
    | cons c' l' => simp [ofCharacters] at h
  | cons c l ih =>
    intro l' h
    cases l' with
    | nil => simp [ofCharacters] at h
    | cons c' l' =>
      have hc := hlt c
      have hc' := hlt c'
      rw [ofCharacters, ofCharacters] at h
      obtain rfl : l = l' := ih (by omega)
      have hnat : c.toNat = c'.toNat := by omega
      rw [Char.toNat_inj.mp hnat]

/-- An interning of names. -/
def StringIdMap.byCharacters : StringIdMap where
  toInt name := ofCharacters name.toList
  injective _ _ h := String.toList_injective (ofCharacters_injective (Int.ofNat_inj.mp h))

/-- The custom resources that one of two requests demands, in the order of a `std::set`. -/
def extraResourcesSet (ids : StringIdMap) (a b : ResourceRequest) : List ResourceID :=
  (((a.resources.keys ++ b.resources.keys).filter
    (fun r => !r.isPredefinedResource)).dedup).insertionSort
    (fun r r' => ids.toInt r.binary ≤ ids.toInt r'.binary)

/-- The comparator of `SortRequiredResources`: does the first request come behind the second? -/
def lessRequired (ids : StringIdMap) (a b : ResourceRequest) : Bool :=
  if a.get .gpu ≠ b.get .gpu then a.get .gpu < b.get .gpu
  else
    match Comparator.firstDifference a.get b.get (extraResourcesSet ids a b) with
    | some less => less
    | none => (Comparator.firstDifference a.get b.get [.objectStoreMemory, .memory, .cpu]).getD false

/-- The request at an index. -/
def requestAt (requests : List ResourceRequest) (index : ℕ) : ResourceRequest :=
  requests.getD index ⟨DefaultMap.empty, false, []⟩

/-- `BundleSchedulingPolicy::SortRequiredResources`: the indices in the order in which their
requests are scheduled, and the requests in this order. -/
def sortRequiredResources (sort : StdSort ℕ) (ids : StringIdMap) (requests : List ResourceRequest) :
    List ℕ × List ResourceRequest :=
  let sortedIndex := sort.sort
    (fun bIdx aIdx => lessRequired ids (requestAt requests aIdx) (requestAt requests bIdx))
    (List.range requests.length)
  (sortedIndex, sortedIndex.map (requestAt requests))

/-! ### One order of all resources -/

section priority
variable (ids : StringIdMap)

/-- Where a resource stands in the order in which requests are compared. -/
def priority (r : ResourceID) : ℕ ×ₗ ℤ :=
  if r = .gpu then toLex (0, 0)
  else if r = .objectStoreMemory then toLex (2, 0)
  else if r = .memory then toLex (3, 0)
  else if r = .cpu then toLex (4, 0)
  else toLex (1, ids.toInt r.binary)

theorem isPredefinedResource_iff {r : ResourceID} :
    r.isPredefinedResource = true ↔ r = .gpu ∨ r = .objectStoreMemory ∨ r = .memory ∨ r = .cpu := by
  unfold ResourceID.isPredefinedResource
  rw [decide_eq_true_iff]
  simp only [List.mem_cons, List.not_mem_nil, or_false]
  tauto

theorem priority_of_custom {r : ResourceID} (h : r.isPredefinedResource = false) :
    priority ids r = toLex (1, ids.toInt r.binary) := by
  have hnot : ¬ (r = .gpu ∨ r = .objectStoreMemory ∨ r = .memory ∨ r = .cpu) := by
    rw [← isPredefinedResource_iff, h]
    exact Bool.false_ne_true
  push Not at hnot
  obtain ⟨hgpu, hstore, hmemory, hcpu⟩ := hnot
  rw [priority, if_neg hgpu, if_neg hstore, if_neg hmemory, if_neg hcpu]
@[simp] theorem priority_gpu : priority ids .gpu = toLex (0, 0) := rfl
@[simp] theorem priority_objectStoreMemory : priority ids .objectStoreMemory = toLex (2, 0) := rfl
@[simp] theorem priority_memory : priority ids .memory = toLex (3, 0) := rfl
@[simp] theorem priority_cpu : priority ids .cpu = toLex (4, 0) := rfl

theorem priority_injective : Function.Injective (priority ids) := by
  intro r r' h
  cases hr : r.isPredefinedResource with
  | true =>
    cases hr' : r'.isPredefinedResource with
    | true =>
      obtain rfl | rfl | rfl | rfl := isPredefinedResource_iff.mp hr <;>
        obtain rfl | rfl | rfl | rfl := isPredefinedResource_iff.mp hr' <;>
          first | rfl | exact absurd (congrArg (fun p => (ofLex p).1) h) (by simp)
    | false =>
      rw [priority_of_custom ids hr'] at h
      obtain rfl | rfl | rfl | rfl := isPredefinedResource_iff.mp hr <;>
        exact absurd (congrArg (fun p => (ofLex p).1) h) (by simp)
  | false =>
    rw [priority_of_custom ids hr] at h
    cases hr' : r'.isPredefinedResource with
    | true =>
      obtain rfl | rfl | rfl | rfl := isPredefinedResource_iff.mp hr' <;>
        exact absurd (congrArg (fun p => (ofLex p).1) h) (by simp)
    | false =>
      rw [priority_of_custom ids hr'] at h
      have hint : ids.toInt r.binary = ids.toInt r'.binary := congrArg (fun p => (ofLex p).2) h
      obtain ⟨n⟩ := r
      obtain ⟨n'⟩ := r'
      exact congrArg ResourceID.mk (ids.injective hint)

end priority

/-! ### The comparator is a strict weak order -/

section weakOrder
variable (ids : StringIdMap)

/-- All resources that make a difference, in the order of the comparator. -/
def comparedResources (a b : ResourceRequest) : List ResourceID :=
  [.gpu] ++ extraResourcesSet ids a b ++ [.objectStoreMemory, .memory, .cpu]

theorem lessRequired_eq (a b : ResourceRequest) :
    lessRequired ids a b =
      (Comparator.firstDifference a.get b.get (comparedResources ids a b)).getD false := by
  have hgpu : ∀ l, Comparator.firstDifference a.get b.get (.gpu :: l) =
      if a.get .gpu ≠ b.get .gpu then some (decide (a.get .gpu < b.get .gpu))
      else Comparator.firstDifference a.get b.get l := fun _ => rfl
  unfold lessRequired comparedResources
  rw [List.append_assoc, List.singleton_append, hgpu]
  split_ifs
  · rfl
  · rw [Comparator.firstDifference_append]
    cases Comparator.firstDifference a.get b.get (extraResourcesSet ids a b)
    · rfl
    · rfl

variable {a b : ResourceRequest}

theorem mem_extraResourcesSet {r : ResourceID} :
    r ∈ extraResourcesSet ids a b ↔ (a.get r ≠ 0 ∨ b.get r ≠ 0) ∧ r.isPredefinedResource = false := by
  unfold extraResourcesSet
  rw [List.mem_insertionSort, List.mem_dedup, List.mem_filter, List.mem_append,
    DefaultMap.mem_keys_iff, DefaultMap.mem_keys_iff, Bool.not_eq_true']
  rfl

theorem mem_comparedResources {r : ResourceID} (h : a.get r ≠ b.get r) :
    r ∈ comparedResources ids a b := by
  unfold comparedResources
  rw [List.mem_append, List.mem_append, mem_extraResourcesSet]
  cases hr : r.isPredefinedResource with
  | true =>
    obtain rfl | rfl | rfl | rfl := isPredefinedResource_iff.mp hr <;> simp
  | false =>
    refine .inl (.inr ⟨?_, rfl⟩)
    by_contra hzero
    push Not at hzero
    exact h (hzero.1.trans hzero.2.symm)

theorem pairwise_extraResourcesSet (a b : ResourceRequest) :
    (extraResourcesSet ids a b).Pairwise (fun r r' => priority ids r < priority ids r') := by
  have hle : (extraResourcesSet ids a b).Pairwise
    (fun r r' => ids.toInt r.binary ≤ ids.toInt r'.binary) := by
    have _ : Std.Total (fun r r' : ResourceID => ids.toInt r.binary ≤ ids.toInt r'.binary) :=
      ⟨fun _ _ => le_total _ _⟩
    exact List.pairwise_insertionSort _ _
  have hne : (extraResourcesSet ids a b).Nodup :=
    (List.perm_insertionSort _ _).nodup_iff.mpr (List.nodup_dedup _)
  refine (hle.and hne).imp_of_mem (fun {r r'} hr hr' h => ?_)
  have hcustom := ((mem_extraResourcesSet ids).mp hr).2
  have hcustom' := ((mem_extraResourcesSet ids).mp hr').2
  refine lt_of_le_of_ne ?_ (fun heq => h.2 (priority_injective ids heq))
  rw [priority_of_custom ids hcustom, priority_of_custom ids hcustom', Prod.Lex.toLex_le_toLex]
  exact .inr ⟨rfl, h.1⟩

theorem pairwise_comparedResources (a b : ResourceRequest) :
    (comparedResources ids a b).Pairwise (fun r r' => priority ids r < priority ids r') := by
  unfold comparedResources
  rw [List.append_assoc, List.singleton_append, List.pairwise_cons, List.pairwise_append]
  have hextra : ∀ r ∈ extraResourcesSet ids a b, priority ids r = toLex (1, ids.toInt r.binary) :=
    fun r hr => priority_of_custom ids ((mem_extraResourcesSet ids).mp hr).2
  refine ⟨fun r hr => ?_, pairwise_extraResourcesSet ids a b, ?_, fun r hr r' hr' => ?_⟩
  · obtain hr | hr := List.mem_append.mp hr
    · rw [hextra r hr]
      simp [Prod.Lex.toLex_lt_toLex]
    · simp only [List.mem_cons, List.not_mem_nil, or_false] at hr
      obtain rfl | rfl | rfl := hr <;> simp [Prod.Lex.toLex_lt_toLex]
  · simp [Prod.Lex.toLex_lt_toLex]
  · rw [hextra r hr]
    simp only [List.mem_cons, List.not_mem_nil, or_false] at hr'
    obtain rfl | rfl | rfl := hr' <;> simp [Prod.Lex.toLex_lt_toLex]

theorem lessRequired_isStrictWeakOrder :
    IsStrictWeakOrder ResourceRequest (Comparator.Before (lessRequired ids)) := by
  let _ : LinearOrder ResourceID := LinearOrder.lift' (priority ids) (priority_injective ids)
  exact Comparator.isStrictWeakOrder_of_firstDifference (lessRequired_eq ids)
    (pairwise_comparedResources ids)
    (fun _ _ _ => mem_comparedResources ids)

theorem sortRequiredResources_perm (sort : StdSort ℕ) (requests : List ResourceRequest) :
    (sortRequiredResources sort ids requests).1.Perm (List.range requests.length) := by
  have _ := lessRequired_isStrictWeakOrder ids
  apply sort.perm
  exact inferInstanceAs (IsStrictWeakOrder ℕ
    (Function.swap (Function.onFun (Comparator.Before (lessRequired ids)) (requestAt requests))))

theorem sortRequiredResources_snd (sort : StdSort ℕ) (requests : List ResourceRequest) :
    (sortRequiredResources sort ids requests).2 =
      (sortRequiredResources sort ids requests).1.map (requestAt requests) := rfl

end weakOrder

end RayTfm.Raylet
