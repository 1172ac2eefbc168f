import RayTfm.Lib.Radix
import RayTfm.Serve.PrefixTreeLists

/-! # The invariant of the prefix tree

A `View` says what the pointers of a tree stand for: the nodes that are in the tree, the text on the
path to each of them, and the list of each tenant.  `Inv` ties the state to its view: the nodes in
the tree form a radix tree with these labels, the owners of a node own its parent, the list of a
tenant has exactly the nodes it owns, and the counts are the numbers of characters on the lists.

Inside `insert` one node is on the list of the tenant before the tenant has visited it; the
invariant names it as pending. -/

namespace RayTfm.Serve.PrefixTree
open RayTfm.Threads

variable {T : Type} {s s' : PrefixTree T} {t u : String} {n m p : ℕ} {c : Char}

/-- The time of a tenant's last access to a node. -/
def time? (s : PrefixTree T) (n : ℕ) (t : String) : Option T :=
  (s.nodes n).tenantToLastAccessTime.get? t

/-- A tenant owns the nodes it has accessed. -/
def Owns (s : PrefixTree T) (t : String) (n : ℕ) : Prop :=
  t ∈ (s.nodes n).tenantToLastAccessTime.keys

instance (s : PrefixTree T) (t : String) (n : ℕ) : Decidable (s.Owns t n) :=
  inferInstanceAs (Decidable (_ ∈ _))

theorem owns_iff : s.Owns t n ↔ (s.time? n t).isSome := Dict.get?_isSome_iff.symm

/-- The number of characters a node counts for a tenant. -/
def weight (s : PrefixTree T) (t : String) (n : ℕ) : ℤ :=
  if s.Owns t n then (s.nodes n).text.length else 0

/-- What the pointers of a tree stand for. -/
structure View where
  live : ℕ → Prop
  label : ℕ → Text
  chain : String → List ℕ

/-- The nodes in the tree form a radix tree. -/
structure Shape (s : PrefixTree T) (live : ℕ → Prop) (label : ℕ → Text) : Prop where
  labelled : Radix.Labelled (fun n => (s.nodes n).text) s.child? root live label
  lt_numNodes : ∀ {n}, live n → n < s.numNodes
  parent : ∀ {p c m}, live p → s.child? p c = some m → (s.nodes m).parent = some p
  parent_root : (s.nodes root).parent = none
  text_root : (s.nodes root).text = []

/-- The state is the one the view describes; a pending node is on the list of a tenant in
advance. -/
structure Inv (s : PrefixTree T) (v : View) (pend : Option (String × ℕ)) : Prop where
  shape : Shape s v.live v.label
  pend_live : ∀ {t n}, pend = some (t, n) → s.HasTenant t ∧ v.live n
  tenant : ∀ {t n}, v.live n → s.Owns t n → s.HasTenant t
  chain_head : ∀ {t}, s.HasTenant t → (v.chain t).head? = some root
  owns_parent : ∀ {t p c m}, v.live p → s.child? p c = some m → s.Owns t m → s.Owns t p
  owned : ∀ {n}, v.live n → n ≠ root → (∃ t, s.Owns t n) ∨ ∃ t, pend = some (t, n)
  threaded : ∀ t, Threaded s t (v.chain t)
  mem_chain : ∀ {t n}, n ∈ v.chain t ↔ v.live n ∧ (s.Owns t n ∨ pend = some (t, n))
  count : ∀ {t}, s.HasTenant t →
    s.tenantToCharCount.get? t = some ((v.chain t).map (s.weight t)).sum

variable {v : View} {pend : Option (String × ℕ)}

/-! ### States with the same tree -/

namespace SameTree

theorem child? (h : SameTree s s') : s'.child? = s.child? := by
  funext p c
  unfold PrefixTree.child?
  rw [h.children]

theorem time? (h : SameTree s s') : s'.time? = s.time? := by
  funext n t
  unfold PrefixTree.time?
  rw [h.times]

theorem owns (h : SameTree s s') : s'.Owns t n ↔ s.Owns t n := by
  rw [owns_iff, owns_iff, h.time?]

theorem hasTenant (h : SameTree s s') : s'.HasTenant t ↔ s.HasTenant t := by
  unfold HasTenant
  rw [h.counts]

theorem weight (h : SameTree s s') : s'.weight = s.weight := by
  funext t n
  unfold PrefixTree.weight
  simp only [h.owns, h.text]

theorem shape (h : SameTree s s') {live : ℕ → Prop} {label : ℕ → Text} (hs : Shape s live label) :
    Shape s' live label := by
  refine ⟨?_, fun hn => h.numNodes ▸ hs.lt_numNodes hn, ?_, (h.parent _).trans hs.parent_root,
    (h.text _).trans hs.text_root⟩
  · rw [h.child?, show (fun n => (s'.nodes n).text) = fun n => (s.nodes n).text from funext h.text]
    exact hs.labelled
  · intro p c m hp hm
    rw [h.child?] at hm
    rw [h.parent, hs.parent hp hm]

end SameTree

/-! ### Consequences -/

namespace Shape
variable {live : ℕ → Prop} {label : ℕ → Text}

theorem root_ne (h : Shape s live label) (hn : ¬ live n) : n ≠ root := by
  rintro rfl
  exact hn h.labelled.root_live

theorem not_live_numNodes (h : Shape s live label) : ¬ live s.numNodes :=
  fun hn => Nat.lt_irrefl _ (h.lt_numNodes hn)

theorem child_ne_root (h : Shape s live label) (hp : live p) (hm : s.child? p c = some m) :
    m ≠ root := h.labelled.child_ne_root hp hm

end Shape

namespace Inv

theorem root_live (h : Inv s v pend) : v.live root := h.shape.labelled.root_live

theorem live_of_mem_chain (h : Inv s v pend) (hn : n ∈ v.chain t) : v.live n := (h.mem_chain.mp hn).1

theorem nodup_chain (h : Inv s v pend) (t : String) : (v.chain t).Nodup := (h.threaded t).nodup

theorem chain_eq_nil (h : Inv s v pend) (ht : ¬ s.HasTenant t) : v.chain t = [] := by
  rw [List.eq_nil_iff_forall_not_mem]
  intro n hn
  obtain ⟨hlive, hown | hpend⟩ := h.mem_chain.mp hn
  · exact ht (h.tenant hlive hown)
  · exact ht (h.pend_live hpend).1

theorem root_mem_chain (h : Inv s v pend) (ht : s.HasTenant t) : root ∈ v.chain t :=
  List.mem_of_mem_head? (h.chain_head ht)

theorem owns_root (h : Inv s v none) (ht : s.HasTenant t) : s.Owns t root := by
  obtain ⟨_, hown | hpend⟩ := h.mem_chain.mp (h.root_mem_chain ht)
  · exact hown
  · cases hpend

theorem length_chain_le (h : Inv s v pend) (t : String) : (v.chain t).length ≤ s.numNodes := by
  have hsub : (v.chain t) ⊆ List.range s.numNodes := fun n hn =>
    List.mem_range.mpr (h.shape.lt_numNodes (h.live_of_mem_chain hn))
  have hle := ((h.nodup_chain t).subperm hsub).length_le
  rwa [List.length_range] at hle

end Inv

/-! ### The empty tree -/

theorem inv_init : Inv (init : PrefixTree T) ⟨(· = root), fun _ => [], fun _ => []⟩ none where
  shape := by
    refine ⟨⟨rfl, rfl, ?_, ?_, ?_, .inl⟩, ?_, ?_, rfl, rfl⟩
    · intro p c m _ hm
      exact absurd hm (by simp [init, child?, Node.init])
    · intro p c m _ hm
      exact absurd hm (by simp [init, child?, Node.init])
    · intro p c m _ hm
      exact absurd hm (by simp [init, child?, Node.init])
    · rintro n rfl
      exact Nat.zero_lt_one
    · intro p c m _ hm
      exact absurd hm (by simp [init, child?, Node.init])
  pend_live hp := absurd hp (by simp)
  tenant _ ho := absurd ho (by simp [Owns, init, Node.init])
  chain_head ht := absurd ht (by simp [HasTenant, init])
  owns_parent _ hm := absurd hm (by simp [init, child?, Node.init])
  owned hn hroot := absurd hn hroot
  threaded t := ⟨List.nodup_nil, rfl, rfl, rfl⟩
  mem_chain := by
    intro t n
    simp [Owns, init, Node.init]
  count ht := absurd ht (by simp [HasTenant, init])

end RayTfm.Serve.PrefixTree
