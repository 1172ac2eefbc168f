import RayTfm.Serve.PrefixTree

/-! # The lists of the tenants

What the pointer operations of the prefix tree do: `insertNodeIntoLinkedList` links a node between
two neighbours of one tenant's list, `removeNodeFromLinkedList` unlinks it, and neither touches the
tree or the list of another tenant.  `Threaded s tenant l` says that the pointers of the tenant are
those of the list `l`. -/

namespace RayTfm.Serve.PrefixTree
open Threads

variable {T : Type} {s s' s'' : PrefixTree T} {t u : String}

/-! ### Pointers as functions -/

/-- The older pointers of a tenant. -/
def olderOf (s : PrefixTree T) (t : String) : ℕ → Option ℕ := fun n => (s.nodes n).tenantToOlderNode t

/-- The newer pointers of a tenant. -/
def newerOf (s : PrefixTree T) (t : String) : ℕ → Option ℕ := fun n => (s.nodes n).tenantToNewerNode t

theorem nodes_modify (s : PrefixTree T) (n m : ℕ) (f : Node T → Node T) :
    (s.modify n f).nodes m = if m = n then f (s.nodes n) else s.nodes m := Function.update_apply ..

@[simp] theorem olderOf_setOlder (s : PrefixTree T) (n : ℕ) (t : String) (v : Option ℕ) :
    (s.setOlder n t v).olderOf t = Function.update (s.olderOf t) n v := by
  funext m
  simp only [olderOf, setOlder, nodes_modify, Function.update_apply]
  split_ifs
  · exact Function.update_self ..
  · rfl

@[simp] theorem newerOf_setNewer (s : PrefixTree T) (n : ℕ) (t : String) (v : Option ℕ) :
    (s.setNewer n t v).newerOf t = Function.update (s.newerOf t) n v := by
  funext m
  simp only [newerOf, setNewer, nodes_modify, Function.update_apply]
  split_ifs
  · exact Function.update_self ..
  · rfl

@[simp] theorem olderOf_setNewer (s : PrefixTree T) (n : ℕ) (t u : String) (v : Option ℕ) :
    (s.setNewer n t v).olderOf u = s.olderOf u := by
  funext m
  simp only [olderOf, setNewer, nodes_modify]
  split_ifs with h
  · rw [h]
  · rfl

@[simp] theorem newerOf_setOlder (s : PrefixTree T) (n : ℕ) (t u : String) (v : Option ℕ) :
    (s.setOlder n t v).newerOf u = s.newerOf u := by
  funext m
  simp only [newerOf, setOlder, nodes_modify]
  split_ifs with h
  · rw [h]
  · rfl

theorem olderOf_setOlder_of_ne (s : PrefixTree T) (n : ℕ) (h : u ≠ t) (v : Option ℕ) :
    (s.setOlder n t v).olderOf u = s.olderOf u := by
  funext m
  simp only [olderOf, setOlder, nodes_modify]
  split_ifs with hm
  · rw [hm]
    exact Function.update_of_ne h _ _
  · rfl

theorem newerOf_setNewer_of_ne (s : PrefixTree T) (n : ℕ) (h : u ≠ t) (v : Option ℕ) :
    (s.setNewer n t v).newerOf u = s.newerOf u := by
  funext m
  simp only [newerOf, setNewer, nodes_modify]
  split_ifs with hm
  · rw [hm]
    exact Function.update_of_ne h _ _
  · rfl

@[simp] theorem olderOf_setOlderIf (s : PrefixTree T) (n : Option ℕ) (t : String) (v : Option ℕ) :
    (s.setOlderIf n t v).olderOf t = writeAt (s.olderOf t) n v := by
  cases n with
  | none => rfl
  | some n => exact olderOf_setOlder s n t v

@[simp] theorem newerOf_setNewerIf (s : PrefixTree T) (n : Option ℕ) (t : String) (v : Option ℕ) :
    (s.setNewerIf n t v).newerOf t = writeAt (s.newerOf t) n v := by
  cases n with
  | none => rfl
  | some n => exact newerOf_setNewer s n t v

@[simp] theorem olderOf_setNewerIf (s : PrefixTree T) (n : Option ℕ) (t u : String) (v : Option ℕ) :
    (s.setNewerIf n t v).olderOf u = s.olderOf u := by
  cases n with
  | none => rfl
  | some n => exact olderOf_setNewer s n t u v

@[simp] theorem newerOf_setOlderIf (s : PrefixTree T) (n : Option ℕ) (t u : String) (v : Option ℕ) :
    (s.setOlderIf n t v).newerOf u = s.newerOf u := by
  cases n with
  | none => rfl
  | some n => exact newerOf_setOlder s n t u v

theorem olderOf_setOlderIf_of_ne (s : PrefixTree T) (n : Option ℕ) (h : u ≠ t) (v : Option ℕ) :
    (s.setOlderIf n t v).olderOf u = s.olderOf u := by
  cases n with
  | none => rfl
  | some n => exact olderOf_setOlder_of_ne s n h v

theorem newerOf_setNewerIf_of_ne (s : PrefixTree T) (n : Option ℕ) (h : u ≠ t) (v : Option ℕ) :
    (s.setNewerIf n t v).newerOf u = s.newerOf u := by
  cases n with
  | none => rfl
  | some n => exact newerOf_setNewer_of_ne s n h v

@[simp] theorem olderOf_replaceTail (s : PrefixTree T) (t u : String) (v w : Option ℕ) :
    (s.replaceTail t v w).olderOf u = s.olderOf u := by
  unfold replaceTail
  split_ifs <;> rfl

@[simp] theorem newerOf_replaceTail (s : PrefixTree T) (t u : String) (v w : Option ℕ) :
    (s.replaceTail t v w).newerOf u = s.newerOf u := by
  unfold replaceTail
  split_ifs <;> rfl

@[simp] theorem tenantToLruTail_setOlder (s : PrefixTree T) (n : ℕ) (t : String) (v : Option ℕ) :
    (s.setOlder n t v).tenantToLruTail = s.tenantToLruTail := rfl

@[simp] theorem tenantToLruTail_setNewer (s : PrefixTree T) (n : ℕ) (t : String) (v : Option ℕ) :
    (s.setNewer n t v).tenantToLruTail = s.tenantToLruTail := rfl

@[simp] theorem tenantToLruTail_setOlderIf (s : PrefixTree T) (n : Option ℕ) (t : String)
    (v : Option ℕ) : (s.setOlderIf n t v).tenantToLruTail = s.tenantToLruTail := by
  cases n <;> rfl

@[simp] theorem tenantToLruTail_setNewerIf (s : PrefixTree T) (n : Option ℕ) (t : String)
    (v : Option ℕ) : (s.setNewerIf n t v).tenantToLruTail = s.tenantToLruTail := by
  cases n <;> rfl

theorem tenantToLruTail_replaceTail_of_ne (s : PrefixTree T) (h : u ≠ t) (v w : Option ℕ) :
    (s.replaceTail t v w).tenantToLruTail u = s.tenantToLruTail u := by
  unfold replaceTail
  split_ifs
  · exact Function.update_of_ne h ..
  · rfl

/-! ### The tree without the pointers -/

/-- Two states that differ in the pointers of the lists only. -/
structure SameTree (s s' : PrefixTree T) : Prop where
  numNodes : s'.numNodes = s.numNodes
  counts : s'.tenantToCharCount = s.tenantToCharCount
  text : ∀ n, (s'.nodes n).text = (s.nodes n).text
  parent : ∀ n, (s'.nodes n).parent = (s.nodes n).parent
  children : ∀ n, (s'.nodes n).edgeLabelToChild = (s.nodes n).edgeLabelToChild
  times : ∀ n, (s'.nodes n).tenantToLastAccessTime = (s.nodes n).tenantToLastAccessTime

theorem SameTree.refl (s : PrefixTree T) : SameTree s s :=
  ⟨rfl, rfl, fun _ => rfl, fun _ => rfl, fun _ => rfl, fun _ => rfl⟩

theorem SameTree.trans (h : SameTree s s') (h' : SameTree s' s'') : SameTree s s'' :=
  ⟨h'.numNodes.trans h.numNodes, h'.counts.trans h.counts, fun n => (h'.text n).trans (h.text n),
    fun n => (h'.parent n).trans (h.parent n), fun n => (h'.children n).trans (h.children n),
    fun n => (h'.times n).trans (h.times n)⟩

theorem SameTree.modify (s : PrefixTree T) (n : ℕ) {f : Node T → Node T}
    (h : ∀ x, (f x).text = x.text ∧ (f x).parent = x.parent ∧
      (f x).edgeLabelToChild = x.edgeLabelToChild ∧
      (f x).tenantToLastAccessTime = x.tenantToLastAccessTime) : SameTree s (s.modify n f) := by
  have hnode : ∀ m, (s.modify n f).nodes m = f (s.nodes m) ∨ (s.modify n f).nodes m = s.nodes m := by
    intro m
    rw [nodes_modify]
    split_ifs with hm
    · rw [hm]
      exact .inl rfl
    · exact .inr rfl
  refine ⟨rfl, rfl, fun m => ?_, fun m => ?_, fun m => ?_, fun m => ?_⟩
  · obtain hm | hm := hnode m
    · rw [hm, (h _).1]
    · rw [hm]
  · obtain hm | hm := hnode m
    · rw [hm, (h _).2.1]
    · rw [hm]
  · obtain hm | hm := hnode m
    · rw [hm, (h _).2.2.1]
    · rw [hm]
  · obtain hm | hm := hnode m
    · rw [hm, (h _).2.2.2]
    · rw [hm]

theorem SameTree.setOlder (s : PrefixTree T) (n : ℕ) (t : String) (v : Option ℕ) :
    SameTree s (s.setOlder n t v) := SameTree.modify s n (fun _ => ⟨rfl, rfl, rfl, rfl⟩)

theorem SameTree.setNewer (s : PrefixTree T) (n : ℕ) (t : String) (v : Option ℕ) :
    SameTree s (s.setNewer n t v) := SameTree.modify s n (fun _ => ⟨rfl, rfl, rfl, rfl⟩)

theorem SameTree.setOlderIf (s : PrefixTree T) (n : Option ℕ) (t : String) (v : Option ℕ) :
    SameTree s (s.setOlderIf n t v) := by
  cases n with
  | none => exact .refl s
  | some n => exact .setOlder s n t v

theorem SameTree.setNewerIf (s : PrefixTree T) (n : Option ℕ) (t : String) (v : Option ℕ) :
    SameTree s (s.setNewerIf n t v) := by
  cases n with
  | none => exact .refl s
  | some n => exact .setNewer s n t v

theorem SameTree.replaceTail (s : PrefixTree T) (t : String) (v w : Option ℕ) :
    SameTree s (s.replaceTail t v w) := by
  unfold PrefixTree.replaceTail
  split_ifs
  · exact ⟨rfl, rfl, fun _ => rfl, fun _ => rfl, fun _ => rfl, fun _ => rfl⟩
  · exact .refl s

theorem insertNode_of_skip {s : PrefixTree T} {n : ℕ} {t : String}
    (h : ¬ s.HasTenant t ∨ n = root) {v w : Option ℕ} :
    s.insertNodeIntoLinkedList n v w t = s := by
  unfold insertNodeIntoLinkedList
  by_cases ht : s.HasTenant t
  · rw [if_neg (not_not.mpr ht), if_pos (h.resolve_left (not_not.mpr ht))]
  · rw [if_pos ht]

theorem removeNode_of_skip {s : PrefixTree T} {n : ℕ} {t : String}
    (h : ¬ s.HasTenant t ∨ n = root) : s.removeNodeFromLinkedList n t = s := by
  unfold removeNodeFromLinkedList
  by_cases ht : s.HasTenant t
  · rw [if_neg (not_not.mpr ht), if_pos (h.resolve_left (not_not.mpr ht))]
  · rw [if_pos ht]

theorem SameTree.insertNode (s : PrefixTree T) (n : ℕ) (v w : Option ℕ) (t : String) :
    SameTree s (s.insertNodeIntoLinkedList n v w t) := by
  by_cases hskip : ¬ s.HasTenant t ∨ n = root
  · rw [insertNode_of_skip hskip]
    exact .refl s
  rw [not_or, not_not] at hskip
  rw [insertNodeIntoLinkedList, if_neg (not_not.mpr hskip.1), if_neg hskip.2]
  refine SameTree.trans ?_ (.replaceTail _ t v _)
  refine SameTree.trans ?_ (.setNewerIf _ w t _)
  refine SameTree.trans ?_ (.setOlderIf _ v t _)
  exact (SameTree.setNewer s n t v).trans (.setOlder _ n t w)

theorem SameTree.removeNode (s : PrefixTree T) (n : ℕ) (t : String) :
    SameTree s (s.removeNodeFromLinkedList n t) := by
  by_cases hskip : ¬ s.HasTenant t ∨ n = root
  · rw [removeNode_of_skip hskip]
    exact .refl s
  rw [not_or, not_not] at hskip
  rw [removeNodeFromLinkedList, if_neg (not_not.mpr hskip.1), if_neg hskip.2]
  refine SameTree.trans ?_ (.setOlder _ n t none)
  refine SameTree.trans ?_ (.setNewer _ n t none)
  refine SameTree.trans ?_ (.replaceTail _ t _ _)
  exact (SameTree.setNewerIf s _ t _).trans (.setOlderIf _ _ t _)

/-! ### The lists -/

/-- The pointers of the tenant are those of the list. -/
structure Threaded (s : PrefixTree T) (t : String) (l : List ℕ) : Prop where
  nodup : l.Nodup
  older : s.olderOf t = succOf l
  newer : s.newerOf t = predOf l
  tail : s.tenantToLruTail t = l.getLast?

variable {l l₁ l₂ : List ℕ} {n : ℕ}

/-- The last node of the front part is the last of the whole list only if nothing follows. -/
theorem getLast?_append_eq_iff (h : (l₁ ++ l₂).Nodup) :
    (l₁ ++ l₂).getLast? = l₁.getLast? ↔ l₂ = [] := by
  rw [List.getLast?_append]
  constructor
  · intro heq
    by_contra hne
    obtain ⟨l, x, rfl⟩ := (List.eq_nil_or_concat' l₂).resolve_left hne
    rw [List.getLast?_concat, Option.some_or] at heq
    exact (List.nodup_append.mp h).2.2 x (List.mem_of_getLast? heq.symm) x (by simp) rfl
  · rintro rfl
    rfl

theorem Threaded.insertNode (h : Threaded s t (l₁ ++ l₂)) (ht : s.HasTenant t) (hroot : n ≠ root)
    (hn : n ∉ l₁ ++ l₂) :
    Threaded (s.insertNodeIntoLinkedList n l₁.getLast? l₂.head? t) t (l₁ ++ n :: l₂) := by
  unfold insertNodeIntoLinkedList
  rw [if_neg (not_not.mpr ht), if_neg hroot]
  refine ⟨?_, ?_, ?_, ?_⟩
  · exact List.nodup_middle.mpr (List.nodup_cons.mpr ⟨hn, h.nodup⟩)
  · simp only [olderOf_replaceTail, olderOf_setNewerIf, olderOf_setOlderIf, olderOf_setOlder,
      olderOf_setNewer]
    rw [h.older, succOf_insert h.nodup hn]
  · simp only [newerOf_replaceTail, newerOf_setNewerIf, newerOf_setOlderIf, newerOf_setOlder,
      newerOf_setNewer]
    rw [h.newer, predOf_insert h.nodup hn]
  · have hiff := getLast?_append_eq_iff h.nodup
    rw [replaceTail]
    simp only [tenantToLruTail_setNewerIf, tenantToLruTail_setOlderIf, tenantToLruTail_setOlder,
      tenantToLruTail_setNewer, h.tail, hiff]
    split_ifs with hl
    · subst hl
      rw [List.getLast?_concat]
      exact Function.update_self ..
    · simp only [tenantToLruTail_setNewerIf, tenantToLruTail_setOlderIf, tenantToLruTail_setOlder,
        tenantToLruTail_setNewer, h.tail]
      obtain ⟨l, x, rfl⟩ := (List.eq_nil_or_concat' l₂).resolve_left hl
      simp [List.getLast?_append, List.getLast?_cons]

theorem Threaded.insertNode_of_ne (h : Threaded s u l) (hu : u ≠ t) (n : ℕ) (v w : Option ℕ) :
    Threaded (s.insertNodeIntoLinkedList n v w t) u l := by
  by_cases hskip : ¬ s.HasTenant t ∨ n = root
  · rw [insertNode_of_skip hskip]
    exact h
  rw [not_or, not_not] at hskip
  rw [insertNodeIntoLinkedList, if_neg (not_not.mpr hskip.1), if_neg hskip.2]
  refine ⟨h.nodup, ?_, ?_, ?_⟩
  · simp only [olderOf_replaceTail, olderOf_setNewerIf, olderOf_setOlderIf_of_ne _ _ hu,
      olderOf_setOlder_of_ne _ _ hu, olderOf_setNewer, h.older]
  · simp only [newerOf_replaceTail, newerOf_setNewerIf_of_ne _ _ hu, newerOf_setOlderIf,
      newerOf_setOlder, newerOf_setNewer_of_ne _ _ hu, h.newer]
  · simp only [tenantToLruTail_replaceTail_of_ne _ hu, tenantToLruTail_setNewerIf,
      tenantToLruTail_setOlderIf, tenantToLruTail_setOlder, tenantToLruTail_setNewer, h.tail]

theorem notMem_of_nodup_middle (h : (l₁ ++ n :: l₂).Nodup) : n ∉ l₁ ∧ n ∉ l₂ := by
  have hn := (List.nodup_cons.mp (List.nodup_middle.mp h)).1
  rwa [List.mem_append, not_or] at hn

theorem Threaded.removeNode (h : Threaded s t (l₁ ++ n :: l₂)) (ht : s.HasTenant t)
    (hroot : n ≠ root) : Threaded (s.removeNodeFromLinkedList n t) t (l₁ ++ l₂) := by
  obtain ⟨hn₁, hn₂⟩ := notMem_of_nodup_middle h.nodup
  have holder : (s.nodes n).tenantToOlderNode t = l₂.head? := by
    rw [show (s.nodes n).tenantToOlderNode t = s.olderOf t n from rfl, h.older, succOf_middle hn₁]
  have hnewer : (s.nodes n).tenantToNewerNode t = l₁.getLast? := by
    rw [show (s.nodes n).tenantToNewerNode t = s.newerOf t n from rfl, h.newer, predOf_middle hn₂]
  unfold removeNodeFromLinkedList
  rw [if_neg (not_not.mpr ht), if_neg hroot, holder, hnewer]
  refine ⟨(List.nodup_cons.mp (List.nodup_middle.mp h.nodup)).2, ?_, ?_, ?_⟩
  · simp only [olderOf_setOlder, olderOf_setNewer, olderOf_replaceTail, olderOf_setOlderIf,
      olderOf_setNewerIf]
    rw [h.older, succOf_remove h.nodup]
  · simp only [newerOf_setOlder, newerOf_setNewer, newerOf_replaceTail, newerOf_setOlderIf,
      newerOf_setNewerIf]
    rw [h.newer, predOf_remove h.nodup]
  · simp only [tenantToLruTail_setOlder, tenantToLruTail_setNewer]
    rw [replaceTail]
    simp only [tenantToLruTail_setOlderIf, tenantToLruTail_setNewerIf, h.tail]
    obtain rfl | ⟨l, x, rfl⟩ := List.eq_nil_or_concat' l₂
    · rw [if_pos List.getLast?_concat, List.append_nil]
      exact Function.update_self ..
    · have hx : x ≠ n := fun hx => hn₂ (by simp [hx])
      rw [if_neg (by simpa [List.getLast?_append, List.getLast?_cons] using hx)]
      simp [List.getLast?_append, List.getLast?_cons, h.tail]

theorem Threaded.removeNode_of_ne (h : Threaded s u l) (hu : u ≠ t) (n : ℕ) :
    Threaded (s.removeNodeFromLinkedList n t) u l := by
  by_cases hskip : ¬ s.HasTenant t ∨ n = root
  · rw [removeNode_of_skip hskip]
    exact h
  rw [not_or, not_not] at hskip
  rw [removeNodeFromLinkedList, if_neg (not_not.mpr hskip.1), if_neg hskip.2]
  refine ⟨h.nodup, ?_, ?_, ?_⟩
  · simp only [olderOf_setOlder_of_ne _ _ hu, olderOf_setNewer, olderOf_replaceTail,
      olderOf_setOlderIf_of_ne _ _ hu, olderOf_setNewerIf, h.older]
  · simp only [newerOf_setOlder, newerOf_setNewer_of_ne _ _ hu, newerOf_replaceTail,
      newerOf_setOlderIf, newerOf_setNewerIf_of_ne _ _ hu, h.newer]
  · simp only [tenantToLruTail_replaceTail_of_ne _ hu, tenantToLruTail_setNewerIf,
      tenantToLruTail_setOlderIf, tenantToLruTail_setOlder, tenantToLruTail_setNewer, h.tail]

theorem Threaded.removeNode_of_notMem (h : Threaded s t l) (ht : s.HasTenant t) (hn : n ∉ l) :
    Threaded (s.removeNodeFromLinkedList n t) t l := by
  have holder : (s.nodes n).tenantToOlderNode t = none := by
    rw [show (s.nodes n).tenantToOlderNode t = s.olderOf t n from rfl, h.older, succOf_of_notMem hn]
  have hnewer : (s.nodes n).tenantToNewerNode t = none := by
    rw [show (s.nodes n).tenantToNewerNode t = s.newerOf t n from rfl, h.newer, predOf_of_notMem hn]
  by_cases hroot : n = root
  · rw [removeNode_of_skip (.inr hroot)]
    exact h
  rw [removeNodeFromLinkedList, if_neg (not_not.mpr ht), if_neg hroot, holder, hnewer]
  have htail : s.tenantToLruTail t ≠ some n := by
    rw [h.tail]
    exact fun hlast => hn (List.mem_of_getLast? hlast)
  have hupdate : ∀ f : ℕ → Option ℕ, f n = none → Function.update f n none = f := by
    intro f hf
    rw [← hf, Function.update_eq_self]
  refine ⟨h.nodup, ?_, ?_, ?_⟩
  · simp only [olderOf_setOlder, olderOf_setNewer, olderOf_replaceTail, setOlderIf, setNewerIf]
    rw [hupdate _ holder, h.older]
  · simp only [newerOf_setOlder, newerOf_setNewer, newerOf_replaceTail, setOlderIf, setNewerIf]
    rw [hupdate _ hnewer, h.newer]
  · simp only [tenantToLruTail_setOlder, tenantToLruTail_setNewer, setOlderIf, setNewerIf]
    rw [replaceTail, if_neg htail, h.tail]

end RayTfm.Serve.PrefixTree
