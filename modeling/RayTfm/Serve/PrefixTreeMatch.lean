import RayTfm.Serve.PrefixTreeStrings
import RayTfm.Serve.PrefixTreeRuns

/-! # Matching against the prefix tree

`prefix_match` finds the longest prefix of a text that some available tenant has a string for, and
all available tenants that have one (`prefixMatch_strings`): the match may end inside an edge, and
the owners of its lower end are then the tenants with a string through this point.  After an
eviction a tenant's matches are no longer than before (`Pruned.prefixMatchLoop_le`). -/

namespace RayTfm.Serve.PrefixTree

variable {T : Type} {s s' s₀ : PrefixTree T} {t u : String} {n m p i : ℕ} {c : Char} {v : View}
  {S : Strings} {text rest done q w x : Text} {available : List String} {R : List ℕ}

theorem exists_cons_of_prefix (hq : q <+: w ++ rest) (hlt : w.length < q.length) :
    ∃ r, q = w ++ r ∧ r <+: rest ∧ r ≠ [] := by
  obtain ⟨r, rfl⟩ := List.prefix_of_prefix_length_le (List.prefix_append w rest) hq hlt.le
  refine ⟨r, rfl, (List.prefix_append_right_inj w).mp hq, ?_⟩
  rintro rfl
  simp at hlt

/-- The strings that go on below a node go through the child in their direction. -/
theorem Spells.exists_child (h : Spells s v S) (hinv : Inv s v none) (hn : v.live n) (hx : x ∈ S u)
    {r : Text} (hpre : v.label n ++ c :: r <+: x) :
    ∃ m, s.child? n c = some m ∧ v.label m <+: x ∧ s.Owns u m := by
  obtain ⟨e, he, rfl⟩ := h.ends hx
  obtain ⟨y, hy⟩ := hpre
  rw [List.append_assoc, List.cons_append] at hy
  obtain ⟨m, hm, hmlive, hmpre⟩ := hinv.shape.labelled.exists_child hn he hy.symm
  exact ⟨m, hm, hmpre, (h.owns hmlive).mpr ⟨_, hx, hmpre⟩⟩

/-- The result of a match: how far the text matches some available tenant, and a node whose owners
are the tenants that have a string through this point. -/
structure Matches (s : PrefixTree T) (S : Strings) (available : List String) (text : Text)
    (r : ℕ × ℕ) : Prop where
  le_length : r.1 ≤ text.length
  owner : ∃ u ∈ available, s.Owns u r.2
  owns : ∀ u, s.Owns u r.2 ↔ ∃ x ∈ S u, text.take r.1 <+: x
  longest : ∀ q, q <+: text → (∃ u ∈ available, ∃ x ∈ S u, q <+: x) → q.length ≤ r.1

/-- The match ends at a node when no string of an available tenant goes on. -/
theorem Spells.matches_node (h : Spells s v S) (hn : v.live n) (htext : text = v.label n ++ rest)
    (havail : ∃ u ∈ available, s.Owns u n)
    (hstop : ∀ u ∈ available, ∀ x ∈ S u, ∀ c r, c :: r <+: rest → ¬ v.label n ++ c :: r <+: x) :
    Matches s S available text ((v.label n).length, n) := by
  refine ⟨?_, havail, ?_, ?_⟩
  · rw [htext, List.length_append]
    exact Nat.le_add_right ..
  · intro u
    rw [h.owns hn, htext, List.take_left]
  · rintro q hq ⟨u, hu, x, hx, hqx⟩
    by_contra hlt
    rw [htext] at hq
    obtain ⟨r, rfl, hr, hne⟩ := exists_cons_of_prefix hq (by simpa using hlt)
    obtain ⟨c, r, rfl⟩ := List.exists_cons_of_ne_nil hne
    exact hstop u hu x hx c r hr hqx

theorem Spells.matches_edge (h : Spells s v S) (hinv : Inv s v none) (hn : v.live n)
    (htext : text = v.label n ++ c :: rest) (hm : s.child? n c = some m)
    (havail : ∃ u ∈ available, s.Owns u m)
    (hlt : sharedPrefixCount (s.nodes m).text (c :: rest) < (s.nodes m).text.length) :
    Matches s S available text
      ((v.label n).length + sharedPrefixCount (s.nodes m).text (c :: rest), m) := by
  have hlabelled := hinv.shape.labelled
  have hlabel := hlabelled.child_label hn hm
  have htake := take_sharedPrefixCount (s.nodes m).text (c :: rest)
  have hpos := sharedPrefixCount_pos (hlabelled.child_head hn hm) (b := c :: rest) rfl
  have hmax : ∀ k, k ≤ (s.nodes m).text.length → k ≤ (c :: rest).length →
      (s.nodes m).text.take k = (c :: rest).take k →
      k ≤ sharedPrefixCount (s.nodes m).text (c :: rest) := fun k => le_sharedPrefixCount
  have hle : sharedPrefixCount (s.nodes m).text (c :: rest) ≤ (c :: rest).length := by
    have hlen := congrArg List.length htake
    rw [List.length_take, List.length_take] at hlen
    omega
  generalize sharedPrefixCount (s.nodes m).text (c :: rest) = k at *
  obtain ⟨k, rfl⟩ : ∃ j, k = j + 1 := ⟨k - 1, by omega⟩
  have hprefix : text.take ((v.label n).length + (k + 1)) = v.label n ++ (c :: rest).take (k + 1) := by
    rw [htext, List.take_length_add_append]
  have hthrough : ∀ {u x r}, x ∈ S u → v.label n ++ c :: r <+: x → v.label m <+: x := by
    intro u x r hx hpre
    obtain ⟨m', hm', hmx, _⟩ := h.exists_child hinv hn hx hpre
    rw [hm, Option.some.injEq] at hm'
    exact hm' ▸ hmx
  refine ⟨?_, havail, ?_, ?_⟩
  · rw [htext, List.length_append]
    exact Nat.add_le_add_left hle _
  · intro u
    rw [h.owns (hlabelled.child_live hn hm), hprefix]
    constructor
    · rintro ⟨x, hx, hpre⟩
      refine ⟨x, hx, List.IsPrefix.trans ?_ hpre⟩
      rw [hlabel, ← htake]
      exact (List.prefix_append_right_inj _).mpr (List.take_prefix ..)
    · rintro ⟨x, hx, hpre⟩
      rw [List.take_succ_cons] at hpre
      exact ⟨x, hx, hthrough hx hpre⟩
  · rintro q hq ⟨u, hu, x, hx, hqx⟩
    by_contra hlonger
    rw [htext] at hq
    obtain ⟨r, rfl, hr, hne⟩ := exists_cons_of_prefix hq (by
      omega)
    rw [List.length_append] at hlonger
    -- the string goes on with the text, but it goes through the lower end of the edge
    obtain ⟨d, r, rfl⟩ := List.exists_cons_of_ne_nil hne
    have hd : d = c := by
      obtain ⟨y, hy⟩ := hr
      rw [List.cons_append, List.cons.injEq] at hy
      exact hy.1
    subst hd
    obtain ⟨y, rfl⟩ := hthrough hx hqx
    rw [hlabel, List.append_assoc, List.prefix_append_right_inj] at hqx
    have hlong := hmax (k + 2) (by omega) (by have := hr.length_le; omega) ?_
    · omega
    · obtain ⟨y₁, hy₁⟩ := hqx
      obtain ⟨y₂, hy₂⟩ := hr
      have h₁ := congrArg (List.take (k + 2)) hy₁
      have h₂ := congrArg (List.take (k + 2)) hy₂
      rw [List.take_append_of_le_length (by omega), List.take_append_of_le_length (by omega)] at h₁
      rw [List.take_append_of_le_length (by omega)] at h₂
      rw [← h₁, ← h₂]

variable {rounds : ℕ}

theorem Spells.prefixMatchLoop (h : Spells s v S) (hinv : Inv s v none)
    (hrounds : rest.length ≤ rounds) (hn : v.live n) (htext : text = v.label n ++ rest)
    (havail : ∃ u ∈ available, s.Owns u n) :
    ∃ r, s.prefixMatchLoop available rounds n (v.label n).length rest = some r ∧
      Matches s S available text r := by
  induction rounds generalizing n rest with
  | zero =>
    obtain rfl := List.length_eq_zero_iff.mp (Nat.le_zero.mp hrounds)
    refine ⟨_, by rw [PrefixTree.prefixMatchLoop], h.matches_node hn htext havail ?_⟩
    intro u _ x _ c r hr
    exact absurd (List.prefix_nil.mp hr) (List.cons_ne_nil c r)
  | succ rounds ih =>
    cases rest with
    | nil =>
      refine ⟨_, by rw [PrefixTree.prefixMatchLoop], h.matches_node hn htext havail ?_⟩
      intro u _ x _ c r hr
      exact absurd (List.prefix_nil.mp hr) (List.cons_ne_nil c r)
    | cons c rest =>
      have hhead : ∀ {d r}, d :: r <+: c :: rest → d = c := by
        rintro d r ⟨y, hy⟩
        rw [List.cons_append, List.cons.injEq] at hy
        exact hy.1
      rw [PrefixTree.prefixMatchLoop]
      cases hm : s.child? n c with
      | none =>
        refine ⟨_, rfl, h.matches_node hn htext havail ?_⟩
        intro u _ x hx d r hr hpre
        obtain ⟨m, hm', _⟩ := h.exists_child hinv hn hx hpre
        rw [hhead hr, hm] at hm'
        cases hm'
      | some m =>
        simp only
        have hmlive := hinv.shape.labelled.child_live hn hm
        by_cases hown : ∃ u ∈ available, s.Owns u m
        · rw [if_neg (by
            rw [not_not, List.any_eq_true]
            obtain ⟨u, hu, ho⟩ := hown
            exact ⟨u, hu, decide_eq_true ho⟩)]
          split_ifs with hlt
          · exact ⟨_, rfl, h.matches_edge hinv hn htext hm hown hlt⟩
          · have htake := take_sharedPrefixCount (s.nodes m).text (c :: rest)
            have hle := sharedPrefixCount_le_left (s.nodes m).text (c :: rest)
            have hpos := sharedPrefixCount_pos (hinv.shape.labelled.child_head hn hm)
              (b := c :: rest) rfl
            have hlabel := hinv.shape.labelled.child_label hn hm
            have hfull : sharedPrefixCount (s.nodes m).text (c :: rest) =
                (s.nodes m).text.length := by omega
            rw [hfull] at hpos htake ⊢
            rw [List.take_length] at htake
            have hlen : (v.label n).length + (s.nodes m).text.length = (v.label m).length := by
              rw [hlabel, List.length_append]
            rw [hlen]
            refine ih ?_ hmlive ?_ hown
            · rw [List.length_drop]
              omega
            · rw [hlabel, htext, List.append_assoc]
              congr 1
              conv_lhs => rw [← List.take_append_drop (s.nodes m).text.length (c :: rest)]
              rw [← htake]
        · rw [if_pos (by
            rw [List.any_eq_true]
            rintro ⟨u, hu, ho⟩
            exact hown ⟨u, hu, of_decide_eq_true ho⟩)]
          refine ⟨_, rfl, h.matches_node hn htext havail ?_⟩
          intro u hu x hx d r hr hpre
          obtain ⟨m', hm', _, ho⟩ := h.exists_child hinv hn hx hpre
          rw [hhead hr, hm, Option.some.injEq] at hm'
          exact hown ⟨u, hu, hm' ▸ ho⟩

/-- The longest prefix of a text that some tenant of the list has a string for. -/
structure LongestMatch (S : Strings) (available : List String) (text p : Text) : Prop where
  is_prefix : p <+: text
  inserted : ∃ t ∈ available, ∃ x ∈ S t, p <+: x
  longest : ∀ q, q <+: text → (∃ t ∈ available, ∃ x ∈ S t, q <+: x) → q.length ≤ p.length

theorem prefixMatch_eq (h : ∃ t ∈ available, s.HasTenant t) (text : Text) :
    s.prefixMatch text (some available) =
      (s.prefixMatchLoop (available.filter (fun t => s.HasTenant t)) text.length root 0 text).map
        (fun r => (text.take r.1,
          s.matchedTenants (available.filter (fun t => s.HasTenant t)) r.2)) := by
  obtain ⟨t, hmem, ht⟩ := h
  have hne : available.filter (fun t => s.HasTenant t) ≠ [] :=
    List.ne_nil_of_mem (List.mem_filter.mpr ⟨hmem, decide_eq_true ht⟩)
  cases available with
  | nil => cases hmem
  | cons a available =>
    rw [prefixMatch]
    · exact if_neg hne
    · exact List.cons_ne_nil a available

/-- The match is the longest one, and its tenants are those that have a string for it. -/
theorem Spells.prefixMatch (h : Spells s v S) (hinv : Inv s v none)
    (havail : ∃ t ∈ available, s.HasTenant t) (text : Text) :
    ∃ p, LongestMatch S available text p ∧ s.prefixMatch text (some available) =
      some (p, some (available.filter (fun t => ∃ x ∈ S t, p <+: x))) := by
  have hroot := hinv.shape.labelled.label_root
  have hex : ∀ {t x}, x ∈ S t → s.HasTenant t := fun hx =>
    (h.tenants _).mpr (List.ne_nil_of_mem hx)
  obtain ⟨t, hmem, ht⟩ := havail
  have hown : ∃ u ∈ available.filter (fun t => s.HasTenant t), s.Owns u root :=
    ⟨t, List.mem_filter.mpr ⟨hmem, decide_eq_true ht⟩, hinv.owns_root ht⟩
  have htext : text = v.label root ++ text := by rw [hroot, List.nil_append]
  obtain ⟨r, hloop, hr⟩ := h.prefixMatchLoop hinv le_rfl hinv.root_live htext hown
  rw [hroot, List.length_nil] at hloop
  have hlen : (text.take r.1).length = r.1 := List.length_take_of_le hr.le_length
  obtain ⟨u, hu, hown⟩ := hr.owner
  have hfilter : (available.filter (fun t => s.HasTenant t)).filter (fun t =>
      t ∈ (s.nodes r.2).tenantToLastAccessTime.keys) =
      available.filter (fun t => ∃ x ∈ S t, text.take r.1 <+: x) := by
    rw [List.filter_filter]
    refine List.filter_congr (fun t _ => ?_)
    rw [← Bool.decide_and, decide_eq_decide]
    constructor
    · exact fun hand => (hr.owns t).mp hand.1
    · rintro ⟨x, hx, hpre⟩
      exact ⟨(hr.owns t).mpr ⟨x, hx, hpre⟩, hex hx⟩
  refine ⟨text.take r.1, ⟨List.take_prefix .., ?_, ?_⟩, ?_⟩
  · exact ⟨u, (List.mem_filter.mp hu).1, (hr.owns u).mp hown⟩
  · rintro q hq ⟨u, hu, x, hx, hqx⟩
    rw [hlen]
    exact hr.longest q hq ⟨u, List.mem_filter.mpr ⟨hu, decide_eq_true (hex hx)⟩, x, hx, hqx⟩
  · rw [prefixMatch_eq ⟨t, hmem, ht⟩, hloop, Option.map_some, matchedTenants]
    simp only [hfilter]
    rw [if_neg (List.ne_nil_of_mem (List.mem_filter.mpr
      ⟨(List.mem_filter.mp hu).1, decide_eq_true ((hr.owns u).mp hown)⟩))]

/-! ### Matching after an eviction -/

theorem prefixMatchLoop_total (available : List String) (i : ℕ) {live : ℕ → Prop}
    (hchild : ∀ {p c m}, live p →
      s.child? p c = some m → live m ∧ (s.nodes m).text.head? = some c)
    (hrounds : rest.length ≤ rounds) (hn : live n) :
    ∃ r, s.prefixMatchLoop available rounds n i rest = some r ∧ i ≤ r.1 := by
  induction rounds generalizing n i rest with
  | zero =>
    obtain rfl := List.length_eq_zero_iff.mp (Nat.le_zero.mp hrounds)
    exact ⟨(i, n), by rw [PrefixTree.prefixMatchLoop], le_rfl⟩
  | succ rounds ih =>
    cases rest with
    | nil => exact ⟨(i, n), by rw [PrefixTree.prefixMatchLoop], le_rfl⟩
    | cons c rest =>
      rw [PrefixTree.prefixMatchLoop]
      cases hm : s.child? n c with
      | none => exact ⟨_, rfl, le_rfl⟩
      | some m =>
        obtain ⟨hmlive, hhead⟩ := hchild hn hm
        have hpos := sharedPrefixCount_pos hhead (b := c :: rest) rfl
        simp only
        split_ifs
        · exact ⟨_, rfl, Nat.le_add_right ..⟩
        · have hdrop : ((c :: rest).drop
              (sharedPrefixCount (s.nodes m).text (c :: rest))).length ≤ rounds := by
            rw [List.length_drop]
            omega
          obtain ⟨r, hr, hle⟩ :=
            ih (i := i + sharedPrefixCount (s.nodes m).text (c :: rest)) hdrop hmlive
          exact ⟨r, hr, (Nat.le_add_right ..).trans hle⟩
        · exact ⟨_, rfl, le_rfl⟩

theorem Pruned.prefixMatchLoop_le (h : Pruned s₀ v t R s) (available : List String) (i : ℕ)
    (hinv : Inv s₀ v none) (hrounds : rest.length ≤ rounds) (hn : v.live n) :
    ∃ r r₀, s.prefixMatchLoop available rounds n i rest = some r ∧
      s₀.prefixMatchLoop available rounds n i rest = some r₀ ∧ r.1 ≤ r₀.1 := by
  have hchild₀ : ∀ {p c m}, v.live p → s₀.child? p c = some m →
      v.live m ∧ (s₀.nodes m).text.head? = some c := fun hp hm =>
    ⟨hinv.shape.labelled.child_live hp hm, hinv.shape.labelled.child_head hp hm⟩
  induction rounds generalizing n i rest with
  | zero =>
    obtain rfl := List.length_eq_zero_iff.mp (Nat.le_zero.mp hrounds)
    exact ⟨(i, n), (i, n), by rw [PrefixTree.prefixMatchLoop], by rw [PrefixTree.prefixMatchLoop],
      le_rfl⟩
  | succ rounds ih =>
    cases rest with
    | nil =>
      exact ⟨(i, n), (i, n), by rw [PrefixTree.prefixMatchLoop],
        by rw [PrefixTree.prefixMatchLoop], le_rfl⟩
    | cons c rest =>
      -- where the search stops early, the old one is at least as far
      have hstop : ∃ r r₀, some (i, n) = some r ∧
          s₀.prefixMatchLoop available (rounds + 1) n i (c :: rest) = some r₀ ∧
          r.1 ≤ r₀.1 := by
        obtain ⟨r₀, hr₀, hle⟩ := prefixMatchLoop_total available i hchild₀ hrounds hn
        exact ⟨(i, n), r₀, rfl, hr₀, hle⟩
      rw [PrefixTree.prefixMatchLoop]
      cases hm : s.child? n c with
      | none => exact hstop
      | some m =>
        have hm₀ := ((h.child n c m hn).mp hm).1
        simp only
        split_ifs with hany hlt
        · obtain ⟨u, hu, ho⟩ := List.any_eq_true.mp hany
          have ho₀ := (h.owns.mp (of_decide_eq_true ho)).1
          rw [PrefixTree.prefixMatchLoop, hm₀]
          simp only
          rw [if_neg (not_not.mpr (List.any_eq_true.mpr ⟨u, hu, decide_eq_true ho₀⟩)), ← h.text,
            if_pos hlt]
          exact ⟨_, _, rfl, rfl, le_rfl⟩
        · obtain ⟨u, hu, ho⟩ := List.any_eq_true.mp hany
          have ho₀ := (h.owns.mp (of_decide_eq_true ho)).1
          obtain ⟨hmlive, hhead⟩ := hchild₀ hn hm₀
          rw [← h.text] at hhead
          have hpos := sharedPrefixCount_pos hhead (b := c :: rest) rfl
          rw [PrefixTree.prefixMatchLoop, hm₀]
          simp only
          rw [if_neg (not_not.mpr (List.any_eq_true.mpr ⟨u, hu, decide_eq_true ho₀⟩)), ← h.text,
            if_neg hlt]
          refine ih _ ?_ hmlive
          rw [List.length_drop]
          simp only [List.length_cons] at hrounds ⊢
          omega
        · exact hstop

/-- An eviction removes enough characters, and no match of the tenant gets longer. -/
def EvictsEnough [DecidableEq T] (s : PrefixTree T) : Prop :=
  ∀ t minRemoveSize, ∃ s' k, s.evictTenantByLru t minRemoveSize = some (s', k) ∧
    min minRemoveSize ((s.tenantToCharCount.get? t).getD 0) ≤ k ∧
    s'.tenantToCharCount.get? t = (s.tenantToCharCount.get? t).map (fun count => count - k) ∧
    ∀ text, ∃ p p' tenants tenants', s.prefixMatch text (some [t]) = some (p, tenants) ∧
      s'.prefixMatch text (some [t]) = some (p', tenants') ∧ p'.length ≤ p.length

theorem Inv.evictsEnough [DecidableEq T] (hinv : Inv s v none) : s.EvictsEnough := by
  intro t minRemoveSize
  cases hk : s.tenantToCharCount.get? t with
  | none =>
    have ht : ¬ s.HasTenant t := Dict.get?_eq_none_iff.mp hk
    refine ⟨s, 0, by rw [evictTenantByLru, hk], by simp, hk, fun text => ?_⟩
    have hmatch : s.prefixMatch text (some [t]) = some ([], none) := by
      simp [PrefixTree.prefixMatch, ht]
    exact ⟨[], [], none, none, hmatch, hmatch, le_rfl⟩
  | some count =>
    have ht : s.HasTenant t := Dict.get?_isSome_iff.mp (by rw [hk]; rfl)
    obtain ⟨s', l, R, hrun, hrem, _, henough, _⟩ :=
      evictTenantByLru_spec hinv ht hk minRemoveSize
    refine ⟨s', _, hrun, henough, ?_, fun text => ?_⟩
    · rw [hrem.pruned.count, hk]
      rfl
    · have ht' : s'.HasTenant t := (hrem.pruned.hasTenant t).mpr ht
      have hlen : text.length ≤ text.length := le_rfl
      obtain ⟨r, r₀, hr, hr₀, hle⟩ :=
        hrem.pruned.prefixMatchLoop_le [t] 0 hinv hlen hinv.root_live
      have hfilter : [t].filter (fun t => s.HasTenant t) = [t] := by simp [ht]
      have hfilter' : [t].filter (fun t => s'.HasTenant t) = [t] := by simp [ht']
      rw [prefixMatch_eq ⟨t, List.mem_singleton_self t, ht⟩,
        prefixMatch_eq ⟨t, List.mem_singleton_self t, ht'⟩, hfilter, hfilter', hr, hr₀]
      refine ⟨_, _, _, _, rfl, rfl, ?_⟩
      rw [List.length_take, List.length_take]
      omega

/-! ### Runs -/

/-- The strings after a call. -/
def Op.strings (S : Strings) : Op T → Strings
  | .addTenants tenants _ => tenants.foldl Strings.addTenant S
  | .insert text tenant _ => S.insert text tenant
  | .removeTenants tenants => tenants.foldl Strings.removeTenant S
  | .evictTenantByLru _ _ => S

/-- The strings inserted for each tenant since it was added. -/
def insertedStrings (ops : List (Op T)) : Strings := ops.foldl Op.strings (fun _ => [])

/-- The calls to `evict_tenant_by_lru`. -/
def Op.isEvict : Op T → Bool
  | .evictTenantByLru _ _ => true
  | _ => false

theorem Spells.addTenants (h : Spells s v S) (hinv : Inv s v none) (tenants : List String)
    (time : T) :
    ∃ s' v', s.addTenants tenants time = some s' ∧ Inv s' v' none ∧
      Spells s' v' (tenants.foldl Strings.addTenant S) := by
  induction tenants generalizing s v S with
  | nil => exact ⟨s, v, rfl, hinv, h⟩
  | cons t tenants ih =>
    obtain ⟨s₁, v₁, hadd, hinv₁, h₁⟩ := h.addTenant hinv t time
    obtain ⟨s', v', hrest, hinv', h'⟩ := ih h₁ hinv₁
    refine ⟨s', v', ?_, hinv', h'⟩
    rw [PrefixTree.addTenants, List.foldlM_cons, hadd]
    exact hrest

theorem Spells.removeTenants (h : Spells s v S) (hinv : Inv s v none) (tenants : List String)
    (removed : Dict String ℤ) :
    ∃ s' v' removed', tenants.foldlM removeStep (s, removed) = some (s', removed') ∧
      Inv s' v' none ∧ Spells s' v' (tenants.foldl Strings.removeTenant S) := by
  induction tenants generalizing s v S removed with
  | nil => exact ⟨s, v, removed, rfl, hinv, h⟩
  | cons t tenants ih =>
    obtain ⟨s₁, v₁, k, hremove, hinv₁, h₁⟩ := h.removeTenant hinv t
    obtain ⟨s', v', removed', hrest, hinv', h'⟩ := ih h₁ hinv₁ (removed.set t k)
    refine ⟨s', v', removed', ?_, hinv', h'⟩
    rw [List.foldlM_cons, removeStep, hremove]
    exact hrest

theorem Spells.apply [DecidableEq T] (h : Spells s v S) (hinv : Inv s v none) (op : Op T)
    (hop : op.isEvict = false) :
    ∃ s' v', s.apply op = some s' ∧ Inv s' v' none ∧ Spells s' v' (op.strings S) := by
  cases op with
  | addTenants tenants time => exact h.addTenants hinv tenants time
  | insert text tenant time => exact h.insert hinv text tenant time
  | removeTenants tenants =>
    obtain ⟨s', v', removed, hrun, hinv', h'⟩ := h.removeTenants hinv tenants Dict.empty
    refine ⟨s', v', ?_, hinv', h'⟩
    change (tenants.foldlM removeStep (s, Dict.empty)).map Prod.fst = some s'
    rw [hrun]
    rfl
  | evictTenantByLru tenant k => exact absurd hop (by simp [Op.isEvict])

theorem Spells.run [DecidableEq T] (h : Spells s v S) (hinv : Inv s v none) (ops : List (Op T))
    (hops : ∀ op ∈ ops, op.isEvict = false) :
    ∃ s' v', ops.foldlM PrefixTree.apply s = some s' ∧ Inv s' v' none ∧
      Spells s' v' (ops.foldl Op.strings S) := by
  induction ops generalizing s v S with
  | nil => exact ⟨s, v, rfl, hinv, h⟩
  | cons op ops ih =>
    obtain ⟨s₁, v₁, happly, hinv₁, h₁⟩ := h.apply hinv op (hops op (.head _))
    obtain ⟨s', v', hrun, hinv', h'⟩ := ih h₁ hinv₁
      (fun op' hop' => hops op' (List.mem_cons_of_mem op hop'))
    refine ⟨s', v', ?_, hinv', h'⟩
    rw [List.foldlM_cons, happly]
    exact hrun

theorem spells_init : Spells (init : PrefixTree T) ⟨(· = root), fun _ => [], fun _ => []⟩
    (fun _ => []) where
  owns _ := by simp [Owns, init, Node.init]
  ends hx := absurd hx List.not_mem_nil
  tenants _ := by simp [HasTenant, init]

/-- Without evictions the tree matches like the set of the inserted strings; an eviction after such
calls, or after any calls with non-decreasing times, removes enough characters and makes no match
longer. -/
theorem prefixMatch_insertedStrings {T : Type} [LinearOrder T] :
    (∀ ops : List (Op T), (∀ op ∈ ops, op.isEvict = false) →
      ∃ s, run ops = some s ∧ (∀ t, s.HasTenant t ↔ insertedStrings ops t ≠ []) ∧
        ∀ text available, (∃ t ∈ available, s.HasTenant t) →
          ∃ p, LongestMatch (insertedStrings ops) available text p ∧
            s.prefixMatch text (some available) = some (p, some (available.filter (fun t =>
              ∃ x ∈ insertedStrings ops t, p <+: x)))) ∧
    ∀ ops : List (Op T), (∀ op ∈ ops, op.isEvict = false) ∨
      (ops.filterMap Op.time?).Pairwise (· ≤ ·) → ∃ s, run ops = some s ∧ s.EvictsEnough := by
  refine ⟨fun ops hops => ?_, fun ops hops => ?_⟩
  · obtain ⟨s, v, hrun, hinv, h⟩ := spells_init.run inv_init ops hops
    exact ⟨s, hrun, h.tenants, fun text available havail => h.prefixMatch hinv havail text⟩
  · obtain hops | hops := hops
    · obtain ⟨s, v, hrun, hinv, _⟩ := spells_init.run inv_init ops hops
      exact ⟨s, hrun, hinv.evictsEnough⟩
    · obtain ⟨s, v, now, hrun, hinv, _⟩ := timed_init.run inv_init ops hops (fun _ _ => bot_le)
      exact ⟨s, hrun, hinv.evictsEnough⟩

/-- The match of a text that leaves the tree inside an edge, and an eviction. -/
theorem prefixMatch_insertedStrings_example :
    let ops : List (Op ℕ) := [.addTenants ["a", "b"] 0, .insert "hello".toList "a" 3,
      .insert "help".toList "b" 2, .removeTenants ["c"]]
    (∃ s, run ops = some s ∧ ∃ p, LongestMatch (insertedStrings ops) ["c", "a"] "helium".toList p ∧
      s.prefixMatch "helium".toList (some ["c", "a"]) = some (p, some (["c", "a"].filter (fun t =>
        ∃ x ∈ insertedStrings ops t, p <+: x)))) ∧
    ∃ s, run ops = some s ∧ s.EvictsEnough := by
  intro ops
  have hops : ∀ op ∈ ops, op.isEvict = false := by decide
  refine ⟨?_, prefixMatch_insertedStrings.2 ops (.inl hops)⟩
  obtain ⟨s, hrun, hten, hmatch⟩ := prefixMatch_insertedStrings.1 ops hops
  refine ⟨s, hrun, hmatch _ _ ⟨"a", by simp, (hten "a").mpr ?_⟩⟩
  simp [ops, insertedStrings, Op.strings, Strings.addTenant, Strings.insert, Strings.removeTenant]

end RayTfm.Serve.PrefixTree
