import RayTfm.Lib.Reach
import RayTfm.Raylet.BundleSpec
import RayTfm.Raylet.ResourceAllocation

/-! # The bundles that a demand is spread over

A demand in a placement group that names no bundle is given, for each of its resources, the first
bundle of the group that has room for this resource (`firstFit`).  The search for one resource does
not see what was found for another: what is allocated for one original resource leaves the bundles
of the others as they are (`Searched`).  So the allocation stays in one bundle exactly when the same
bundle is the first for every resource of the demand (`tryAllocate_sameBundle_iff`). -/

namespace RayTfm.Raylet

open NodeResourceInstanceSet

/-- The first bundle of the group with room for the demand. -/
def firstFit (set : NodeResourceInstanceSet) (data : PgFormattedResourceData) (demand : ℤ) :
    Option ResourceID :=
  (indexedIds set.pgIndexedResources ⟨data.originalResource⟩ data.groupId).find? (fun id =>
    (tryAllocateInstances (set.get id) demand).isSome)

/-- The bundle of an indexed resource. -/
def bundleIndexOf (r : ResourceID) : Option ℤ := (parseIndexedId r).map (·.bundleIndex)

/-- For each demanded resource of the placement group the first bundle with room for it. -/
def firstBundles (set : NodeResourceInstanceSet) (demands : ResourceSet) : List ℤ :=
  demands.resourceIds.filterMap (fun w => (parsePgId w).bind (fun data =>
    (firstFit set data (demands.get w)).bind bundleIndexOf))

/-- The bundles of an allocation. -/
def allocatedBundles (allocations : Dict ResourceID (List ℤ)) : List ℤ :=
  allocations.keys.filterMap bundleIndexOf

/-- The bundles are one. -/
def SameBundle (indices : List ℤ) : Prop := ∀ i ∈ indices, ∀ i' ∈ indices, i = i'

instance (indices : List ℤ) : Decidable (SameBundle indices) :=
  inferInstanceAs (Decidable (∀ i ∈ indices, ∀ i' ∈ indices, i = i'))

/-! ### Demands without a bundle index -/

variable {r : ResourceID} {data : PgFormattedResourceData}

theorem binary_of_wildcard (h : parsePgId r = some data)
    (hindex : data.bundleIndex = -1) : r.binary = data.originalResource ++ kGroupKeyword ++
      data.groupId := by
  have hwildcard := parseWildcard_of_parsePg h hindex
  have hparse : parseWildcard r.binary = some data := by
    unfold parsePgFormattedResource at hwildcard
    rw [if_pos rfl] at hwildcard
    cases hname : parseWildcard r.binary with
    | none =>
      rw [hname] at hwildcard
      cases hwildcard
    | some data' =>
      rw [hname] at hwildcard
      exact hwildcard
  obtain ⟨original, groupId, rfl, hname, -⟩ := parseWildcard_eq_some hparse
  apply String.toList_injective
  rw [hname]
  simp [kGroupKeyword]

variable {groupId : String}

/-- A name with the keyword before the group is not an indexed one, whatever the original resource
is. -/
theorem parsePgFormattedResource_wildcardName {original : String}
    (hgroup : ∀ c ∈ groupId.toList, isHexDigit c = true)
    (h : parsePgFormattedResource (original ++ kGroupKeyword ++ groupId) true true = some data) :
    data = ⟨original, -1, groupId⟩ := by
  have hname : (original ++ kGroupKeyword ++ groupId).toList =
      (original.toList ++ "_group".toList) ++ '_' :: groupId.toList := by
    simp [kGroupKeyword]
  have hsplit : splitLast '_' (original ++ kGroupKeyword ++ groupId).toList =
      some (original.toList ++ "_group".toList, groupId.toList) := by
    rw [hname, splitLast_append _ (underscore_notMem_of_hex hgroup)]
  unfold parsePgFormattedResource at h
  rw [if_pos rfl] at h
  cases hwildcard : parseWildcard (original ++ kGroupKeyword ++ groupId) with
  | some data' =>
    rw [hwildcard] at h
    cases h
    obtain ⟨original', groupId', rfl, -, hsplit'⟩ := parseWildcard_eq_some hwildcard
    rw [hsplit, Option.some.injEq, Prod.mk.injEq] at hsplit'
    obtain ⟨hfront, hafter⟩ := hsplit'
    rw [← List.append_cancel_right hfront, ← hafter, String.ofList_toList, String.ofList_toList]
  | none =>
    rw [hwildcard, if_pos rfl, parseIndexed_eq_none_of_splitLast hsplit] at h
    cases h

/-- The resources of placement groups in a demand are wildcard resources of one group. -/
def WithoutIndex (demands : ResourceSet) (groupId : String) : Prop :=
  ∀ r ∈ demands.resourceIds, ∀ data, parsePgId r = some data → data.bundleIndex = -1 ∧
  data.groupId = groupId

variable {demands : ResourceSet}
variable {original : ResourceID}

theorem pgVector_eq_singleton (h : WithoutIndex demands groupId)
    {w : ResourceID} (hmem : (w, data) ∈ pgVector demands original) :
    pgVector demands original = [(w, data)] := by
  have hall : ∀ e ∈ pgVector demands original, e = (w, data) := by
    intro e he
    obtain ⟨r, data'⟩ := e
    obtain ⟨hr, hparse, horiginal⟩ := mem_pgVector.mp he
    obtain ⟨hw, hwparse, hworiginal⟩ := mem_pgVector.mp hmem
    obtain ⟨hindex, hgroup⟩ := h r hr data' hparse
    obtain ⟨hwindex, hwgroup⟩ := h w hw data hwparse
    have hsame : data'.originalResource = data.originalResource :=
      ResourceID.mk.inj (horiginal.trans hworiginal.symm)
    have hrw : r = w := by
      have hbinary : r.binary = w.binary := by
        rw [binary_of_wildcard hparse hindex, binary_of_wildcard hwparse hwindex, hsame, hgroup,
          hwgroup]
      exact congrArg ResourceID.mk hbinary
    rw [hrw, hwparse] at hparse
    rw [hrw, Option.some.inj hparse]
  have hnodup : (pgVector demands original).Nodup := by
    apply List.Nodup.filterMap _ demands.entries.keys_nodup
    intro r r' e he he'
    obtain ⟨data, -, he⟩ := Option.bind_eq_some_iff.mp he
    obtain ⟨data', -, he'⟩ := Option.bind_eq_some_iff.mp he'
    split_ifs at he he'
    cases he
    cases he'
    rfl
  generalize pgVector demands original = vector at hmem hall hnodup
  match vector, hall, hnodup with
  | [], _, _ => cases hmem
  | [e], hall, _ => rw [hall e List.mem_cons_self]
  | e :: e' :: rest, hall, hnodup =>
    rw [hall e List.mem_cons_self, hall e' (.tail _ List.mem_cons_self)] at hnodup
    exact absurd List.mem_cons_self (List.nodup_cons.mp hnodup).1

/-! ### What an allocation leaves as it is -/

/-- Only one resource was changed, and the bundles of the groups are the same. -/
structure Touches (r : ResourceID) (set set' : NodeResourceInstanceSet) : Prop where
  get : ∀ r', r' ≠ r → set'.get r' = set.get r'
  indexedIds : ∀ original groupId, indexedIds set'.pgIndexedResources original groupId =
    Raylet.indexedIds set.pgIndexedResources original groupId

theorem indexedIds_insert_of_mem {pg : PgIndexedResources}
    (h : r ∈ indexedIds pg ⟨data.originalResource⟩ data.groupId) (original : ResourceID)
    (groupId : String) :
    indexedIds (insertIndexed pg data r) original groupId = indexedIds pg original groupId := by
  unfold indexedIds at h ⊢
  unfold insertIndexed
  dsimp only
  cases hgroups : pg.get? ⟨data.originalResource⟩ with
  | none =>
    rw [hgroups] at h
    cases h
  | some groups =>
    rw [hgroups, Option.bind_some] at h
    rw [Option.getD_some, if_pos h, Dict.get?_set]
    by_cases horiginal : original = ⟨data.originalResource⟩
    · rw [if_pos horiginal, horiginal, hgroups, Option.bind_some, Option.bind_some, Dict.get?_set]
      by_cases hgroup : groupId = data.groupId
      · rw [if_pos hgroup, hgroup, Option.getD_some]
      · rw [if_neg hgroup]
    · rw [if_neg horiginal]

variable {set set' : NodeResourceInstanceSet}

theorem touches_of_set {v : List ℤ}
    (hknown : ∀ data, parseIndexedId r = some data → r ∈ indexedIds set.pgIndexedResources
      ⟨data.originalResource⟩
      data.groupId) (h : set.set r v = .ok set') : Touches r set set' := by
  unfold NodeResourceInstanceSet.set at h
  split_ifs at h with hne
  cases h
  refine ⟨fun r' hr' => ?_, fun original groupId => ?_⟩
  · rw [get_store, if_neg hr']
  · unfold store
    split_ifs with hdefault
    · rfl
    · show indexedIds (indexedAfterSet set.pgIndexedResources r) original groupId = _
      unfold indexedAfterSet
      cases hparse : parseIndexedId r with
      | none => rfl
      | some data => exact indexedIds_insert_of_mem (hknown data hparse) original groupId

variable {demand : ℤ}

theorem touches_of_tryAllocateOne {a : List ℤ}
    (hknown : ∀ data, parseIndexedId r = some data → r ∈ indexedIds set.pgIndexedResources
      ⟨data.originalResource⟩
      data.groupId) (h : set.tryAllocateOne r demand = .ok (some a, set')) :
    (tryAllocateInstances (set.get r) demand).isSome ∧ Touches r set set' := by
  unfold tryAllocateOne at h
  cases htry : tryAllocateInstances (set.get r) demand with
  | none =>
    rw [htry] at h
    cases h
  | some taken =>
    rw [htry] at h
    obtain ⟨set₁, hset, h⟩ := bind_eq_ok.mp h
    cases h
    exact ⟨rfl, touches_of_set hknown hset⟩

theorem eq_of_tryAllocateOne_none
    (h : set.tryAllocateOne r demand = .ok (none, set')) : tryAllocateInstances (set.get r) demand =
      none ∧ set' = set := by
  unfold tryAllocateOne at h
  cases htry : tryAllocateInstances (set.get r) demand with
  | none =>
    rw [htry] at h
    cases h
    exact ⟨rfl, rfl⟩
  | some taken =>
    rw [htry] at h
    obtain ⟨set₁, hset, h⟩ := bind_eq_ok.mp h
    cases h

theorem find?_of_allocateFirstFit {ids : List ResourceID}
    {id : ResourceID} {a : List ℤ} (hknown : ∀ id ∈ ids, ∀ data, parseIndexedId id = some data →
      id ∈ indexedIds set.pgIndexedResources ⟨data.originalResource⟩ data.groupId)
    (h : allocateFirstFit ids demand set = .ok (some (id, a), set')) :
    ids.find? (fun id => (tryAllocateInstances (set.get id) demand).isSome) = some id ∧
    Touches id set set' := by
  induction ids with
  | nil => cases h
  | cons id' ids ih =>
    have hrest := ih (fun id hid => hknown id (.tail _ hid))
    rw [allocateFirstFit] at h
    split_ifs at h with hhas
    · obtain ⟨⟨found, set₁⟩, htry, hloop⟩ := bind_eq_ok.mp h
      cases found with
      | some a' =>
        cases hloop
        obtain ⟨hroom, htouches⟩ := touches_of_tryAllocateOne (hknown id (.head _)) htry
        exact ⟨List.find?_cons_of_pos hroom, htouches⟩
      | none =>
        obtain ⟨hnone, rfl⟩ := eq_of_tryAllocateOne_none htry
        rw [List.find?_cons_of_neg (by simp [hnone])]
        exact hrest hloop
    · have hempty : set.get id' = [] := by simpa [has] using hhas
      rw [List.find?_cons_of_neg (by rw [hempty]; exact Bool.false_ne_true)]
      exact hrest h

/-! ### The searches of a call -/

/-- The searches for some originals are done: the bundles of the others are as they were, and the
bundles that were allocated are the first ones for the resources that were searched for. -/
structure Searched (set : NodeResourceInstanceSet) (demands : ResourceSet) (originals : List ResourceID)
    (progress : Progress) : Prop where
  get : ∀ r data, parsePgId r = some data → ⟨data.originalResource⟩ ∉ originals →
    progress.set.get r = set.get r
  indexedIds : ∀ original groupId, indexedIds progress.set.pgIndexedResources original groupId =
    Raylet.indexedIds set.pgIndexedResources original groupId
  keys : ∀ r data, parseIndexedId r = some data → (r ∈ progress.allocations.keys ↔
    ∃ w ∈ demands.resourceIds, ∃ dw, parsePgId w = some dw ∧ ⟨dw.originalResource⟩ ∈ originals ∧
      firstFit set dw (demands.get w) = some r)

theorem parseIndexedId_eq_none (h : parsePgId r = none) : parseIndexedId r = none := by
  cases hindexed : parseIndexedId r with
  | none => rfl
  | some data =>
    rw [(parsePgId_of_indexed hindexed).1] at h
    cases h

variable {progress progress' : Progress}

theorem searched_of_allocateOrdinary
    {l : List (ResourceID × ℤ)} (h : Searched set demands [] progress)
    (hrun : allocateOrdinary l progress = .ok (.allocated progress')) :
    Searched set demands [] progress' := by
  induction l generalizing progress with
  | nil =>
    cases hrun
    exact h
  | cons e l ih =>
    obtain ⟨r, demand⟩ := e
    rw [allocateOrdinary] at hrun
    cases hparse : parsePgId r with
    | some data =>
      rw [hparse] at hrun
      exact ih h hrun
    | none =>
      rw [hparse] at hrun
      obtain ⟨⟨found, set₁⟩, htry, hrun⟩ := bind_eq_ok.mp hrun
      cases found with
      | none =>
        obtain ⟨set₂, -, hfailed⟩ := bind_eq_ok.mp hrun
        cases hfailed
      | some a =>
        have hindexed := parseIndexedId_eq_none hparse
        obtain ⟨-, htouches⟩ :=
          touches_of_tryAllocateOne (fun data hdata => by rw [hindexed] at hdata; cases hdata)
          htry
        refine ih ⟨?_, ?_, ?_⟩ hrun
        · intro r' data hdata hnot
          rw [htouches.get r' (by rintro rfl; rw [hparse] at hdata; cases hdata)]
          exact h.get r' data hdata hnot
        · intro original groupId
          rw [htouches.indexedIds, h.indexedIds]
        · intro r' data hdata
          have hne : r' ≠ r := by
            rintro rfl
            rw [hindexed] at hdata
            cases hdata
          rw [← h.keys r' data hdata, Dict.mem_keys_set, or_iff_right hne]

variable {originals : List ResourceID}

/-- One search: the wildcard resource follows the first bundle with room. -/
theorem Searched.allocatePg (h : Searched set demands originals progress)
    (hdemands : WithoutIndex demands groupId) (hnot : original ∉ originals)
    (hrun : Raylet.allocatePg demands original (pgVector demands original) progress =
      .ok (.allocated progress')) :
    Searched set demands (original :: originals) progress' := by
  by_cases hnil : pgVector demands original = []
  · rw [hnil] at hrun
    cases hrun
  obtain ⟨⟨w, dw⟩, hmem⟩ := List.exists_mem_of_ne_nil _ hnil
  have hvector := pgVector_eq_singleton hdemands hmem
  obtain ⟨hw, hparse, horiginal⟩ := mem_pgVector.mp hmem
  rw [hvector] at hrun
  obtain ⟨attempt, hbundle, hrun⟩ := bind_eq_ok.mp hrun
  obtain ⟨⟨found, set₁⟩, hfit, hbundle⟩ := bind_eq_ok.mp hbundle
  cases found with
  | none =>
    obtain ⟨set₂, -, hfailed⟩ := bind_eq_ok.mp hbundle
    cases hfailed
    cases hrun
  | some found =>
    obtain ⟨j, a⟩ := found
    cases hbundle
    obtain ⟨_, hwildcard, hrun⟩ := bind_eq_ok.mp hrun
    cases hwildcard
    obtain ⟨_, hallocation, hrun⟩ := bind_eq_ok.mp hrun
    cases hallocation
    obtain ⟨-, -, hrun⟩ := bind_eq_ok.mp hrun
    obtain ⟨set₂, hreference, hrun⟩ := bind_eq_ok.mp hrun
    cases hrun
    have hbundles : ∀ id ∈ Raylet.indexedIds progress.set.pgIndexedResources original
      dw.groupId, ∀ data,
        parseIndexedId id = some data → ⟨data.originalResource⟩ = original ∧
          id ∈ Raylet.indexedIds progress.set.pgIndexedResources
            ⟨data.originalResource⟩ data.groupId := by
      intro id hid data hdata
      obtain ⟨data', hdata', horiginal', hgroup'⟩ := progress.set.indexed original dw.groupId id hid
      rw [hdata, Option.some.injEq] at hdata'
      subst hdata'
      exact ⟨horiginal', by rwa [horiginal', hgroup']⟩
    obtain ⟨hfind, htouches⟩ :=
      find?_of_allocateFirstFit (fun id hid data hdata => (hbundles id hid data hdata).2) hfit
    have hwindexed : parseIndexedId w = none := by
      cases hindexed : parseIndexedId w with
      | none => rfl
      | some data =>
        obtain ⟨hpg, hindex⟩ := parsePgId_of_indexed hindexed
        rw [hparse, Option.some.injEq] at hpg
        exact absurd (hpg ▸ (hdemands w hw dw hparse).1) hindex
    have hjmem := List.mem_of_find?_eq_some hfind
    obtain ⟨dj, hdj, hjoriginal, -⟩ := progress.set.indexed original dw.groupId j hjmem
    have hjparse := (parsePgId_of_indexed hdj).1
    have hreference' : Touches w set₁ set₂ := by
      obtain ⟨-, -, hset⟩ := bind_eq_ok.mp hreference
      obtain ⟨-, -, hset⟩ := bind_eq_ok.mp hset
      obtain ⟨-, -, hset⟩ := bind_eq_ok.mp hset
      exact touches_of_set (fun data hdata => by rw [hwindexed] at hdata; cases hdata) hset
    have hfirst : firstFit set dw (demands.get w) = some j := by
      rw [← hfind]
      unfold firstFit
      rw [horiginal, ← h.indexedIds]
      apply List.find?_congr
      intro id hid
      obtain ⟨data, hdata, hidoriginal, -⟩ := progress.set.indexed original dw.groupId id hid
      rw [h.get id data (parsePgId_of_indexed hdata).1 (hidoriginal ▸ hnot)]
    refine ⟨?_, ?_, ?_⟩
    · intro r data hdata hdone
      rw [List.mem_cons, not_or] at hdone
      have hne : ∀ r' data', parsePgId r' = some data' → ⟨data'.originalResource⟩ = original →
        r ≠ r' := by
        rintro r' data' hdata' horiginal' rfl
        rw [hdata, Option.some.injEq] at hdata'
        exact hdone.1 (hdata' ▸ horiginal')
      rw [hreference'.get r (hne w dw hparse horiginal), htouches.get r (hne j dj hjparse hjoriginal)]
      exact h.get r data hdata hdone.2
    · intro original' groupId'
      rw [hreference'.indexedIds, htouches.indexedIds, h.indexedIds]
    · intro r data hdata
      have hne : r ≠ w := by
        rintro rfl
        rw [hwindexed] at hdata
        cases hdata
      show r ∈ ((progress.allocations.set j a).set w a).keys ↔ _
      rw [Dict.mem_keys_set, or_iff_right hne, Dict.mem_keys_set, h.keys r data hdata]
      constructor
      · rintro (rfl | ⟨w', hw', dw', hparse', hdone, hfirst'⟩)
        · exact ⟨w, hw, dw, hparse, horiginal ▸ (.head _), hfirst⟩
        · exact ⟨w', hw', dw', hparse', .tail _ hdone, hfirst'⟩
      · rintro ⟨w', hw', dw', hparse', hdone, hfirst'⟩
        obtain horiginal' | hdone := List.mem_cons.mp hdone
        · have hmem' : (w', dw') ∈ pgVector demands original :=
            mem_pgVector.mpr ⟨hw', hparse', horiginal'⟩
          rw [hvector, List.mem_singleton] at hmem'
          cases hmem'
          rw [hfirst, Option.some.injEq] at hfirst'
          exact .inl hfirst'.symm
        · exact .inr ⟨w', hw', dw', hparse', hdone, hfirst'⟩

theorem searched_of_allocatePgs
    (hdemands : WithoutIndex demands groupId) {l : List (ResourceID × PgVector)}
    (h : Searched set demands originals progress)
    (hl : ∀ e ∈ l, e.2 = pgVector demands e.1) (hnodup : (l.map Prod.fst).Nodup)
    (hnew : ∀ e ∈ l, e.1 ∉ originals)
    (hrun : allocatePgs demands l progress = .ok (.allocated progress')) :
    ∃ done, Searched set demands done progress' ∧ ∀ original, original ∈ done ↔
      original ∈ l.map Prod.fst ∨ original ∈ originals := by
  induction l generalizing originals progress with
  | nil =>
    cases hrun
    exact ⟨originals, h, fun original => by simp⟩
  | cons e l ih =>
    obtain ⟨original, vector⟩ := e
    rw [List.map_cons, List.nodup_cons] at hnodup
    rw [List.forall_mem_cons] at hl hnew
    obtain rfl : vector = pgVector demands original := hl.1
    rw [allocatePgs] at hrun
    obtain ⟨attempt, hround, hrun⟩ := bind_eq_ok.mp hrun
    cases attempt with
    | failed set' => cases hrun
    | allocated progress₁ =>
      have hnew' : ∀ e ∈ l, e.1 ∉ original :: originals := by
        intro e he hmem
        obtain rfl | hmem := List.mem_cons.mp hmem
        · exact hnodup.1 (List.mem_map.mpr ⟨e, he, rfl⟩)
        · exact hnew.2 e he hmem
      obtain ⟨done, hdone, hmem⟩ := ih (h.allocatePg hdemands hnew.1 hround) hl.2 hnodup.2 hnew' hrun
      refine ⟨done, hdone, fun original' => ?_⟩
      rw [hmem, List.map_cons, List.mem_cons, List.mem_cons]
      tauto

/-- The bundles of what `TryAllocate` gives are the first ones for the demanded resources. -/
theorem mem_allocatedBundles
    (hdemands : WithoutIndex demands groupId) {allocations : Dict ResourceID (List ℤ)}
    (h : set.tryAllocate demands = .ok (some allocations, set')) (i : ℤ) :
    i ∈ allocatedBundles allocations ↔ i ∈ firstBundles set demands := by
  obtain ⟨ordinary, hordinary, h⟩ := bind_eq_ok.mp h
  cases ordinary with
  | failed set₁ => cases h
  | allocated progress =>
    obtain ⟨attempt, hpgs, h⟩ := bind_eq_ok.mp h
    cases attempt with
    | failed set₁ => cases h
    | allocated progress' =>
      cases h
      have hstart : Searched set demands [] ⟨set, .empty⟩ := by
        refine ⟨fun _ _ _ _ => rfl, fun _ _ => rfl, fun r data _ =>
          ⟨fun h => absurd h List.not_mem_nil, ?_⟩⟩
        rintro ⟨_, _, _, _, hdone, _⟩
        cases hdone
      obtain ⟨done, hdone, hmem⟩ := searched_of_allocatePgs hdemands
        (searched_of_allocateOrdinary hstart hordinary) (fun e he => eq_pgVector_of_mem he)
        (pgResourceMap demands).nodup (fun _ _ => List.not_mem_nil) hpgs
      unfold allocatedBundles firstBundles
      rw [List.mem_filterMap, List.mem_filterMap]
      constructor
      · rintro ⟨r, hr, hi⟩
        obtain ⟨data, hdata, rfl⟩ := Option.map_eq_some_iff.mp hi
        obtain ⟨w, hw, dw, hparse, -, hfirst⟩ := (hdone.keys r data hdata).mp hr
        refine ⟨w, hw, ?_⟩
        rw [hparse, Option.bind_some, hfirst, Option.bind_some]
        exact hi
      · rintro ⟨w, hw, hi⟩
        obtain ⟨dw, hparse, hi⟩ := Option.bind_eq_some_iff.mp hi
        obtain ⟨r, hfirst, hi⟩ := Option.bind_eq_some_iff.mp hi
        have hi' := hi
        obtain ⟨data, hdata, -⟩ := Option.map_eq_some_iff.mp hi'
        refine ⟨r, (hdone.keys r data hdata).mpr ⟨w, hw, dw, hparse, ?_, hfirst⟩, hi⟩
        exact (hmem _).mpr (.inl (mem_keys_pgResourceMap hw hparse))

/-! ### The demand of a task in a placement group -/

variable {id : PlacementGroupID} {newResources : Dict String ℤ}

theorem addBundleResource_wildcard {newResources' : Dict String ℤ}
    {resource : String × ℤ} (h : addBundleResource id (-1) newResources resource = .ok newResources') :
    newResources' = newResources.set (resource.1 ++ kGroupKeyword ++ id.hex) resource.2 := by
  obtain ⟨name, hname, h⟩ := bind_eq_ok.mp h
  cases hname
  cases h
  rfl

variable {resources : Dict String ℤ}

theorem mem_keys_addPlacementGroupConstraint
    (hid : id.isNil = false) (h : addPlacementGroupConstraint resources id (-1) = .ok newResources)
    {name : String}
    (hname : name ∈ newResources.keys) : ∃ original, name = original ++ kGroupKeyword ++ id.hex := by
  unfold addPlacementGroupConstraint at h
  rw [if_neg (by rw [hid]; nofun)] at h
  obtain ⟨-, -, h⟩ := bind_eq_ok.mp h
  obtain ⟨added, hadded, h⟩ := bind_eq_ok.mp h
  have hround : ∀ {d d' : Dict String ℤ} {resource : String × ℤ},
    addBundleResource id (-1) d resource = .ok d' →
      (∀ name ∈ d.keys, ∃ original, name = original ++ kGroupKeyword ++ id.hex) →
      ∀ name ∈ d'.keys, ∃ original, name = original ++ kGroupKeyword ++ id.hex := by
    intro d d' resource hadd hd name hname
    rw [addBundleResource_wildcard hadd, Dict.mem_keys_set] at hname
    obtain rfl | hname := hname
    · exact ⟨resource.1, rfl⟩
    · exact hd name hname
  have hloop : ∀ name ∈ added.keys, ∃ original, name = original ++ kGroupKeyword ++ id.hex :=
    foldlM_inv (P := fun _ d => ∀ name ∈ d.keys, ∃ original, name = original ++ kGroupKeyword ++ id.hex)
      (by simp) (fun _ _ _ _ _ hd hadd => hround hadd hd) hadded
  exact hround h hloop name hname

theorem mem_resourceIds_resourceSetOf {resourceMap : Dict String ℤ}
    (h : r ∈ (resourceSetOf resourceMap).resourceIds) : r.binary ∈ resourceMap.keys := by
  have hloop : ∀ (l : List (String × ℤ)) (set : ResourceSet), r ∈ ResourceSet.resourceIds
    (l.foldl (fun set e =>
      DefaultMap.set set ⟨e.1⟩ e.2) set) → r ∈ set.resourceIds ∨ r.binary ∈ l.map Prod.fst := by
    intro l
    induction l with
    | nil => exact fun set h => .inl h
    | cons e l ih =>
      intro set h
      rw [List.map_cons, List.mem_cons]
      obtain h | h := ih _ h
      · have hget := DefaultMap.mem_keys_iff.mp h
        rw [DefaultMap.get_set] at hget
        by_cases hr : r = ⟨e.1⟩
        · exact .inr (.inl (congrArg ResourceID.binary hr))
        · rw [if_neg hr] at hget
          exact .inl (DefaultMap.mem_keys_iff.mpr hget)
      · exact .inr (.inr h)
  exact (hloop resourceMap.entries DefaultMap.empty h).resolve_left List.not_mem_nil

theorem withoutIndex_of_constraint
    (hid : id.isNil = false) (h : addPlacementGroupConstraint resources id (-1) = .ok newResources) :
    WithoutIndex (resourceSetOf newResources) id.hex := by
  intro r hr data hdata
  obtain ⟨original, hname⟩ :=
    mem_keys_addPlacementGroupConstraint hid h (mem_resourceIds_resourceSetOf hr)
  unfold parsePgId at hdata
  rw [hname] at hdata
  rw [parsePgFormattedResource_wildcardName id.digits hdata]
  exact ⟨rfl, rfl⟩

/-- The allocation for a task in a placement group that names no bundle is in one bundle if and only
if the first bundle with room is the same for all its resources. -/
theorem tryAllocate_sameBundle_iff {set set' : NodeResourceInstanceSet}
    {resources newResources : Dict String ℤ}
    {id : PlacementGroupID} (hid : id.isNil = false)
    (hdemand : addPlacementGroupConstraint resources id (-1) = .ok newResources)
    {allocations : Dict ResourceID (List ℤ)}
    (h : set.tryAllocate (resourceSetOf newResources) = .ok (some allocations, set')) :
    SameBundle (allocatedBundles allocations) ↔
    SameBundle (firstBundles set (resourceSetOf newResources)) := by
  have hmem := mem_allocatedBundles (withoutIndex_of_constraint hid hdemand) h
  unfold SameBundle
  simp only [hmem]

/-- A placement group. -/
def exampleGroup : PlacementGroupID :=
  ⟨"0123456789abcdef0123456789abcdef0123", by decide, by simp [isHexDigit]⟩

/-- A node with one instance of each of the given resources of the group. -/
def nodeWith (resources : List (String × ℤ)) : NodeResourceInstanceSet :=
  resources.foldl (fun set e => set.store ⟨e.1 ++ exampleGroup.hex⟩ [e.2] (List.cons_ne_nil _ _)) empty

/-- Memory in the bundle 0 and a CPU in the bundle 1. -/
def twoBundles : NodeResourceInstanceSet :=
  nodeWith [("memory_group_0_", 10000), ("memory_group_", 10000), ("CPU_group_1_", 10000),
    ("CPU_group_", 10000),
    ("bundle_group_0_", 10000000), ("bundle_group_1_", 10000000), ("bundle_group_", 20000000)]

/-- The allocation for a task in the group. -/
def allocateInGroup (set : NodeResourceInstanceSet) (resources : Dict String ℤ) :
    Except RayError (Option (Dict ResourceID (List ℤ)) × NodeResourceInstanceSet) := do
  let newResources ← addPlacementGroupConstraint resources exampleGroup (-1)
  set.tryAllocate (resourceSetOf newResources)

theorem exists_of_allocateInGroup {bundles : List ℤ}
    (h : ((allocateInGroup set resources).toOption.bind Prod.fst).map allocatedBundles = some bundles) :
    ∃ newResources allocations set', addPlacementGroupConstraint resources exampleGroup (-1) =
      .ok newResources ∧
      set.tryAllocate (resourceSetOf newResources) = .ok (some allocations, set') ∧
      allocatedBundles allocations = bundles := by
  obtain ⟨allocations, hallocations, hbundles⟩ := Option.map_eq_some_iff.mp h
  obtain ⟨⟨found, set'⟩, hrun, hfound⟩ := Option.bind_eq_some_iff.mp hallocations
  cases hall : allocateInGroup set resources with
  | error e =>
    rw [hall] at hrun
    cases hrun
  | ok result =>
    rw [hall] at hrun
    cases hrun
    obtain ⟨newResources, hnew, htry⟩ := bind_eq_ok.mp hall
    cases hfound
    exact ⟨newResources, allocations, set', hnew, htry, hbundles⟩

theorem tryAllocate_sameBundle_memory : ∃ newResources,
    addPlacementGroupConstraint (Dict.empty.set "memory" 10000) exampleGroup (-1) = .ok newResources ∧
      SameBundle (firstBundles twoBundles (resourceSetOf newResources)) := by
  have hbundles : ((allocateInGroup twoBundles (Dict.empty.set "memory" 10000)).toOption.bind
    Prod.fst).map
      allocatedBundles = some [0, 0] := by decide +kernel
  obtain ⟨newResources, allocations, set', hnew, htry, hallocated⟩ := exists_of_allocateInGroup hbundles
  refine ⟨newResources, hnew, (tryAllocate_sameBundle_iff (by decide +kernel) hnew htry).mp ?_⟩
  rw [hallocated]
  decide

/-- The CPU is taken from the one bundle and the memory from the other. -/
theorem tryAllocate_spread : ∃ newResources allocations set',
    addPlacementGroupConstraint ((Dict.empty.set "CPU" 10000).set "memory" 10000) exampleGroup (-1) =
        .ok newResources ∧
      twoBundles.tryAllocate (resourceSetOf newResources) = .ok (some allocations, set') ∧
      ¬ SameBundle (allocatedBundles allocations) := by
  have hbundles : ((allocateInGroup twoBundles
    ((Dict.empty.set "CPU" 10000).set "memory" 10000)).toOption.bind
      Prod.fst).map allocatedBundles = some [1, 0, 0] := by decide +kernel
  obtain ⟨newResources, allocations, set', hnew, htry, hallocated⟩ := exists_of_allocateInGroup hbundles
  refine ⟨newResources, allocations, set', hnew, htry, ?_⟩
  rw [hallocated]
  decide

end RayTfm.Raylet
