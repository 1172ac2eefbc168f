import RayTfm.Raylet.PgResources

/-! # Formatting the names of placement-group resources

`FormatPlacementGroupResource` writes the original resource, the bundle index and the group into one
name, and `ParsePgFormattedResource` reads them back (`parse_formatPlacementGroupResource`): the
last underscore stands before the group, the one before it before the index or at the end of the
keyword, and an index ends with a digit while the keyword does not.  So the original resource may
contain the keyword, or look like a formatted name itself. -/

namespace RayTfm.Raylet

/-- `kGroupKeyword`. -/
def kGroupKeyword : String := "_group_"

/-- `FormatPlacementGroupResource`, without the check of debug builds. -/
def formatPlacementGroupResource (originalResourceName groupIdHex : String) (bundleIndex : ℤ) :
    Except RayError String :=
  if 0 ≤ bundleIndex then
    .ok (originalResourceName ++ kGroupKeyword ++ toString bundleIndex.toNat ++ "_" ++ groupIdHex)
  else do
    rayCheck (bundleIndex = -1) ("Invalid index " ++ toString bundleIndex)
    return originalResourceName ++ kGroupKeyword ++ groupIdHex

/-- `PlacementGroupID`, by its hexadecimal form. -/
structure PlacementGroupID where
  hex : String
  length_eq : hex.length = 36
  digits : ∀ c ∈ hex.toList, isHexDigit c = true

/-- `PlacementGroupID::IsNil`. -/
def PlacementGroupID.isNil (id : PlacementGroupID) : Bool := id.hex.toList.all (· = 'f')

/-- `kBundle_ResourceLabel`. -/
def kBundleResourceLabel : String := "bundle"

/-- The quantity 0.001. -/
def bundleQuantity : ℤ := 10

/-- The loop of `AddPlacementGroupConstraint`, and what follows it, for one resource: the wildcard
resource, and the indexed one if a bundle is named. -/
def addBundleResource (placementGroupId : PlacementGroupID) (bundleIndex : ℤ)
    (newResources : Dict String ℤ)
    (resource : String × ℤ) : Except RayError (Dict String ℤ) := do
  let wildcardName ← formatPlacementGroupResource resource.1 placementGroupId.hex (-1)
  let newResources := newResources.set wildcardName resource.2
  if 0 ≤ bundleIndex then
    let indexName ← formatPlacementGroupResource resource.1 placementGroupId.hex bundleIndex
    return newResources.set indexName resource.2
  else return newResources

/-- `AddPlacementGroupConstraint`. -/
def addPlacementGroupConstraint (resources : Dict String ℤ) (placementGroupId : PlacementGroupID)
    (bundleIndex : ℤ) :
    Except RayError (Dict String ℤ) :=
  if placementGroupId.isNil then .ok resources
  else do
    rayCheck (bundleIndex = -1 ∨ 0 ≤ bundleIndex) ("Invalid bundle index " ++ toString bundleIndex)
    let newResources ← resources.entries.foldlM
      (addBundleResource placementGroupId bundleIndex) Dict.empty
    addBundleResource placementGroupId bundleIndex newResources (kBundleResourceLabel, bundleQuantity)

/-- The constructor of `ResourceSet` from a map with names. -/
def resourceSetOf (resourceMap : Dict String ℤ) : ResourceSet :=
  resourceMap.entries.foldl (fun set e => DefaultMap.set set ⟨e.1⟩ e.2) DefaultMap.empty

/-- A name that can be written: a resource name on one line, a group id in hexadecimal, and a bundle
index, or -1 for the wildcard resource. -/
structure PgFormattedResourceData.Valid (data : PgFormattedResourceData) : Prop where
  original_ne : data.originalResource ≠ ""
  original_dot : ∀ c ∈ data.originalResource.toList, isDot c = true
  group_ne : data.groupId ≠ ""
  group_hex : ∀ c ∈ data.groupId.toList, isHexDigit c = true
  index_ge : -1 ≤ data.bundleIndex
  index_lt : data.bundleIndex < 2 ^ 31

/-- The name of the data. -/
def PgFormattedResourceData.format (data : PgFormattedResourceData) : Except RayError String :=
  formatPlacementGroupResource data.originalResource data.groupId data.bundleIndex

/-! ### Reading a formatted name -/

theorem stripSuffix_append (front ending : List Char) :
    stripSuffix ending (front ++ ending) = some front := by
  unfold stripSuffix
  rw [if_pos (List.isSuffixOf_iff_suffix.mpr (List.suffix_append _ _)), List.length_append,
    Nat.add_sub_cancel, List.take_left]

theorem decimalValue_toDigits (n : ℕ) : decimalValue (Nat.toDigits 10 n) = n :=
  Nat.ofDigitChars_ten_toDigits

theorem underscore_notMem_of_hex {l : List Char} (h : ∀ c ∈ l, isHexDigit c = true) : '_' ∉ l :=
  fun hmem => absurd (h '_' hmem) (by decide)

theorem isAlphanum_of_isHexDigit {c : Char} (h : isHexDigit c = true) : c.isAlphanum = true := by
  unfold isHexDigit at h
  rw [Bool.or_eq_true, Bool.and_eq_true, decide_eq_true_iff, decide_eq_true_iff] at h
  unfold Char.isAlphanum
  obtain h | ⟨hge, hle⟩ := h
  · rw [h, Bool.or_true]
  · have hlower : c.isLower = true := by
      rw [Char.isLower, Bool.and_eq_true, decide_eq_true_iff, decide_eq_true_iff]
      exact ⟨hge, le_trans hle (by decide)⟩
    rw [Char.isAlpha, hlower, Bool.or_true, Bool.true_or]

variable {original groupId : String}

theorem parseWildcard_wildcardName (horiginal : ∀ c ∈ original.toList, isDot c = true)
    (hne : groupId ≠ "")
    (hgroup : ∀ c ∈ groupId.toList, isHexDigit c = true) :
    parseWildcard (original ++ kGroupKeyword ++ groupId) = some ⟨original, -1, groupId⟩ := by
  have hname : (original ++ kGroupKeyword ++ groupId).toList =
      (original.toList ++ "_group".toList) ++ '_' :: groupId.toList := by
    simp [kGroupKeyword]
  have hne' : groupId.toList ≠ [] := fun h => hne (String.toList_eq_nil_iff.mp h)
  unfold parseWildcard
  rw [hname, splitLast_append _ (underscore_notMem_of_hex hgroup)]
  simp only [Option.bind_eq_bind, Option.bind_some, stripSuffix_append]
  rw [if_pos ⟨hne', List.all_eq_true.mpr hgroup, List.all_eq_true.mpr horiginal⟩,
    String.ofList_toList, String.ofList_toList]

theorem parseIndexed_indexedName (hne : original ≠ "")
    (horiginal : ∀ c ∈ original.toList, isDot c = true)
    (hgroupne : groupId ≠ "") (hgroup : ∀ c ∈ groupId.toList, isHexDigit c = true) (index : ℕ) :
    parseIndexed (original ++ kGroupKeyword ++ toString index ++ "_" ++ groupId) =
      some ⟨original, index, groupId⟩ := by
  have hname : (original ++ kGroupKeyword ++ toString index ++ "_" ++ groupId).toList =
      ((original.toList ++ "_group".toList) ++ '_' :: Nat.toDigits 10 index) ++ '_' ::
        groupId.toList := by
    simp [kGroupKeyword]
  have hdigits : ∀ c ∈ Nat.toDigits 10 index, c.isDigit = true := fun c hc =>
    Nat.isDigit_of_mem_toDigits (by decide) (by decide) hc
  have hdigitsne : Nat.toDigits 10 index ≠ [] := Nat.toDigits_ne_nil
  have hfront : '_' ∉ Nat.toDigits 10 index := fun hmem => absurd (hdigits '_' hmem) (by decide)
  unfold parseIndexed
  rw [hname, splitLast_append _ (underscore_notMem_of_hex hgroup)]
  simp only [Option.bind_eq_bind, Option.bind_some]
  rw [splitLast_append _ hfront]
  simp only [Option.bind_some, stripSuffix_append]
  rw [if_pos ⟨fun h => hgroupne (String.toList_eq_nil_iff.mp h),
    List.all_eq_true.mpr (fun c hc => isAlphanum_of_isHexDigit (hgroup c hc)), hdigitsne,
    List.all_eq_true.mpr hdigits,
    fun h => hne (String.toList_eq_nil_iff.mp h), List.all_eq_true.mpr horiginal⟩, String.ofList_toList,
    String.ofList_toList, decimalValue_toDigits]

variable {data : PgFormattedResourceData}

theorem parsePgFormattedResource_format (h : data.Valid) :
    ∃ resource, data.format = .ok resource ∧
    parsePgFormattedResource resource true true = some data := by
  obtain ⟨original, bundleIndex, groupId⟩ := data
  by_cases hindex : 0 ≤ bundleIndex
  · refine ⟨_, if_pos hindex, ?_⟩
    obtain ⟨index, rfl⟩ := Int.eq_ofNat_of_zero_le hindex
    have hread := parseIndexed_indexedName h.original_ne h.original_dot h.group_ne h.group_hex index
    exact (parsePgFormattedResource_of_indexed hread).1
  · have hwildcard : bundleIndex = -1 := by
      have hge : -1 ≤ bundleIndex := h.index_ge
      omega
    subst hwildcard
    refine ⟨original ++ kGroupKeyword ++ groupId, rfl, ?_⟩
    unfold parsePgFormattedResource
    rw [if_pos rfl, parseWildcard_wildcardName h.original_dot h.group_ne h.group_hex]

/-- The names of placement-group resources are read back as they were written, and no two of them
are the same. -/
theorem parse_formatPlacementGroupResource {data : PgFormattedResourceData} (h : data.Valid) :
    (∃ resource, data.format = .ok resource ∧ parsePgFormattedResource resource true true = some data) ∧
      ∀ data' : PgFormattedResourceData, data'.Valid → data'.format = data.format → data' = data := by
  obtain ⟨resource, hformat, hparse⟩ := parsePgFormattedResource_format h
  refine ⟨⟨resource, hformat, hparse⟩, fun data' h' heq => ?_⟩
  obtain ⟨resource', hformat', hparse'⟩ := parsePgFormattedResource_format h'
  rw [hformat, hformat'] at heq
  cases heq
  exact Option.some.inj (hparse'.symm.trans hparse)

theorem parse_formatPlacementGroupResource_nested :
    formatPlacementGroupResource "CPU_group_3_ab" "0f" 7 = .ok "CPU_group_3_ab_group_7_0f" ∧
      parsePgFormattedResource "CPU_group_3_ab_group_7_0f" true true =
        some ⟨"CPU_group_3_ab", 7, "0f"⟩ := by
  have hvalid : PgFormattedResourceData.Valid ⟨"CPU_group_3_ab", 7, "0f"⟩ :=
    ⟨by decide, by simp [isDot], by decide, by simp [isHexDigit], by norm_num, by norm_num⟩
  obtain ⟨resource, hformat, hparse⟩ := (parse_formatPlacementGroupResource hvalid).1
  have hname : resource = "CPU_group_3_ab_group_7_0f" := by
    have hname : formatPlacementGroupResource "CPU_group_3_ab" "0f" 7 =
      .ok "CPU_group_3_ab_group_7_0f" := by
      decide +kernel
    exact Except.ok.inj (hformat.symm.trans hname)
  rw [hname] at hformat hparse
  exact ⟨hformat, hparse⟩

/-- A name that is read as a wildcard is one for a caller that asks for no other. -/
theorem parseWildcard_of_parsePg {resource : String}
    (h : parsePgFormattedResource resource true true = some data) (hindex : data.bundleIndex = -1) :
    parsePgFormattedResource resource true false = some data := by
  unfold parsePgFormattedResource at h ⊢
  rw [if_pos rfl] at h ⊢
  cases hwildcard : parseWildcard resource with
  | some data' =>
    rw [hwildcard] at h
    exact h
  | none =>
    rw [hwildcard] at h
    exact absurd hindex (parsePgFormattedResource_of_indexed h).2

end RayTfm.Raylet
