import RayTfm.Raylet.ResourceSet

/-! # Names of placement-group resources

A bundle of a placement group adds two resources to its node for each resource it reserves: the
wildcard resource of the group, `<original>_group_<group id>`, and the indexed resource of the
bundle, `<original>_group_<index>_<group id>`. The two patterns have no name in common, and each
reads a name in one way only (`parseWildcard_eq_some`, `parseIndexed_eq_some`). -/

namespace RayTfm.Raylet

/-- `PgFormattedResourceData`. -/
structure PgFormattedResourceData where
  originalResource : String
  bundleIndex : ℤ
  groupId : String
deriving DecidableEq, Repr

/-- `[0-9a-f]`. -/
def isHexDigit (c : Char) : Bool := c.isDigit || ('a' ≤ c && c ≤ 'f')

/-- `.` in a pattern: anything but a line terminator. -/
def isDot (c : Char) : Bool := c ≠ '\n' && c ≠ '\r'

/-- What stands before and after the last occurrence of a letter. -/
def splitLast (c : Char) : List Char → Option (List Char × List Char)
  | [] => none
  | a :: l =>
    match splitLast c l with
    | some (before, after) => some (a :: before, after)
    | none => if a = c then some ([], l) else none

/-- What stands before a given ending. -/
def stripSuffix (ending l : List Char) : Option (List Char) :=
  if ending.isSuffixOf l then some (l.take (l.length - ending.length)) else none

/-- The value of a row of decimal digits. -/
def decimalValue (digits : List Char) : ℕ := digits.foldl (fun n c => 10 * n + (c.toNat - '0'.toNat)) 0

/-- The pattern `^(.*)_group_([0-9a-f]+)$`. -/
def parseWildcard (resource : String) : Option PgFormattedResourceData := do
  let (before, groupId) ← splitLast '_' resource.toList
  let original ← stripSuffix "_group".toList before
  if groupId ≠ [] ∧ groupId.all isHexDigit ∧ original.all isDot then
    some ⟨String.ofList original, -1, String.ofList groupId⟩
  else none

/-- The pattern `^(.+)_group_(\d+)_([0-9a-zA-Z]+)`.  From 2^31 on `stoi` throws; here the index is
kept. -/
def parseIndexed (resource : String) : Option PgFormattedResourceData := do
  let (front, groupId) ← splitLast '_' resource.toList
  let (before, digits) ← splitLast '_' front
  let original ← stripSuffix "_group".toList before
  if groupId ≠ [] ∧ groupId.all Char.isAlphanum ∧ digits ≠ [] ∧ digits.all Char.isDigit ∧
    original ≠ [] ∧
      original.all isDot then
    some ⟨String.ofList original, decimalValue digits, String.ofList groupId⟩
  else none

/-- `ParsePgFormattedResource`; the callers ask for at least one of the two kinds. -/
def parsePgFormattedResource (resource : String) (forWildcardResource forIndexedResource : Bool) :
    Option PgFormattedResourceData :=
  match if forWildcardResource then parseWildcard resource else none with
  | some data => some data
  | none => if forIndexedResource then parseIndexed resource else none

/-- `IsCPUOrPlacementGroupCPUResource`. -/
def isCPUOrPlacementGroupCPUResource (resourceId : ResourceID) : Bool :=
  resourceId = .cpu ∨
    (parsePgFormattedResource resourceId.binary true true).any
      (fun data => data.originalResource = ResourceID.cpu.binary)

/-! ### One way to read a name -/

variable {l : List Char}

theorem splitLast_eq_none {c : Char} (h : c ∉ l) : splitLast c l = none := by
  induction l with
  | nil => rfl
  | cons a l ih =>
    rw [List.mem_cons, not_or] at h
    rw [splitLast, ih h.2]
    exact if_neg (Ne.symm h.1)

theorem splitLast_append {c : Char} (before : List Char) {after : List Char} (h : c ∉ after) :
    splitLast c (before ++ c :: after) = some (before, after) := by
  induction before with
  | nil =>
    rw [List.nil_append, splitLast, splitLast_eq_none h]
    exact if_pos rfl
  | cons a before ih => rw [List.cons_append, splitLast, ih]

theorem eq_of_splitLast {c : Char} {before after : List Char}
    (h : splitLast c l = some (before, after)) :
    l = before ++ c :: after := by
  induction l generalizing before with
  | nil => cases h
  | cons a l ih =>
    unfold splitLast at h
    cases hsplit : splitLast c l with
    | some parts =>
      obtain ⟨before', after'⟩ := parts
      rw [hsplit] at h
      cases h
      rw [ih hsplit, List.cons_append]
    | none =>
      rw [hsplit] at h
      split_ifs at h with hac
      cases h
      rw [hac, List.nil_append]

theorem eq_of_stripSuffix {ending front : List Char} (h : stripSuffix ending l = some front) :
    l = front ++ ending := by
  unfold stripSuffix at h
  split_ifs at h with hsuffix
  cases h
  obtain ⟨front, rfl⟩ := List.isSuffixOf_iff_suffix.mp hsuffix
  rw [List.length_append, Nat.add_sub_cancel, List.take_left]

variable {resource : String} {data : PgFormattedResourceData}

theorem parseWildcard_eq_some (h : parseWildcard resource = some data) :
    ∃ original groupId, data = ⟨String.ofList original, -1, String.ofList groupId⟩ ∧
      resource.toList = original ++ "_group_".toList ++ groupId ∧
      splitLast '_' resource.toList = some (original ++ "_group".toList, groupId) := by
  obtain ⟨⟨before, groupId⟩, hsplit, h⟩ := Option.bind_eq_some_iff.mp h
  obtain ⟨original, hstrip, h⟩ := Option.bind_eq_some_iff.mp h
  split_ifs at h
  have hbefore := eq_of_stripSuffix hstrip
  refine ⟨original, groupId, (Option.some.inj h).symm, ?_, ?_⟩
  · rw [eq_of_splitLast hsplit, hbefore]
    simp
  · rw [hsplit, hbefore]

theorem parseIndexed_eq_some (h : parseIndexed resource = some data) :
    ∃ original digits groupId,
    data = ⟨String.ofList original, decimalValue digits, String.ofList groupId⟩ ∧
      digits ≠ [] ∧ digits.all Char.isDigit = true ∧
      resource.toList = original ++ "_group_".toList ++ (digits ++ '_' :: groupId) ∧
      splitLast '_' resource.toList = some (original ++ "_group_".toList ++ digits, groupId) := by
  obtain ⟨⟨front, groupId⟩, hsplit, h⟩ := Option.bind_eq_some_iff.mp h
  obtain ⟨⟨before, digits⟩, hsplit', h⟩ := Option.bind_eq_some_iff.mp h
  obtain ⟨original, hstrip, h⟩ := Option.bind_eq_some_iff.mp h
  split_ifs at h with hconditions
  have hfront : front = original ++ "_group_".toList ++ digits := by
    rw [eq_of_splitLast hsplit', eq_of_stripSuffix hstrip]
    simp
  refine ⟨original, digits, groupId, (Option.some.inj h).symm, hconditions.2.2.1,
    hconditions.2.2.2.1, ?_, ?_⟩
  · rw [eq_of_splitLast hsplit, hfront, List.append_assoc]
  · rw [hsplit, hfront]

/-- A name with the keyword right before the group is not an indexed one. -/
theorem parseIndexed_eq_none_of_splitLast {original groupId : List Char}
    (h : splitLast '_' resource.toList = some (original ++ "_group".toList, groupId)) :
    parseIndexed resource = none := by
  cases hindexed : parseIndexed resource with
  | none => rfl
  | some data =>
    obtain ⟨original', digits, groupId', _, hne, hdigits, _, hsplit⟩ := parseIndexed_eq_some hindexed
    rw [h, Option.some.injEq, Prod.mk.injEq] at hsplit
    -- what stands before the last underscore ends with a letter in one reading and with a digit in the other
    have hlast : (original ++ "_group".toList).getLast? = some 'p' := by
      rw [List.getLast?_append]
      rfl
    rw [hsplit.1, List.getLast?_append_of_ne_nil _ hne] at hlast
    exact absurd (List.all_eq_true.mp hdigits 'p' (List.mem_of_getLast? hlast)) (by decide)

theorem parseWildcard_eq_none_of_parseIndexed
    (h : parseIndexed resource = some data) : parseWildcard resource = none := by
  cases hwildcard : parseWildcard resource with
  | none => rfl
  | some data' =>
    obtain ⟨_, _, _, _, hsplit⟩ := parseWildcard_eq_some hwildcard
    rw [parseIndexed_eq_none_of_splitLast hsplit] at h
    cases h

/-- A name that a caller who asks for both kinds reads with a bundle index is an indexed one. -/
theorem parsePgFormattedResource_eq_indexed
    (h : parsePgFormattedResource resource true true = some data) (hindex : data.bundleIndex ≠ -1) :
    parsePgFormattedResource resource false true = some data := by
  unfold parsePgFormattedResource at h ⊢
  rw [if_pos rfl] at h
  cases hwildcard : parseWildcard resource with
  | none =>
    rw [hwildcard] at h
    exact h
  | some data' =>
    rw [hwildcard] at h
    obtain ⟨_, _, hdata, _⟩ := parseWildcard_eq_some hwildcard
    cases h
    rw [hdata] at hindex
    exact absurd rfl hindex

/-- An indexed name is read as such by a caller that asks for both kinds. -/
theorem parsePgFormattedResource_of_indexed
    (h : parsePgFormattedResource resource false true = some data) :
    parsePgFormattedResource resource true true = some data ∧ data.bundleIndex ≠ -1 := by
  have hindexed : parseIndexed resource = some data := h
  obtain ⟨_, digits, _, hdata, _⟩ := parseIndexed_eq_some hindexed
  refine ⟨?_, by rw [hdata]; exact ne_of_gt (lt_of_lt_of_le (by decide) (Int.natCast_nonneg _))⟩
  unfold parsePgFormattedResource
  rw [if_pos rfl, parseWildcard_eq_none_of_parseIndexed hindexed]
  exact hindexed

/-! ### Implicit resources of placement groups -/

/-- Whether a resource of a placement group is implicit depends on the original resource alone. -/
theorem isImplicitResource_of_toList {r : ResourceID} {original rest : List Char}
    (h : r.binary.toList = original ++ "_group_".toList ++ rest) :
    r.isImplicitResource =
      ResourceID.kImplicitResourcePrefix.toList.isPrefixOf (original ++ "_group_".toList) := by
  have hpredefined : r.isPredefinedResource = false := by
    have hinfix : "_group_".toList <:+: r.binary.toList := ⟨original, rest, h.symm⟩
    cases hr : r.isPredefinedResource with
    | false => rfl
    | true =>
        have hmem : r ∈ [ResourceID.cpu, .memory, .gpu, .objectStoreMemory] := of_decide_eq_true hr
        simp only [List.mem_cons, List.not_mem_nil, or_false] at hmem
        rcases hmem with rfl | rfl | rfl | rfl
        · exact absurd hinfix (by decide)
        · exact absurd hinfix (by decide)
        · exact absurd hinfix (by decide)
        · exact absurd hinfix (by decide)
  unfold ResourceID.isImplicitResource
  rw [hpredefined, Bool.not_false, Bool.true_and, h, Bool.eq_iff_iff, List.isPrefixOf_iff_prefix,
    List.isPrefixOf_iff_prefix]
  constructor
  · intro hprefix
    rcases List.prefix_or_prefix_of_prefix hprefix (List.prefix_append _ rest) with hle | hge
    · exact hle
    · -- the text before the group does not end inside the implicit names
      have hinfix : "_group_".toList <:+: ResourceID.kImplicitResourcePrefix.toList :=
        List.IsInfix.trans (List.suffix_append original _).isInfix hge.isInfix
      exact absurd hinfix (by decide)
  · exact fun hle => hle.trans (List.prefix_append _ rest)

/-- The wildcard resource and the indexed resources of a group are implicit together. -/
theorem isImplicitResource_eq_of_parse {w j : ResourceID} {dw dj : PgFormattedResourceData}
    (hw : parsePgFormattedResource w.binary true true = some dw) (hwindex : dw.bundleIndex = -1)
    (hj : parsePgFormattedResource j.binary false true = some dj)
    (h : dj.originalResource = dw.originalResource) :
    w.isImplicitResource = j.isImplicitResource := by
  have hwild : parseWildcard w.binary = some dw := by
    unfold parsePgFormattedResource at hw
    rw [if_pos rfl] at hw
    cases hwildcard : parseWildcard w.binary with
    | some data =>
      rw [hwildcard] at hw
      exact hw
    | none =>
      rw [hwildcard] at hw
      exact absurd hwindex (parsePgFormattedResource_of_indexed hw).2
  obtain ⟨original, groupId, hdw, hwname, _⟩ := parseWildcard_eq_some hwild
  obtain ⟨original', digits, groupId', hdj, _, _, hjname, _⟩ := parseIndexed_eq_some hj
  rw [hdw, hdj] at h
  obtain rfl := String.ofList_injective h
  rw [isImplicitResource_of_toList hwname, isImplicitResource_of_toList hjname]

end RayTfm.Raylet
