import RayTfm.Lib.DefaultMap
import RayTfm.Raylet.Check

/-! # Resource sets

Quantities of resources.  A `ResourceSet` is a demand: what it does not mention is not demanded.  A
`NodeResourceSet` is what a node has: an implicit resource that it does not mention is there once,
any other resource is not there.  Both store only what differs from these defaults. -/

namespace RayTfm.Raylet

/-! ### Resources -/

/-- `kResourceUnitScaling`: the quantity 1.  Quantities are `FixedPoint`s, integers in units of
1 / `kResourceUnitScaling`. -/
def kResourceUnitScaling : ℤ := 10000

/-- `scheduling::ResourceID`, by the name that it is interned for. -/
structure ResourceID where
  binary : String
deriving DecidableEq, Repr

namespace ResourceID

/-- `ResourceID::CPU`. -/
def cpu : ResourceID := ⟨"CPU"⟩

/-- `ResourceID::Memory`. -/
def memory : ResourceID := ⟨"memory"⟩

/-- `ResourceID::GPU`. -/
def gpu : ResourceID := ⟨"GPU"⟩

/-- `ResourceID::ObjectStoreMemory`. -/
def objectStoreMemory : ResourceID := ⟨"object_store_memory"⟩

/-- `ResourceID::IsPredefinedResource`. -/
def isPredefinedResource (resourceId : ResourceID) : Bool :=
  resourceId ∈ [cpu, memory, gpu, objectStoreMemory]

/-- `kImplicitResourcePrefix`. -/
def kImplicitResourcePrefix : String := "node:__internal_implicit_resource_"

/-- `ResourceID::IsImplicitResource`. -/
def isImplicitResource (resourceId : ResourceID) : Bool :=
  !resourceId.isPredefinedResource && kImplicitResourcePrefix.toList.isPrefixOf resourceId.binary.toList

/-- `NodeResourceSet::ResourceDefaultValue`. -/
def resourceDefaultValue (resourceId : ResourceID) : ℤ :=
  if resourceId.isImplicitResource then kResourceUnitScaling else 0

theorem resourceDefaultValue_nonneg (resourceId : ResourceID) :
    0 ≤ resourceId.resourceDefaultValue := by
  unfold resourceDefaultValue kResourceUnitScaling
  split_ifs <;> decide

end ResourceID

/-! ### The two kinds of sets -/

/-- `ResourceSet`: a zero is not stored. -/
abbrev ResourceSet := DefaultMap ResourceID ℤ (fun _ => 0)

/-- `NodeResourceSet`: a default is not stored. -/
abbrev NodeResourceSet := DefaultMap ResourceID ℤ ResourceID.resourceDefaultValue

/-- `ResourceSet::ResourceIds`. -/
def ResourceSet.resourceIds (set : ResourceSet) : List ResourceID := DefaultMap.keys set

/-- The quantities are not negative. -/
def ResourceSet.Nonneg (set : ResourceSet) : Prop := ∀ r, 0 ≤ DefaultMap.get set r

namespace NodeResourceSet

/-- `NodeResourceSet::Has`. -/
def has (set : NodeResourceSet) (resourceId : ResourceID) : Bool := set.get resourceId ≠ 0

/-- `NodeResourceSet::operator-=`. -/
def subtract (set : NodeResourceSet) (other : ResourceSet) : NodeResourceSet :=
  other.entries.entries.foldl (fun set entry => set.set entry.1 (set.get entry.1 - entry.2)) set

/-- `NodeResourceSet::operator>=`. -/
def covers (set : NodeResourceSet) (other : ResourceSet) : Bool :=
  other.entries.entries.all (fun entry => !decide (set.get entry.1 < entry.2))

/-- `NodeResourceSet::RemoveNegative`. -/
def removeNegative (set : NodeResourceSet) : NodeResourceSet :=
  set.reset (fun _ quantity => quantity < 0)

theorem lookup_entries (other : ResourceSet) (r : ResourceID) :
    other.entries.entries.lookup r = if other.get r = 0 then none else some (other.get r) :=
  DefaultMap.get?_eq other r

/-- What a loop over the entries of a demand, rewriting the quantity of each entry's resource,
leaves. -/
theorem get_foldl_entries {step : NodeResourceSet → ResourceID × ℤ → NodeResourceSet}
    {f : ResourceID → ℤ → ℤ → ℤ}
    (hstep : ∀ set entry r, (step set entry).get r = if r = entry.1 then f r (set.get r) entry.2
      else set.get r)
    (hzero : ∀ r a, f r a 0 = a) (set : NodeResourceSet) (other : ResourceSet) (r : ResourceID) :
    (other.entries.entries.foldl step set).get r = f r (set.get r) (other.get r) := by
  rw [DefaultMap.get_foldl_step hstep other.entries.nodup, lookup_entries]
  split_ifs with h
  · rw [h, hzero]
    rfl
  · rfl

theorem get_subtract (set : NodeResourceSet) (other : ResourceSet) (r : ResourceID) :
    (set.subtract other).get r = set.get r - other.get r := by
  apply get_foldl_entries (f := fun _ a d => a - d)
  · intro set entry r
    rw [DefaultMap.get_set]
    split_ifs with h
    · rw [h]
    · rfl
  · exact fun _ a => sub_zero a

variable {set : NodeResourceSet}

/-- A set covers a nonnegative demand exactly if it has as much of every resource, when it lacks
none. -/
theorem covers_iff {other : ResourceSet} (hset : ∀ r, 0 ≤ set.get r) :
    set.covers other = true ↔ ∀ r, other.get r ≤ set.get r := by
  unfold covers
  rw [List.all_eq_true]
  constructor
  · intro h r
    by_cases hr : other.get r = 0
    · rw [hr]
      exact hset r
    · have hentry := h (r, other.get r) (DefaultMap.mem_entries_iff.mpr ⟨rfl, hr⟩)
      rw [Bool.not_eq_true', decide_eq_false_iff_not] at hentry
      exact not_lt.mp hentry
  · rintro h ⟨r, d⟩ he
    obtain ⟨rfl, -⟩ := DefaultMap.mem_entries_iff.mp he
    rw [Bool.not_eq_true', decide_eq_false_iff_not]
    exact not_lt.mpr (h r)

theorem get_removeNegative (h : ∀ r, 0 ≤ set.get r) (r : ResourceID) :
    set.removeNegative.get r = set.get r :=
  DefaultMap.get_reset_of_forall (fun r => by have := h r; simpa using this) r

end NodeResourceSet

end RayTfm.Raylet
