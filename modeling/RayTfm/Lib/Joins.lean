import Mathlib.Data.List.Basic

/-! # Joins of lists

Joins by nested loops over arbitrary rows and an arbitrary relation between them: the inner join,
the outer join of the left side, the semi join and the anti join.  The right-hand versions are these
with the sides exchanged.

A filter on a side that a join puts out can be carried out before the join: on either side of an
inner join, on the left side of the others. -/

namespace RayTfm.Joins

variable {A B : Type}

/-- A row without partners is put out once, without one. -/
def padded : List B → List (Option B)
  | [] => [none]
  | b :: bs => (b :: bs).map some

def inner (r : A → B → Bool) (as : List A) (bs : List B) : List (A × B) :=
  as.flatMap (fun a => (bs.filter (r a)).map (Prod.mk a))

def outer (r : A → B → Bool) (as : List A) (bs : List B) : List (A × Option B) :=
  as.flatMap (fun a => (padded (bs.filter (r a))).map (Prod.mk a))

def semi (r : A → B → Bool) (as : List A) (bs : List B) : List A := as.filter (fun a => bs.any (r a))

def anti (r : A → B → Bool) (as : List A) (bs : List B) : List A := as.filter (fun a => !bs.any (r a))

section filter
variable (r : A → B → Bool) (keep : A → Bool) (as : List A) (bs : List B)

/-- A filter on the first component goes before a loop over the first components. -/
theorem filter_fst_flatMap {D : Type} (partners : A → List D) :
    (as.flatMap (fun a => (partners a).map (Prod.mk a))).filter (fun p => keep p.1) =
      (as.filter keep).flatMap (fun a => (partners a).map (Prod.mk a)) := by
  induction as with
  | nil => rfl
  | cons a as ih =>
    have hrow : ((partners a).map (Prod.mk a)).filter (fun p => keep p.1) =
        if keep a then (partners a).map (Prod.mk a) else [] := by
      rw [List.filter_map]
      cases hkeep : keep a with
      | false => simp [Function.comp_def, hkeep]
      | true => simp [Function.comp_def, hkeep]
    rw [List.flatMap_cons, List.filter_append, ih, hrow, List.filter_cons]
    split_ifs
    · rw [List.flatMap_cons]
    · rw [List.nil_append]

theorem filter_inner_left : (inner r as bs).filter (fun p => keep p.1) = inner r (as.filter keep) bs :=
  filter_fst_flatMap keep as _

theorem filter_inner_right (keep : B → Bool) :
    (inner r as bs).filter (fun p => keep p.2) = inner r as (bs.filter keep) := by
  unfold inner
  rw [List.filter_flatMap]
  apply List.flatMap_congr
  intro a _
  rw [List.filter_map, List.filter_filter, List.filter_filter]
  congr 1
  apply List.filter_congr
  intro b _
  exact Bool.and_comm _ _

theorem filter_outer : (outer r as bs).filter (fun p => keep p.1) = outer r (as.filter keep) bs :=
  filter_fst_flatMap keep as _

theorem filter_semi : (semi r as bs).filter keep = semi r (as.filter keep) bs := by
  unfold semi
  rw [List.filter_filter, List.filter_filter]
  exact List.filter_congr (fun a _ => Bool.and_comm _ _)

theorem filter_anti : (anti r as bs).filter keep = anti r (as.filter keep) bs := by
  unfold anti
  rw [List.filter_filter, List.filter_filter]
  exact List.filter_congr (fun a _ => Bool.and_comm _ _)

end filter

section mem
variable {r : A → B → Bool} {as : List A} {bs : List B}

theorem mem_inner {p : A × B} : p ∈ inner r as bs ↔ p.1 ∈ as ∧ p.2 ∈ bs ∧ r p.1 p.2 = true := by
  obtain ⟨a, b⟩ := p
  unfold inner
  simp only [List.mem_flatMap, List.mem_map, List.mem_filter, Prod.mk.injEq]
  constructor
  · rintro ⟨a', ha, b', ⟨hb, hr⟩, rfl, rfl⟩
    exact ⟨ha, hb, hr⟩
  · rintro ⟨ha, hb, hr⟩
    exact ⟨a, ha, b, ⟨hb, hr⟩, rfl, rfl⟩

theorem fst_mem_of_mem_outer {p : A × Option B} (h : p ∈ outer r as bs) : p.1 ∈ as := by
  obtain ⟨a, ha, hp⟩ := List.mem_flatMap.mp h
  obtain ⟨b, -, rfl⟩ := List.mem_map.mp hp
  exact ha

theorem mem_of_mem_semi {a : A} (h : a ∈ semi r as bs) : a ∈ as := (List.mem_filter.mp h).1

theorem mem_of_mem_anti {a : A} (h : a ∈ anti r as bs) : a ∈ as := (List.mem_filter.mp h).1

end mem

end RayTfm.Joins
