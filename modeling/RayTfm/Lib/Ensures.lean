import Mathlib

/-! # What a computation ensures if it succeeds

`Ensures x P` says that the value of `x` has the property `P` if `x` has a value.  A computation
that is put together from smaller ones is taken apart by the rules `Ensures.bind` and
`Ensures.bind_of`; a loop keeps what each of its rounds keeps (`Ensures.foldlM`). -/

namespace RayTfm

variable {ε α β ι : Type} {P : α → Prop} {Q : β → Prop}

/-- The value has the property, if there is one. -/
def Ensures (x : Except ε α) (P : α → Prop) : Prop := ∀ a, x = .ok a → P a

namespace Ensures

variable {a : α}

theorem ok (h : P a) : Ensures (.ok a : Except ε α) P := by
  intro a' heq
  cases heq
  exact h

theorem error (e : ε) : Ensures (.error e : Except ε α) P := nofun

variable {x : Except ε α}

theorem mono {P' : α → Prop} (hx : Ensures x P) (h : ∀ a, P a → P' a) : Ensures x P' :=
  fun a heq => h a (hx a heq)

/-- What a first computation ensures may be used for the second. -/
theorem bind_of {f : α → Except ε β} (hx : Ensures x P) (h : ∀ a, P a → Ensures (f a) Q) :
    Ensures (x >>= f) Q := by
  cases x with
  | error e => exact error e
  | ok a => exact h a (hx a rfl)

theorem bind {f : α → Except ε β} (h : ∀ a, x = .ok a → Ensures (f a) Q) : Ensures (x >>= f) Q :=
  bind_of (fun _ heq => heq) h

theorem ite {c : Prop} [Decidable c] {y : Except ε α} (hx : c → Ensures x P) (hy : ¬ c → Ensures y P) :
    Ensures (if c then x else y) P := by
  split_ifs with hc
  · exact hx hc
  · exact hy hc

theorem foldlM {f : α → ι → Except ε α} {l : List ι} (h0 : P a)
    (h : ∀ a, ∀ i ∈ l, P a → Ensures (f a i) P) :
    Ensures (l.foldlM f a) P := by
  induction l generalizing a with
  | nil => exact ok h0
  | cons i l ih =>
    rw [List.foldlM_cons]
    exact bind_of (h a i (.head _) h0) (fun a' ha' =>
      ih ha' (fun a'' j hj => h a'' j (.tail _ hj)))

theorem ok_iff : Ensures (.ok a : Except ε α) P ↔ P a := ⟨fun h => h a rfl, ok⟩

/-- A property holds after every operation of a run if and only if each operation meets the
condition under which it keeps the property.  The condition may rest on an invariant of the
operations that meet it. -/
theorem prefix_iff (Inv : α → Prop) {step : α → ι → Except ε α} {Ok : α → ι → Prop} {ops : List ι}
    (h0 : P a) (hinv0 : Inv a) (hstep : ∀ a i, P a → Inv a → (Ensures (step a i) P ↔ Ok a i))
    (hinv : ∀ a i, Inv a → Ok a i → Ensures (step a i) Inv) :
    (∀ l, l <+: ops → Ensures (l.foldlM step a) P) ↔
      ∀ l i, l ++ [i] <+: ops → Ensures (l.foldlM step a) (fun a => Ok a i) := by
  have hlast : ∀ (l : List ι) (i : ι) {Q : α → Prop},
    (∀ a', l.foldlM step a = .ok a' → Ensures (step a' i) Q) →
      Ensures ((l ++ [i]).foldlM step a) Q := by
    intro l i Q h
    rw [List.foldlM_append]
    refine bind (fun a' hrun => ?_)
    rw [List.foldlM_cons]
    exact bind_of (h a' hrun) (fun _ hQ => ok hQ)
  constructor
  · intro hall
    -- the condition is met at each operation, and the invariant goes along
    have hboth : ∀ l, l <+: ops → Ensures (l.foldlM step a) Inv ∧
        ∀ i, l ++ [i] <+: ops → Ensures (l.foldlM step a) (fun a => Ok a i) := by
      intro l
      have hok : ∀ l, l <+: ops → Ensures (l.foldlM step a) Inv →
          ∀ i, l ++ [i] <+: ops → Ensures (l.foldlM step a) (fun a => Ok a i) := by
        intro l hl hInv i hi a' hrun
        rw [← hstep a' i (hall l hl a' hrun) (hInv a' hrun)]
        intro a'' hnext
        apply hall (l ++ [i]) hi
        rw [List.foldlM_append, hrun]
        show (List.foldlM step a' [i]) = .ok a''
        rw [List.foldlM_cons, hnext]
        rfl
      induction l using List.reverseRecOn with
      | nil => exact fun hl => ⟨ok hinv0, hok [] hl (ok hinv0)⟩
      | append_singleton l i ih =>
        intro hl
        obtain ⟨hInv, hOk⟩ := ih ((List.prefix_append l [i]).trans hl)
        have hInv' : Ensures ((l ++ [i]).foldlM step a) Inv :=
          hlast l i (fun a' hrun => hinv a' i (hInv a' hrun) (hOk i hl a' hrun))
        exact ⟨hInv', hok _ hl hInv'⟩
    exact fun l i hl => (hboth l ((List.prefix_append l [i]).trans hl)).2 i hl
  · intro hall
    have hboth : ∀ l, l <+: ops → Ensures (l.foldlM step a) (fun a => P a ∧ Inv a) := by
      intro l
      induction l using List.reverseRecOn with
      | nil => exact fun _ => ok ⟨h0, hinv0⟩
      | append_singleton l i ih =>
        intro hl
        refine hlast l i (fun a' hrun a'' hnext => ?_)
        obtain ⟨hP, hInv⟩ := ih ((List.prefix_append l [i]).trans hl) a' hrun
        have hOk := hall l i hl a' hrun
        exact ⟨(hstep a' i hP hInv).mpr hOk a'' hnext, hinv a' i hInv hOk a'' hnext⟩
    exact fun l hl => (hboth l hl).mono (fun _ h => h.1)

/-- The same for operations that always succeed, in a run whose operations are legal. -/
theorem foldl_prefix_iff (Inv : α → Prop) {step : α → ι → α} {Legal Ok : α → ι → Prop} {ops : List ι}
    (hlegal : ∀ l i, l ++ [i] <+: ops → Legal (l.foldl step a) i) (h0 : P a) (hinv0 : Inv a)
    (hstep : ∀ a i, Legal a i → P a → Inv a → (P (step a i) ↔ Ok a i))
    (hinv : ∀ a i, Legal a i → Inv a → Ok a i → Inv (step a i)) :
    (∀ l, l <+: ops → P (l.foldl step a)) ↔ ∀ l i, l ++ [i] <+: ops → Ok (l.foldl step a) i := by
  classical
  -- what is not legal fails
  let step' : α → ι → Except Unit α := fun a i => if Legal a i then .ok (step a i) else .error ()
  have hrun : ∀ l, l <+: ops → l.foldlM step' a = .ok (l.foldl step a) := by
    intro l
    induction l using List.reverseRecOn with
    | nil => exact fun _ => rfl
    | append_singleton l i ih =>
      intro hl
      rw [List.foldlM_append, ih ((List.prefix_append l [i]).trans hl), List.foldl_append]
      show (List.foldlM step' _ [i]) = _
      rw [List.foldlM_cons]
      simp only [step', if_pos (hlegal l i hl)]
      rfl
  have hiff : (∀ l, l <+: ops → Ensures (l.foldlM step' a) P) ↔
      ∀ l i, l ++ [i] <+: ops → Ensures (l.foldlM step' a) (fun a => Legal a i → Ok a i) := by
    refine prefix_iff Inv h0 hinv0 (fun a i hP hInv => ?_)
      (fun a i hInv hOk => ite (fun h => ?_) (fun _ => error _))
    · by_cases h : Legal a i
      · simp only [step', if_pos h, ok_iff, hstep a i h hP hInv, h, true_imp_iff]
      · simp only [step', if_neg h, h, false_imp_iff, iff_true]
        exact error _
    · exact ok (hinv a i h hInv (hOk h))
  constructor
  · intro hall l i hl
    have hok := hiff.mp (fun l hl => by rw [hrun l hl]; exact ok (hall l hl)) l i hl
    rw [hrun l ((List.prefix_append l [i]).trans hl), ok_iff] at hok
    exact hok (hlegal l i hl)
  · intro hall l hl
    have hall' := hiff.mpr (fun l i hl => by
      rw [hrun l ((List.prefix_append l [i]).trans hl)]
      exact ok (fun _ => hall l i hl)) l hl
    rwa [hrun l hl, ok_iff] at hall'

end Ensures

end RayTfm
