import Mathlib

/-! # Reachable states

A component takes operations one after another; an operation may fail (`foldlM_inv` for a given list
of them). `Reach step ok s s'` says that `s'` is reached from `s` by operations that succeed and of
which each meets the condition `ok` in the state in which it is taken.  `Reach.inv` is the invariant
rule: what every such operation keeps holds in every state that is reached.  `SameOutcome` relates
two computations that take their steps side by side. -/

namespace RayTfm

variable {σ ι ε : Type} {step : σ → ι → Except ε σ} {ok : σ → ι → Prop}

/-- The states reached by operations that meet a condition. -/
inductive Reach (step : σ → ι → Except ε σ) (ok : σ → ι → Prop) (s : σ) : σ → Prop where
  | refl : Reach step ok s s
  | tail {s' s'' : σ} {i : ι} : Reach step ok s s' → ok s' i → step s' i = .ok s'' → Reach step ok s s''

/-- The invariant rule. -/
theorem Reach.inv {P : σ → Prop} {s s' : σ} (h : Reach step ok s s') (h0 : P s)
    (hstep : ∀ s i s', P s → ok s i → step s i = .ok s' → P s') : P s' := by
  induction h with
  | refl => exact h0
  | tail _ hok hs ih => exact hstep _ _ _ ih hok hs

theorem Reach.of_foldlM {s s' s'' : σ} {l : List ι} (h : Reach step ok s s')
    (hok : ∀ s, ∀ i ∈ l, ok s i)
    (hrun : l.foldlM step s' = .ok s'') : Reach step ok s s'' := by
  induction l generalizing s' with
  | nil =>
    cases hrun
    exact h
  | cons i l ih =>
    rw [List.foldlM_cons] at hrun
    cases hs : step s' i with
    | error e =>
      rw [hs] at hrun
      cases hrun
    | ok s₁ =>
      rw [hs] at hrun
      exact ih (.tail h (hok s' i (.head _)) hs) (fun s i hi => hok s i (.tail _ hi)) hrun

/-- What every round of a loop keeps holds after the rounds, if all succeed. -/
theorem foldlM_inv {P : List ι → σ → Prop} {l : List ι} {s s' : σ} (h0 : P [] s)
    (hstep : ∀ done i s s', i ∈ l → P done s → step s i = .ok s' → P (done ++ [i]) s')
    (hrun : l.foldlM step s = .ok s') : P l s' := by
  have hloop : ∀ (rest done : List ι) (s : σ), (∀ i ∈ rest, i ∈ l) → P done s →
    rest.foldlM step s = .ok s' →
      P (done ++ rest) s' := by
    intro rest
    induction rest with
    | nil =>
      intro done s _ hP hrun
      cases hrun
      rwa [List.append_nil]
    | cons i rest ih =>
      intro done s hmem hP hrun
      rw [List.foldlM_cons] at hrun
      cases hs : step s i with
      | error e =>
        rw [hs] at hrun
        cases hrun
      | ok s₁ =>
        rw [hs] at hrun
        have hP' := hstep done i s s₁ (hmem i (.head _)) hP hs
        have hrest := ih (done ++ [i]) s₁ (fun x hx => hmem x (.tail _ hx)) hP' hrun
        rwa [List.append_assoc, List.singleton_append] at hrest
  exact hloop l [] s (fun _ h => h) h0 hrun

/-! ### Two computations side by side -/

/-- The outcomes are related values, or both are the same failure. -/
def SameOutcome {τ : Type} (R : σ → τ → Prop) : Except ε σ → Except ε τ → Prop
  | .ok s, .ok t => R s t
  | .error e, .error e' => e = e'
  | _, _ => False

section
variable {τ σ' τ' : Type} {R : σ → τ → Prop}

theorem SameOutcome.rfl {x : Except ε σ} : SameOutcome (· = ·) x x := by
  cases x with
  | error e => exact Eq.refl e
  | ok s => exact Eq.refl s

theorem SameOutcome.bind {R' : σ' → τ' → Prop} {x : Except ε σ} {y : Except ε τ} {f : σ → Except ε σ'}
    {g : τ → Except ε τ'} (h : SameOutcome R x y) (hfg : ∀ s t, R s t → SameOutcome R' (f s) (g t)) :
    SameOutcome R' (x >>= f) (y >>= g) := by
  cases x with
  | error e =>
    cases y with
    | error e' => exact h
    | ok t => exact h.elim
  | ok s =>
    cases y with
    | error e' => exact h.elim
    | ok t => exact hfg s t h

/-- Two loops over one list, whose states stay related. -/
theorem SameOutcome.foldlM {f : σ → ι → Except ε σ} {g : τ → ι → Except ε τ}
    (hstep : ∀ s t i, R s t → SameOutcome R (f s i) (g t i)) (l : List ι) {s : σ} {t : τ} (h : R s t) :
    SameOutcome R (l.foldlM f s) (l.foldlM g t) := by
  induction l generalizing s t with
  | nil => exact h
  | cons i l ih =>
    rw [List.foldlM_cons, List.foldlM_cons]
    exact (hstep s t i h).bind (fun s' t' h' => ih h')

end
end RayTfm
