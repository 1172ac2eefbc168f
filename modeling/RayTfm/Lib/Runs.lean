import Mathlib

/-! # Runs of a component that can fail

A component is a step function: from a state and an operation it computes the next state and what
it puts out, or it fails.  `runSteps` is a run over a list of operations.  As every initial part of
a list of operations is a list of operations, what holds after every run holds at every moment of a
run.

`runSteps_inv` is the invariant rule: what one step keeps holds after every run that does not fail.
`runSteps_ok` is the rule for success: if moreover no step fails from a state with the invariant,
no run fails.

Where a failure is itself an answer, after which the run goes on, `run` is the run of a step
function that always answers, and `run_sim` is the rule for two of them that answer alike. -/

namespace RayTfm

section runs
variable {σ ι ω ε : Type} (step : σ → ι → Except ε (σ × List ω))

/-- The state after the operations, and everything put out on the way. -/
def runSteps : σ → List ι → Except ε (σ × List ω)
  | s, [] => .ok (s, [])
  | s, i :: l => do
      let r ← step s i
      let rest ← runSteps r.1 l
      .ok (rest.1, r.2 ++ rest.2)

variable {step}
variable {l : List ι} {out : List ω}
variable {s : σ}

/-- What a run that does not fail does first. -/
theorem runSteps_cons_eq_ok {s'' : σ} {i : ι} :
    runSteps step s (i :: l) = .ok (s'', out) ↔
      ∃ s' o out', step s i = .ok (s', o) ∧ runSteps step s' l = .ok (s'', out') ∧
        out = o ++ out' := by
  rw [runSteps]
  cases hs : step s i with
  | error e => exact ⟨nofun, nofun⟩
  | ok r =>
    show (runSteps step r.1 l >>= _) = _ ↔ _
    cases hr : runSteps step r.1 l with
    | error e =>
      refine ⟨nofun, ?_⟩
      rintro ⟨s', o, out', h, h', -⟩
      cases h
      rw [hr] at h'
      cases h'
    | ok q =>
      constructor
      · intro h
        cases h
        exact ⟨r.1, r.2, q.2, rfl, hr, rfl⟩
      · rintro ⟨s', o, out', h, h', rfl⟩
        cases h
        rw [hr] at h'
        cases h'
        rfl

theorem runSteps_append_eq_ok {s'' : σ} {l' : List ι} :
    runSteps step s (l ++ l') = .ok (s'', out) ↔
      ∃ s' o o', runSteps step s l = .ok (s', o) ∧ runSteps step s' l' = .ok (s'', o') ∧
        out = o ++ o' := by
  induction l generalizing s out with
  | nil =>
    constructor
    · intro h
      exact ⟨s, [], out, rfl, h, rfl⟩
    · rintro ⟨s', o, o', h, h', rfl⟩
      cases h
      exact h'
  | cons i l ih =>
    rw [List.cons_append, runSteps_cons_eq_ok]
    constructor
    · rintro ⟨s₁, o, out', hs, hrun, rfl⟩
      obtain ⟨s', o₁, o', hl, hl', rfl⟩ := ih.mp hrun
      exact ⟨s', o ++ o₁, o', runSteps_cons_eq_ok.mpr ⟨s₁, o, o₁, hs, hl, rfl⟩, hl',
        (List.append_assoc ..).symm⟩
    · rintro ⟨s', o, o', hl, hl', rfl⟩
      obtain ⟨s₁, o₁, o₂, hs, hrun, rfl⟩ := runSteps_cons_eq_ok.mp hl
      exact ⟨s₁, o₁, o₂ ++ o', hs, ih.mpr ⟨s', o₂, o', hrun, hl', rfl⟩, List.append_assoc ..⟩

/-- Draining: if an operation makes a measure smaller as long as it is positive, then repeating it
brings the measure to zero. -/
theorem runSteps_replicate {Q : σ → Prop} {m : σ → ℕ} {i : ι}
    (hstep : ∀ s s' o, Q s → step s i = .ok (s', o) → Q s' ∧ m s' ≤ m s - 1) :
    ∀ {k : ℕ} {s s' : σ} {out : List ω}, Q s →
      runSteps step s (List.replicate k i) = .ok (s', out) → m s' ≤ m s - k
  | 0, s, s', out, _, h => by
    cases h
    exact le_rfl
  | k + 1, s, s', out, hQ, h => by
    rw [List.replicate_succ] at h
    obtain ⟨s₁, o, out', hs, hrun, rfl⟩ := runSteps_cons_eq_ok.mp h
    obtain ⟨hQ', hm⟩ := hstep s s₁ o hQ hs
    have := runSteps_replicate hstep hQ' hrun
    omega

variable {P : List ι → σ → List ω → Prop}

/-- The rule for runs: from an invariant no step fails and every step keeps it. -/
theorem runSteps_ok (h0 : P [] s [])
    (hstep : ∀ done i rest s out, l = done ++ i :: rest → P done s out →
      ∃ s' o, step s i = .ok (s', o) ∧ P (done ++ [i]) s' (out ++ o)) :
    ∃ s' out, runSteps step s l = .ok (s', out) ∧ P l s' out := by
  have hloop : ∀ (rest done : List ι) (s : σ) (out : List ω), l = done ++ rest → P done s out →
      ∃ s' out', runSteps step s rest = .ok (s', out') ∧ P l s' (out ++ out') := by
    intro rest
    induction rest with
    | nil =>
      intro done s out hl hP
      rw [List.append_nil] at hl
      subst hl
      exact ⟨s, [], rfl, by rwa [List.append_nil]⟩
    | cons i rest ih =>
      intro done s out hl hP
      obtain ⟨s', o, hs, hP'⟩ := hstep done i rest s out hl hP
      obtain ⟨s'', out', hrun, hP''⟩ := ih (done ++ [i]) s' (out ++ o)
        (by rw [hl, List.append_assoc, List.singleton_append]) hP'
      exact ⟨s'', o ++ out', runSteps_cons_eq_ok.mpr ⟨s', o, out', hs, hrun, rfl⟩,
        by rwa [List.append_assoc] at hP''⟩
  obtain ⟨s', out, hrun, hP⟩ := hloop l [] s [] rfl h0
  exact ⟨s', out, hrun, hP⟩

/-- The invariant rule: what every step that does not fail keeps. -/
theorem runSteps_inv {s' : σ} (h0 : P [] s [])
    (hstep : ∀ done i s out s' o, P done s out → step s i = .ok (s', o) →
      P (done ++ [i]) s' (out ++ o)) (h : runSteps step s l = .ok (s', out)) : P l s' out := by
  have hloop : ∀ (rest done : List ι) (s : σ) (out out' : List ω), P done s out →
      runSteps step s rest = .ok (s', out') → P (done ++ rest) s' (out ++ out') := by
    intro rest
    induction rest with
    | nil =>
      intro done s out out' hP hrun
      cases hrun
      rwa [List.append_nil, List.append_nil]
    | cons i rest ih =>
      intro done s out out' hP hrun
      obtain ⟨s₁, o, out₁, hs, hrest, rfl⟩ := runSteps_cons_eq_ok.mp hrun
      have hP' := ih (done ++ [i]) s₁ (out ++ o) out₁ (hstep done i s out s₁ o hP hs) hrest
      rwa [List.append_assoc, List.singleton_append, List.append_assoc] at hP'
  exact hloop l [] s [] out h0 h

end runs

section answers
variable {σ τ ι ω : Type}

/-- The state after the operations, and all answers. -/
def run (step : σ → ι → σ × ω) : σ → List ι → σ × List ω
  | s, [] => (s, [])
  | s, i :: l =>
    let r := step s i
    let rest := run step r.1 l
    (rest.1, r.2 :: rest.2)

/-- Simulation: related states that answer alike and stay related. -/
theorem run_sim {step : σ → ι → σ × ω} {step' : τ → ι → τ × ω} {R : σ → τ → Prop}
    (hstep : ∀ s t i, R s t → (step s i).2 = (step' t i).2 ∧ R (step s i).1 (step' t i).1) :
    ∀ {l : List ι} {s : σ} {t : τ}, R s t →
      (run step s l).2 = (run step' t l).2 ∧ R (run step s l).1 (run step' t l).1
  | [], s, t, h => ⟨rfl, h⟩
  | i :: l, s, t, h => by
    obtain ⟨hans, hR⟩ := hstep s t i h
    obtain ⟨hrest, hend⟩ := run_sim hstep (l := l) hR
    refine ⟨?_, hend⟩
    rw [run, run, hans, hrest]

end answers
end RayTfm
