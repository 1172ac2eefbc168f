import RayTfm.Lib.Runs

/-! # Histories

The history of a run is the list of its events, the latest last.  `EachAfter P t` says that each
event of the history `t` is one that `P` admits after the events before it: `P` is the specification
of a component that is told by its history alone.  `runSteps_history` is the rule by which the steps
of a component keep to such a specification. -/

namespace RayTfm

variable {ω : Type} {P : List ω → ω → Prop} {t : List ω} {e : ω}

/-- Each event is admitted after the events before it. -/
def EachAfter (P : List ω → ω → Prop) (t : List ω) : Prop :=
  ∀ past e rest, t = past ++ e :: rest → P past e

namespace EachAfter

theorem nil : EachAfter P [] := by
  intro past e rest h
  exact absurd h.symm (by simp)

theorem snoc (h : EachAfter P t) (he : P t e) : EachAfter P (t ++ [e]) := by
  intro past e' rest heq
  rcases List.eq_nil_or_concat rest with rfl | ⟨rest', e'', rfl⟩
  · obtain ⟨rfl, hlast⟩ := List.append_inj' heq rfl
    cases hlast
    exact he
  · rw [List.concat_eq_append, ← List.cons_append, ← List.append_assoc] at heq
    exact h past e' rest' (List.append_inj' heq rfl).1

/-- What came before an event is a history. -/
theorem of_append {t' : List ω} (h : EachAfter P (t ++ t')) : EachAfter P t := by
  rintro past e rest rfl
  apply h past e (rest ++ t')
  rw [List.append_assoc, List.cons_append]

/-- What one admitted event keeps holds at the end, if it holds at some moment. -/
theorem induct {Q : List ω → Prop} {t' : List ω} (h : EachAfter P (t ++ t')) (h0 : Q t)
    (hstep : ∀ past e, Q past → P past e → Q (past ++ [e])) : Q (t ++ t') := by
  induction t' using List.reverseRecOn with
  | nil => rwa [List.append_nil]
  | append_singleton t' e ih =>
    rw [← List.append_assoc] at h ⊢
    exact hstep _ e (ih h.of_append) (h (t ++ t') e [] rfl)

end EachAfter

/-- A component whose steps put out one event each: if the event is admitted, and the state goes
along with the history, this is so in every run. -/
theorem runSteps_history {σ ι ε : Type} {step : σ → ι → Except ε (σ × List ω)} {Ok : ι → Prop}
    {R : σ → List ω → Prop}
    {s s' : σ} {l : List ι} (h0 : R s [])
    (hstep : ∀ s t i s' o, Ok i → R s t → step s i = .ok (s', o) → ∃ e, o = [e] ∧ P t e ∧
      R s' (t ++ [e]))
    (hok : ∀ i ∈ l, Ok i) (hrun : runSteps step s l = .ok (s', t)) : EachAfter P t ∧ R s' t := by
  refine runSteps_inv (P := fun done s t => (∀ i ∈ done, Ok i) → EachAfter P t ∧ R s t)
    (fun _ => ⟨.nil, h0⟩) ?_
    hrun hok
  intro done i s t s' o ih hs hmem
  obtain ⟨hP, hR⟩ := ih (fun j hj => hmem j (List.mem_append_left _ hj))
  obtain ⟨e, rfl, he, hR'⟩ := hstep s t i s' o (hmem i (by simp)) hR hs
  exact ⟨hP.snoc he, hR'⟩

end RayTfm
