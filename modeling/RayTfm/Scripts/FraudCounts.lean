import RayTfm.Scripts.TemporalSplits
import RayTfm.Tfm.GpuTokenizer

/-! # Fraud counts and fraud labels

`write_splits` counts the fraud rows of a split without regard to case, on the table as it is read;
the labels are made from the rows as they are written, and only `Yes` and `1` are fraud.  A split's
count is the sum of its labels exactly if none of its rows spells the answer otherwise
(`writeSplits_fraud_eq_iff`). -/

namespace RayTfm.Scripts

variable {ρ : Type} {upper : String → String} {dirs : Split → SplitDir ρ}
  {trainCut testCut : String}

/-- `_fraud_label` on a row that is read back; neither a missing text nor a boolean is `Yes`. -/
def fraudLabelOf (r : RawRow ρ) : ℤ :=
  match r.isFraud with
  | .text (some s) => Tfm.GPUTokenizer.fraudLabel s
  | _ => 0

/-- The answer is a yes in upper case, but it is not spelled `Yes` or `1`. -/
def OtherSpelling (upper : String → String) (r : RawRow ρ) : Prop :=
  ∃ s, r.isFraud = .text (some s) ∧ (upper s = "YES" ∨ upper s = "1") ∧ s ≠ "Yes" ∧ s ≠ "1"

/-- `utf8_upper` is the upper case of ASCII on texts in ASCII. -/
def AsciiUpper (upper : String → String) : Prop :=
  ∀ s : String, (∀ c ∈ s.toList, c.toNat < 128) →
    upper s = String.ofList (s.toList.map Char.toUpper)

theorem AsciiUpper.eqs (h : AsciiUpper upper) :
    upper "Yes" = "YES" ∧ upper "No" = "NO" ∧ upper "1" = "1" :=
  ⟨(h "Yes" (by simp)).trans (by simp), (h "No" (by simp)).trans (by simp),
    (h "1" (by simp)).trans (by simp)⟩

/-! ### One row -/

theorem fraudBool_normalizeRow (h : AsciiUpper upper) (r : RawRow ρ) :
    fraudBool upper (normalizeRow r) = fraudBool upper r := by
  obtain ⟨hyes, hno, -⟩ := h.eqs
  unfold fraudBool normalizeRow
  cases hcell : r.isFraud with
  | text s => rfl
  | bool b =>
    obtain _ | _ | _ := b
    · rfl
    · simp [hno]
    · simp [hyes]

theorem fraudBool_normalizeRow_iff (h : AsciiUpper upper) (r : RawRow ρ) :
    fraudBool upper (normalizeRow r) = some true ↔
      fraudLabelOf (normalizeRow r) = 1 ∨ OtherSpelling upper r := by
  obtain ⟨hyes, hno, hone⟩ := h.eqs
  unfold OtherSpelling
  cases hcell : r.isFraud with
  | text s =>
    cases s with
    | none => simp [fraudBool, fraudLabelOf, normalizeRow, hcell]
    | some s =>
      simp only [fraudBool, fraudLabelOf, Tfm.GPUTokenizer.fraudLabel, normalizeRow, hcell,
        Option.map_some, Option.some.injEq, decide_eq_true_eq, FraudCell.text.injEq,
        exists_eq_left']
      by_cases hlabel : s = "Yes" ∨ s = "1"
      · have hup : upper s = "YES" ∨ upper s = "1" :=
          hlabel.imp (fun hs => by rw [hs, hyes]) (fun hs => by rw [hs, hone])
        simp [hlabel, hup]
      · simp [not_or.mp hlabel]
  | bool b =>
    rw [fraudBool_normalizeRow h]
    obtain _ | _ | _ := b <;>
      simp [fraudBool, fraudLabelOf, Tfm.GPUTokenizer.fraudLabel, normalizeRow, hcell]

theorem OtherSpelling.not_label {r : RawRow ρ} (h : OtherSpelling upper r) :
    fraudLabelOf (normalizeRow r) ≠ 1 := by
  obtain ⟨s, hcell, -, hyes, hone⟩ := h
  simp [fraudLabelOf, normalizeRow, hcell, Tfm.GPUTokenizer.fraudLabel, hyes, hone]

theorem fraudLabelOf_eq (r : RawRow ρ) :
    fraudLabelOf r = if fraudLabelOf r = 1 then 1 else 0 := by
  unfold fraudLabelOf Tfm.GPUTokenizer.fraudLabel
  split
  · split_ifs <;> simp_all
  · rfl

theorem sum_fraudLabelOf (rows : List (RawRow ρ)) :
    (rows.map fraudLabelOf).sum = rows.countP (fun r => fraudLabelOf r = 1) := by
  induction rows with
  | nil => rfl
  | cons r rows ih =>
    rw [List.map_cons, List.sum_cons, ih, List.countP_cons]
    by_cases hlabel : fraudLabelOf r = 1
    · simp [hlabel, add_comm]
    · have hzero : fraudLabelOf r = 0 := by rw [fraudLabelOf_eq, if_neg hlabel]
      simp [hzero]

/-- Two counts are equal exactly if the larger predicate selects nothing else. -/
theorem countP_eq_countP_iff {α : Type} {p q : α → Bool} {l : List α}
    (h : ∀ a ∈ l, q a = true → p a = true) :
    l.countP p = l.countP q ↔ ∀ a ∈ l, p a = true → q a = true := by
  induction l with
  | nil => simp
  | cons a l ih =>
    have hle := List.countP_mono_left (fun b hb => h b (List.mem_cons_of_mem a hb))
    have ih := ih (fun b hb => h b (List.mem_cons_of_mem a hb))
    rw [List.forall_mem_cons, ← ih, List.countP_cons, List.countP_cons]
    have ha := h a (.head _)
    by_cases hp : p a = true
    · by_cases hq : q a = true
      · simp [hp, hq]
      · rw [if_pos hp, if_neg hq]
        exact ⟨fun heq => absurd heq (by omega), fun hall => absurd (hall.1 hp) hq⟩
    · have hq : ¬ q a = true := fun hq => hp (ha hq)
      simp [hp, hq]

/-! ### The statistics -/

/-- The fraud statistics count the written rows. -/
def FraudCounted (upper : String → String) (st : WriteState ρ) : Prop :=
  ∀ s, (st.stats s).fraud = (st.rowsOf s).countP (fun r => fraudBool upper r = some true)

theorem FraudCounted.step (hupper : AsciiUpper upper) {st st' : WriteState ρ}
    {task : List (RawRow ρ) × Split} (h : FraudCounted upper st)
    (hw : writeSplit upper dirs trainCut testCut st task = .ok st') : FraudCounted upper st' := by
  obtain ⟨batch, s⟩ := task
  obtain ⟨⟨writers, n⟩, htable, hst⟩ := bind_eq_ok.mp hw
  cases hst
  obtain ⟨-, hcases⟩ := writeTable_eq_ok htable
  let mask := fun (r : RawRow ρ) => inSplit trainCut testCut (dateText r) s
  have hnew : batch.countP (fun r => mask r ∧ fraudBool upper r = some true) =
      ((batch.filter mask).map normalizeRow).countP (fun r => fraudBool upper r = some true) := by
    rw [List.countP_map, List.countP_filter]
    refine List.countP_congr (fun r _ => ?_)
    simp [fraudBool_normalizeRow hupper, and_comm]
  intro s'
  show (Function.update st.stats s _ s').fraud = ((writers s').getD []).countP _
  by_cases hs : s' = s
  · subst hs
    rw [Function.update_self]
    rw [hnew, h s', WriteState.rowsOf]
    obtain ⟨hnil, rfl⟩ | ⟨-, -, rfl⟩ := hcases
    · rw [show batch.filter mask = [] from hnil]
      rfl
    · rw [Function.update_self, Option.getD_some, List.countP_append]
  · rw [Function.update_of_ne hs]
    obtain ⟨-, rfl⟩ | ⟨-, -, rfl⟩ := hcases
    · exact h s'
    · rw [Function.update_of_ne hs]
      exact h s'

theorem writeSplits_fraudCounted (hupper : AsciiUpper upper) (raw : ParquetFile ρ)
    (batchSize : ℕ) :
    FraudCounted upper (writeSplits upper raw dirs trainCut testCut batchSize).1 := by
  have hstep : ∀ (_ : List (List (RawRow ρ) × Split)) st task st', FraudCounted upper st →
      writeSplit upper dirs trainCut testCut st task = .ok st' → FraudCounted upper st' :=
    fun _ _ _ _ h hw => h.step hupper hw
  obtain ⟨-, h⟩ | ⟨_, _, _, _, _, -, h, -⟩ := runAll_spec
    (l := (raw.iterBatches batchSize none).flatMap (fun batch => splits.map (fun s => (batch, s))))
    (P := fun _ st => FraudCounted upper st) hstep (fun _ => rfl : FraudCounted upper .init)
  · exact h
  · exact h

/-- The fraud count of a split is the sum of the labels of its written rows exactly if no row of the
split spells its answer otherwise. -/
theorem writeSplits_fraud_eq_iff (hupper : AsciiUpper upper) (raw : ParquetFile ρ) {batchSize : ℕ}
    (hb : 1 ≤ batchSize) {st : WriteState ρ}
    (h : writeSplits upper raw dirs trainCut testCut batchSize = (st, none)) (s : Split) :
    ((st.stats s).fraud : ℤ) = ((st.rowsOf s).map fraudLabelOf).sum ↔
      ∀ r ∈ raw.rows, inSplit trainCut testCut (dateText r) s = true → ¬ OtherSpelling upper r := by
  have hcount : FraudCounted upper (writeSplits upper raw dirs trainCut testCut batchSize).1 :=
    writeSplits_fraudCounted hupper raw batchSize
  obtain ⟨-, hrows, -⟩ | ⟨herr, -⟩ := writeSplits_spec upper raw dirs trainCut testCut hb
  · have hrows := hrows s
    rw [h] at hrows hcount
    simp only at hrows hcount
    rw [hcount s, sum_fraudLabelOf, Nat.cast_inj, hrows, List.countP_map, List.countP_map,
      countP_eq_countP_iff]
    · simp only [List.mem_filter, Function.comp_apply, decide_eq_true_eq, and_imp,
        fraudBool_normalizeRow_iff hupper]
      refine forall₂_congr (fun r _ => imp_congr_right (fun _ => ?_))
      refine ⟨fun hall hother => ?_, fun hnot hfraud => hfraud.resolve_right hnot⟩
      exact hother.not_label (hall (.inr hother))
    · simp only [Function.comp_apply, decide_eq_true_eq, fraudBool_normalizeRow_iff hupper]
      exact fun _ _ => .inl
  · rw [h] at herr
    cases herr

/-- A row of the day 2019-09-30 with the given answer. -/
def answerRow (answer : String) : RawRow Unit :=
  ⟨2019, 9, 30, .text (some "10:15"), .text (some answer), ()⟩

theorem asciiUpper_map : AsciiUpper (fun s => String.ofList (s.toList.map Char.toUpper)) :=
  fun _ _ => rfl

/-- The count of one row with the answer `yes` is 1; the row is written, and its label is 0. -/
theorem writeSplits_fraud_ne :
    ∃ st, writeSplits (fun s => String.ofList (s.toList.map Char.toUpper))
        (.ofRows [answerRow "yes"]) (fun _ => Dict.empty) "2020-01-01" "2021-01-01" 1 = (st, none) ∧
      st.rowsOf .train = [answerRow "yes"] ∧ (st.stats .train).fraud = 1 ∧
      ((st.rowsOf .train).map fraudLabelOf).sum = 0 :=
  ⟨_, rfl, rfl, rfl, rfl⟩

/-- With the answer `Yes`, both are 1. -/
theorem writeSplits_fraud_eq_iff_example :
    ∃ st, writeSplits (fun s => String.ofList (s.toList.map Char.toUpper))
        (.ofRows [answerRow "Yes"]) (fun _ => Dict.empty) "2020-01-01" "2021-01-01" 1 = (st, none) ∧
      ((st.stats .train).fraud : ℤ) = ((st.rowsOf .train).map fraudLabelOf).sum := by
  refine Exists.imp (fun st hrun => ⟨hrun, ?_⟩) ⟨_, rfl⟩
  refine (writeSplits_fraud_eq_iff asciiUpper_map _ (by decide) hrun .train).mpr ?_
  rintro r hr - ⟨s, hcell, -, hyes, -⟩
  rw [show r = answerRow "Yes" from List.mem_singleton.mp hr] at hcell
  cases hcell
  exact hyes rfl

end RayTfm.Scripts
