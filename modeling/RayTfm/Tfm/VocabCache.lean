import RayTfm.Tfm.DistinctTokens
import RayTfm.Tfm.Serialization

/-! # The cached vocabulary of a step

The property `vocab` of a tokenizer inverts the index-to-token table on first access and keeps the
result; neither `build_vocab` nor `_set_vocab_state` drops it.  So the property is the inverse of
the table as long as no call changes the table after a vocabulary was handed out, and the tables
have an inverse at all (`vocabExact_and_build_twice`).  A mapping step that learns from a column
becomes a direct one, and the second build on the same column sorts the default in among the
labels; the assignment stays the same exactly if the default is a label of the column or comes
last anyway.

The binning step `NumericalTokenizerOptBin`, which the default pipeline does not use, is modelled
here as well; what its third-party discretizer does when it is fitted is a parameter. -/

namespace RayTfm.Tfm

/-! ### `NumericalTokenizerOptBin` -/

/-- Tokens `AMT_bin` for bins that a discretizer learns from the data. -/
structure NumericalTokenizerOptBin (B : Type) where
  base : BaseTokenizer
  specialToken : String
  numBins : ℤ
  strategy : String
  stream : Option Stream
  vocabBuilt : Bool
  builder : B

namespace NumericalTokenizerOptBin
variable {B : Type}

def init (specialToken : String) (numBins : ℤ) (strategy : String) (stream : Option Stream)
    (builder : B) : NumericalTokenizerOptBin B :=
  ⟨.init, specialToken, numBins, strategy, stream, false, builder⟩

/-- The entries written by `build_vocab`. -/
def binTable (t : NumericalTokenizerOptBin B) : List (ℤ × String) :=
  (intRange 0 t.numBins).map (fun i => (i, t.specialToken ++ "_" ++ toString i))

/-- The table is written before the discretizer is fitted, which may fail. -/
def buildVocab (fit : B → Column → B × Except PyError Unit) (t : NumericalTokenizerOptBin B)
    (columnData : Option Column) : NumericalTokenizerOptBin B × Except PyError Unit :=
  let t := { t with base := t.base.setTable t.binTable }
  match columnData with
  | none => ({ t with vocabBuilt := true }, .ok ())
  | some column =>
    match fit t.builder column with
    | (b, .ok ()) => ({ t with builder := b, vocabBuilt := true }, .ok ())
    | (b, .error e) => ({ t with builder := b }, .error e)

theorem base_buildVocab (fit : B → Column → B × Except PyError Unit)
    (t : NumericalTokenizerOptBin B) (c : Option Column) :
    (t.buildVocab fit c).1.base = t.base.setTable t.binTable := by
  unfold buildVocab
  cases c with
  | none => rfl
  | some column => simp only; split <;> rfl

theorem binTable_buildVocab (fit : B → Column → B × Except PyError Unit)
    (t : NumericalTokenizerOptBin B) (c : Option Column) :
    (t.buildVocab fit c).1.binTable = t.binTable := by
  unfold buildVocab
  cases c with
  | none => rfl
  | some column => simp only; split <;> rfl

end NumericalTokenizerOptBin

/-! ### Calls -/

/-- A tokenizer of any class. -/
inductive AnyTokenizer (B : Type) where
  | step (t : Tokenizer)
  | numerical (t : NumericalTokenizerOptBin B)

/-- The calls that read or write the vocabulary. -/
inductive VocabCall where
  | buildVocab (columnData : Option Column)
  | vocab
  | setVocabState (d : Option IdxToToken)

/-- Replace the state shared by all steps. -/
def Tokenizer.setBase (b : BaseTokenizer) : Tokenizer → Tokenizer
  | fixedVocab t => fixedVocab { t with base := b }
  | mapping t => mapping { t with base := b }
  | categoricalHash t => categoricalHash { t with base := b }
  | timeDelta t => timeDelta { t with base := b }

@[simp] theorem Tokenizer.base_setBase (b : BaseTokenizer) (t : Tokenizer) :
    (t.setBase b).base = b := by cases t <;> rfl

namespace AnyTokenizer
variable {B : Type}

def base : AnyTokenizer B → BaseTokenizer
  | step t => t.base
  | numerical t => t.base

def setBase (b : BaseTokenizer) : AnyTokenizer B → AnyTokenizer B
  | step t => step (t.setBase b)
  | numerical t => numerical { t with base := b }

def buildVocab (fit : B → Column → B × Except PyError Unit) (c : Option Column) :
    AnyTokenizer B → AnyTokenizer B
  | step t => step (t.buildVocab c)
  | numerical t => numerical (t.buildVocab fit c).1

/-- The tokenizer after a call; one that raises may have written the table. -/
def after (fit : B → Column → B × Except PyError Unit) (t : AnyTokenizer B) :
    VocabCall → AnyTokenizer B
  | .buildVocab c => t.buildVocab fit c
  | .vocab =>
    match t.base.vocab with
    | .ok (_, b) => t.setBase b
    | .error _ => t
  | .setVocabState d => t.setBase { t.base with idxToToken := d }

/-- The tokenizer after a sequence of calls. -/
def afterCalls (fit : B → Column → B × Except PyError Unit) (t : AnyTokenizer B)
    (calls : List VocabCall) : AnyTokenizer B :=
  calls.foldl (fun t call => t.after fit call) t

@[simp] theorem base_setBase (b : BaseTokenizer) (t : AnyTokenizer B) : (t.setBase b).base = b := by
  cases t with
  | step t => exact t.base_setBase b
  | numerical t => rfl

end AnyTokenizer

/-! ### What a call writes -/

instance (t : MappingTokenizer) : Decidable t.WillLearn :=
  inferInstanceAs (Decidable (_ ∧ _))

/-- The table that a mapping step writes for a column. -/
def MappingTokenizer.tableFor (t : MappingTokenizer) (c : Option Column) : List (ℤ × String) :=
  match c with
  | some column =>
    if t.WillLearn then t.labelTable (t.dataLabels column) else t.configTable
  | none => t.configTable

/-- The table that `build_vocab` writes, from the configuration and the column. -/
def AnyTokenizer.tableFor {B : Type} (c : Option Column) : AnyTokenizer B → List (ℤ × String)
  | step (.fixedVocab t) => (intRange t.minVal (t.maxVal + 1)).map t.entry
  | step (.mapping t) => t.tableFor c
  | step (.categoricalHash t) =>
    (intRange 0 t.vocabLimit).map (fun i => (i, t.specialToken ++ "_" ++ toString i))
  | step (.timeDelta t) =>
    (List.range t.numBins).map (fun (i : ℕ) => ((i : ℤ), t.specialToken ++ "_" ++ toString i))
  | numerical t => t.binTable

theorem MappingTokenizer.base_buildVocab (t : MappingTokenizer) (c : Option Column) :
    (t.buildVocab c).base = t.base.setTable (t.tableFor c) := by
  by_cases h : t.WillLearn
  · cases c with
    | none => rw [buildVocab_of_not_learn (fun _ => rfl), tableFor]
    | some column => rw [buildVocab_of_learn h, tableFor, if_pos h]
  · rw [buildVocab_of_not_learn (fun hw => absurd hw h)]
    cases c with
    | none => rfl
    | some column => rw [tableFor, if_neg h]

variable {B : Type}

/-- `build_vocab` writes the table and leaves the cached vocabulary. -/
theorem AnyTokenizer.base_buildVocab (fit : B → Column → B × Except PyError Unit)
    (t : AnyTokenizer B) (c : Option Column) :
    (t.buildVocab fit c).base = t.base.setTable (t.tableFor c) := by
  cases t with
  | numerical t => exact t.base_buildVocab fit c
  | step t =>
    cases t with
    | fixedVocab t => rfl
    | timeDelta t => rfl
    | categoricalHash t => exact t.base_buildVocab c
    | mapping t => exact t.base_buildVocab c

/-! ### Inverses -/

/-- The vocabulary is the inverse of the table, sub-table by sub-table if there are any; without
a table it is empty. -/
def IsInverse : Option IdxToToken → LocalVocab → Prop
  | none, .flat v => v = Dict.empty
  | some (.flat d), .flat v => ∀ s i, v.get? s = some i ↔ d.get? i = some s
  | some (.nested d), .nested v => v.keys = d.keys ∧
      ∀ k e w, d.get? k = some e → v.get? k = some w → ∀ s i, w.get? s = some i ↔ e.get? i = some s
  | _, _ => False

/-- The property `vocab` returns the inverse of the table. -/
def VocabExact (b : BaseTokenizer) : Prop :=
  ∃ v b', b.vocab = .ok (v, b') ∧ IsInverse b.idxToToken v

/-- A table that is not empty and in which no token is repeated. -/
def Invertible : Option IdxToToken → Prop
  | none => True
  | some (.flat d) => d.entries ≠ [] ∧ d.values.Nodup
  | some (.nested d) => d.entries ≠ [] ∧ ∀ e ∈ d.values, e.values.Nodup

theorem exists_vocabOf {d : IdxToToken} (h : Invertible (some d)) :
    ∃ v, BaseTokenizer.vocabOf d = .ok v ∧ IsInverse (some d) v := by
  cases d with
  | flat d => exact ⟨.flat (invert d), if_neg h.1, get?_invert h.2⟩
  | nested d =>
    have hv : BaseTokenizer.vocabOf (.nested d) =
        .ok (.nested (Dict.ofList (d.entries.map (fun p => (p.1, invert p.2))))) := if_neg h.1
    refine ⟨_, hv, ?_, ?_⟩
    · have hkeys : (d.entries.map (fun p => (p.1, invert p.2))).map Prod.fst = d.keys := by
        rw [List.map_map]
        rfl
      rw [Dict.keys, Dict.entries_ofList (by rw [hkeys]; exact d.keys_nodup), hkeys]
    · intro k e w he hw s i
      have hmem := Dict.mem_of_mem_entries_ofList (Dict.get?_eq_some_iff.mp hw)
      obtain ⟨p, hp, heq⟩ := List.mem_map.mp hmem
      obtain ⟨rfl, rfl⟩ := Prod.mk.inj heq
      obtain rfl : p.2 = e := Option.some.inj ((Dict.get?_eq_some_iff.mpr hp).symm.trans he)
      exact get?_invert (h.2 _ (List.mem_map_of_mem hp)) s i

/-- What keeps the property exact: an invertible table, and a cached vocabulary computed from it. -/
structure CacheInv (b : BaseTokenizer) : Prop where
  invertible : Invertible b.idxToToken
  cached : ∀ v, b.cachedVocab = some v →
    ∃ d, b.idxToToken = some d ∧ BaseTokenizer.vocabOf d = .ok v

variable {b : BaseTokenizer}

theorem CacheInv.vocabExact (h : CacheInv b) : VocabExact b := by
  obtain ⟨cached, table⟩ := b
  cases cached with
  | some v =>
    obtain ⟨d, rfl, hv⟩ := h.cached v rfl
    obtain ⟨w, hw, hinv⟩ := exists_vocabOf h.invertible
    obtain rfl := Except.ok.inj (hv.symm.trans hw)
    exact ⟨v, _, rfl, hinv⟩
  | none =>
    cases table with
    | none => exact ⟨.flat Dict.empty, _, rfl, rfl⟩
    | some d =>
      obtain ⟨v, hv, hinv⟩ := exists_vocabOf h.invertible
      refine ⟨v, ⟨some v, some d⟩, ?_, hinv⟩
      show (BaseTokenizer.vocabOf d >>= fun v => Except.ok (v, _)) = _
      rw [hv]
      rfl

theorem CacheInv.vocab {b' : BaseTokenizer} {v : LocalVocab} (h : CacheInv b)
    (hv : b.vocab = .ok (v, b')) : CacheInv b' := by
  obtain ⟨cached, table⟩ := b
  cases cached with
  | some w =>
    cases hv
    exact h
  | none =>
    cases table with
    | none =>
      cases hv
      exact h
    | some d =>
      obtain ⟨w, hw, hb⟩ := bind_eq_ok.mp hv
      obtain ⟨rfl, rfl⟩ := Prod.mk.inj (Except.ok.inj hb)
      exact ⟨h.invertible, fun v hv => ⟨d, rfl, Option.some.inj hv ▸ hw⟩⟩

/-- Writing an invertible table keeps the invariant if nothing is cached or the table is the one
that is there. -/
theorem CacheInv.write (h : CacheInv b) {d : Option IdxToToken}
    (hd : Invertible d) (hc : b.cachedVocab = none ∨ d = b.idxToToken) :
    CacheInv { b with idxToToken := d } := by
  refine ⟨hd, fun v hv => ?_⟩
  obtain hnone | rfl := hc
  · exact absurd (hnone.symm.trans hv) (by simp)
  · exact h.cached v hv

/-! ### Runs -/

/-- The configuration writes tables that are not empty and repeat no token. -/
def AnyTokenizer.BuildsInvertible {B : Type} : AnyTokenizer B → Prop
  | step (.fixedVocab t) => t.minVal ≤ t.maxVal
  | step (.mapping t) => t.mode = .range → t.default ∉ (t.rangeLookup.getD []).map (fun r => r.2.2)
  | step (.categoricalHash t) => 0 < t.vocabLimit
  | step (.timeDelta t) => 0 < t.numBins
  | numerical t => 0 < t.numBins

theorem invertible_ofList {l : List (ℤ × String)} (hl : l ≠ []) (hk : (l.map Prod.fst).Nodup)
    (hv : (l.map Prod.snd).Nodup) : Invertible (some (.flat (Dict.ofList l))) :=
  ⟨by rwa [Ne, Dict.ofList_entries_eq_nil_iff], nodup_values_ofList hk hv⟩

theorem invertible_graph {l : List ℤ} {f : ℤ → String} (hne : l ≠ []) (hl : l.Nodup)
    (hf : Function.Injective f) :
    Invertible (some (.flat (Dict.ofList (l.map (fun i => (i, f i)))))) :=
  ⟨by rwa [Ne, Dict.ofList_entries_eq_nil_iff, List.map_eq_nil_iff], nodup_values_map hl hf⟩

theorem intRange_ne_nil {a b : ℤ} (h : a < b) : intRange a b ≠ [] :=
  List.ne_nil_of_mem (mem_intRange.mpr ⟨le_refl a, h⟩)

variable {t : MappingTokenizer}

theorem invertible_labelTable {labels : List String} (hne : labels ≠ [])
    (hl : labels.Nodup) : Invertible (some (.flat (Dict.ofList (t.labelTable labels)))) := by
  refine ⟨?_, MappingTokenizer.nodup_values_labelTable.mpr hl⟩
  rw [Ne, Dict.ofList_entries_eq_nil_iff]
  simpa [MappingTokenizer.labelTable] using hne

theorem invertible_mapping
    (h : t.mode = .range → t.default ∉ (t.rangeLookup.getD []).map (fun r => r.2.2))
    (c : Option Column) : Invertible (some (.flat (Dict.ofList (t.tableFor c)))) := by
  have hne : ∀ l : List String, Dict.fromkeys (l ++ [t.default]) ≠ [] :=
    fun l => List.ne_nil_of_mem
      (Dict.mem_fromkeys.mpr (List.mem_append_right l (List.mem_singleton_self _)))
  have hconfig : Invertible (some (.flat (Dict.ofList t.configTable))) := by
    unfold MappingTokenizer.configTable
    split_ifs with hm
    · exact invertible_labelTable (by simp [MappingTokenizer.rangeLabels])
        (MappingTokenizer.nodup_rangeLabels.mpr (h hm))
    · exact invertible_labelTable (hne _) t.nodup_directLabels
    · exact invertible_ofList (List.cons_ne_nil _ _) (List.nodup_singleton _) (List.nodup_singleton _)
  cases c with
  | none => exact hconfig
  | some column =>
    rw [MappingTokenizer.tableFor]
    split_ifs
    · exact invertible_labelTable (hne _) (t.nodup_dataLabels column)
    · exact hconfig

theorem AnyTokenizer.BuildsInvertible.tableFor {t : AnyTokenizer B}
    (h : t.BuildsInvertible) (c : Option Column) :
    Invertible (some (.flat (Dict.ofList (t.tableFor c)))) := by
  cases t with
  | numerical t =>
    exact invertible_graph (intRange_ne_nil h) (intRange_nodup _ _)
      ((prefixed_injective _).comp toString_int_injective)
  | step t =>
    cases t with
    | mapping t => exact invertible_mapping h c
    | fixedVocab t =>
      have hlt : t.minVal < t.maxVal + 1 := Int.lt_add_one_of_le h
      exact invertible_graph (intRange_ne_nil hlt) (intRange_nodup _ _)
        ((prefixed_injective _).comp (formatInt_injective _))
    | categoricalHash t =>
      exact invertible_graph (intRange_ne_nil h) (intRange_nodup _ _)
        ((prefixed_injective _).comp toString_int_injective)
    | timeDelta t =>
      have hbins : t.numBins ≠ 0 := (show 0 < t.numBins from h).ne'
      rw [AnyTokenizer.tableFor]
      refine invertible_ofList (by simpa using hbins) ?_ ?_
      · rw [List.map_map]
        exact List.nodup_range.map Nat.cast_injective
      · rw [List.map_map]
        exact List.nodup_range.map ((prefixed_injective _).comp toString_nat_injective)

/-- The call writes an invertible table, and if a vocabulary was handed out before, then the table
that is there already. -/
def VocabCall.Sound {B : Type} (t : AnyTokenizer B) : VocabCall → Prop
  | .vocab => True
  | .buildVocab c => t.BuildsInvertible ∧ (t.base.cachedVocab = none ∨
      some (.flat (Dict.ofList (t.tableFor c))) = t.base.idxToToken)
  | .setVocabState d => Invertible d ∧ (t.base.cachedVocab = none ∨ d = t.base.idxToToken)

variable {fit : B → Column → B × Except PyError Unit}

theorem cacheInv_after {t : AnyTokenizer B}
    (h : CacheInv t.base) {call : VocabCall} (hc : call.Sound t) :
    CacheInv (t.after fit call).base := by
  cases call with
  | buildVocab c =>
    rw [AnyTokenizer.after, AnyTokenizer.base_buildVocab]
    exact h.write (hc.1.tableFor c) hc.2
  | vocab =>
    simp only [AnyTokenizer.after]
    split
    · rename_i v b hv
      rw [AnyTokenizer.base_setBase]
      exact h.vocab hv
    · exact h
  | setVocabState d =>
    rw [AnyTokenizer.after, AnyTokenizer.base_setBase]
    exact h.write hc.1 hc.2

/-- Every call of the sequence is sound where it is made. -/
def SoundCalls {B : Type} (fit : B → Column → B × Except PyError Unit) :
    AnyTokenizer B → List VocabCall → Prop
  | _, [] => True
  | t, call :: calls => call.Sound t ∧ SoundCalls fit (t.after fit call) calls

theorem cacheInv_afterCalls {t : AnyTokenizer B} (h : CacheInv t.base) {calls : List VocabCall}
    (hc : SoundCalls fit t calls) : CacheInv (t.afterCalls fit calls).base := by
  induction calls generalizing t with
  | nil => exact h
  | cons call calls ih => exact ih (cacheInv_after h hc.1) hc.2

/-! ### Repetitions in order -/

theorem fromkeys_concat (l : List String) (x : String) :
    Dict.fromkeys (l ++ [x]) = if x ∈ l then Dict.fromkeys l else Dict.fromkeys l ++ [x] := by
  have hset : Dict.ofList ((l ++ [x]).map (fun k => (k, ()))) =
      (Dict.ofList (l.map (fun k => (k, ())))).set x () := by
    rw [List.map_append, Dict.ofList, Dict.setAll_append]
    rfl
  rw [Dict.fromkeys, hset, Dict.keys_set]
  exact if_congr Dict.mem_fromkeys rfl rfl

variable {l : List String}

theorem fromkeys_of_nodup (hl : l.Nodup) : Dict.fromkeys l = l :=
  Dict.keys_ofList_map hl (fun _ => ())

theorem fromkeys_sublist (l : List String) : (Dict.fromkeys l).Sublist l := by
  induction l using List.reverseRecOn with
  | nil => exact List.Sublist.refl _
  | append_singleton l x ih =>
    rw [fromkeys_concat]
    split_ifs
    · exact ih.trans (List.sublist_append_left l [x])
    · exact ih.append_right [x]

theorem pairwise_sortedStr (l : List String) : (sortedStr l).Pairwise (· ≤ ·) :=
  List.pairwise_insertionSort _ l

theorem sortedStr_eq_self (hl : l.Pairwise (· ≤ ·)) : sortedStr l = l :=
  List.Pairwise.insertionSort_eq hl

/-! ### Building twice -/

namespace MappingTokenizer

/-- The texts of the values of a column. -/
def texts (column : Column) : List String := (column.filterMap id).map Value.text

/-- The texts of the distinct values, in order. -/
def sortedTexts (column : Column) : List String :=
  ((column.filterMap id).dedup.insertionSort (fun a b => a.text ≤ b.text)).map Value.text

theorem mem_sortedTexts {column : Column} {s : String} :
    s ∈ sortedTexts column ↔ s ∈ texts column := by
  simp only [sortedTexts, texts, List.mem_map, List.mem_insertionSort, List.mem_dedup]

theorem pairwise_sortedTexts (column : Column) : (sortedTexts column).Pairwise (· ≤ ·) := by
  exact List.pairwise_map.mpr (List.pairwise_insertionSort (fun a b : Value => a.text ≤ b.text) _)

theorem dataLabels_eq (t : MappingTokenizer) (column : Column) :
    t.dataLabels column = Dict.fromkeys (sortedTexts column ++ [t.default]) := rfl

/-- The labels learned from a column are in order exactly if the default is a label of the column
or no label comes after it. -/
theorem pairwise_dataLabels_iff (t : MappingTokenizer) (column : Column) :
    (t.dataLabels column).Pairwise (· ≤ ·) ↔
      t.default ∈ texts column ∨ ∀ s ∈ texts column, s ≤ t.default := by
  have hsort := (pairwise_sortedTexts column).sublist (fromkeys_sublist _)
  rw [dataLabels_eq, fromkeys_concat]
  simp only [mem_sortedTexts]
  split_ifs with h
  · exact ⟨fun _ => .inl h, fun _ => hsort⟩
  · rw [List.pairwise_append]
    simp only [hsort, List.pairwise_singleton, true_and, Dict.mem_fromkeys, mem_sortedTexts,
      List.mem_singleton, forall_eq]
    exact ⟨.inr, fun hle => hle.resolve_left h⟩

/-- The labels of the direct map that was learned: the learned ones, sorted. -/
theorem directLabels_of_learned {t : MappingTokenizer} {labels : List String}
    (hn : labels.Nodup) (hd : t.default ∈ labels)
    (ht : t.directMap = some (Dict.ofList (labels.map (fun l => (Value.str l, l))))) :
    t.directLabels = sortedStr labels := by
  have hvalues : (t.directMap.getD Dict.empty).values = labels := by
    have hkeys : ((labels.map (fun l => (Value.str l, l))).map Prod.fst).Nodup := by
      rw [List.map_map]
      exact hn.map (fun _ _ h => Value.str.inj h)
    rw [ht, Option.getD_some, Dict.values, Dict.entries_ofList hkeys, List.map_map]
    exact List.map_id labels
  have hperm : (sortedStr labels).Perm labels := List.perm_insertionSort _ labels
  rw [directLabels, hvalues, hn.dedup, fromkeys_concat, if_pos (hperm.mem_iff.mpr hd),
    fromkeys_of_nodup (hperm.nodup_iff.mpr hn)]

theorem get?_labelTable (t : MappingTokenizer) (labels : List String) (i : ℕ) :
    (Dict.ofList (t.labelTable labels)).get? i =
      labels[i]?.map (fun l => t.prefixStr ++ "_" ++ l) := by
  cases hi : labels[i]? with
  | none =>
    rw [Option.map_none, Dict.get?_eq_none_iff, Dict.mem_keys_ofList, map_fst_labelTable]
    rw [List.getElem?_eq_none_iff] at hi
    intro hmem
    obtain ⟨k, hk, hke⟩ := List.mem_map.mp hmem
    rw [List.mem_range] at hk
    omega
  | some l =>
    rw [Option.map_some]
    refine Dict.get?_setAll_of_mem _ (t.nodup_fst_labelTable labels) ?_
    exact List.mem_map.mpr ⟨(l, i), List.mem_zipIdx_iff_getElem?.mpr hi, rfl⟩

end MappingTokenizer

/-- The index of a token in a plain table. -/
def Assigns (d : Option IdxToToken) (s : String) (i : ℤ) : Prop :=
  ∃ e, d = some (.flat e) ∧ e.get? i = some s

theorem labels_eq_of_assigns {l' : List String}
    (h : ∀ s i, Assigns (some (.flat (Dict.ofList (t.labelTable l)))) s i ↔
      Assigns (some (.flat (Dict.ofList (t.labelTable l')))) s i) : l = l' := by
  have hassign : ∀ (l : List String) (x : String) (i : ℕ),
      Assigns (some (.flat (Dict.ofList (t.labelTable l)))) (t.prefixStr ++ "_" ++ x) i ↔
        l[i]? = some x := by
    intro l x i
    constructor
    · rintro ⟨e, he, hget⟩
      cases he
      rw [t.get?_labelTable] at hget
      obtain ⟨y, hy, hyx⟩ := Option.map_eq_some_iff.mp hget
      rw [hy, prefixed_injective t.prefixStr hyx]
    · intro hx
      exact ⟨_, rfl, by rw [t.get?_labelTable, hx, Option.map_some]⟩
  refine List.ext_getElem? (fun i => Option.ext (fun x => ?_))
  rw [← hassign l x i, ← hassign l' x i]
  exact h _ i

/-- The step would learn its labels from the column. -/
def AnyTokenizer.Learns {B : Type} : AnyTokenizer B → Prop
  | step t => t.WillLearn
  | numerical _ => False

/-- The default label of a mapping step. -/
def AnyTokenizer.defaultLabel {B : Type} : AnyTokenizer B → String
  | step (.mapping t) => t.default
  | _ => ""

theorem AnyTokenizer.idxToToken_buildVocab (fit : B → Column → B × Except PyError Unit)
    (t : AnyTokenizer B) (c : Option Column) :
    (t.buildVocab fit c).base.idxToToken = some (.flat (Dict.ofList (t.tableFor c))) := by
  rw [base_buildVocab]
  rfl

theorem tableFor_buildVocab {t : AnyTokenizer B} {c : Option Column} (h : t.Learns → c = none) :
    (t.buildVocab fit c).tableFor c = t.tableFor c := by
  cases t with
  | numerical t => exact t.binTable_buildVocab fit c
  | step t =>
    cases t with
    | fixedVocab t => rfl
    | timeDelta t => rfl
    | categoricalHash t => rfl
    | mapping t =>
      show (t.buildVocab c).tableFor c = t.tableFor c
      rw [MappingTokenizer.buildVocab_of_not_learn h]
      cases c with
      | none => rfl
      | some column =>
        have hw : ¬ t.WillLearn := fun hw => absurd (h hw) (by simp)
        rw [MappingTokenizer.tableFor, MappingTokenizer.tableFor, if_neg hw]
        exact if_neg hw

theorem tableFor_learned (h : t.WillLearn) (column : Column) :
    (t.buildVocab (some column)).tableFor (some column) =
      t.labelTable (sortedStr (t.dataLabels column)) := by
  have hd : t.default ∈ t.dataLabels column := by
    rw [MappingTokenizer.dataLabels_eq, Dict.mem_fromkeys]
    exact List.mem_append_right _ (List.mem_singleton_self _)
  have hmap := MappingTokenizer.directLabels_of_learned (t := t.buildVocab (some column))
    (t.nodup_dataLabels column) (by rw [MappingTokenizer.buildVocab_of_learn h]; exact hd)
    (by rw [MappingTokenizer.buildVocab_of_learn h])
  have hdirect : (t.buildVocab (some column)).hasDirectMap = true := by
    rw [MappingTokenizer.buildVocab_of_learn h]
    simp only [MappingTokenizer.hasDirectMap, ne_eq, Dict.ofList_entries_eq_nil_iff,
      List.map_eq_nil_iff, decide_eq_true_iff]
    exact List.ne_nil_of_mem hd
  have hmode : (t.buildVocab (some column)).mode = .passthrough := by
    rw [MappingTokenizer.buildVocab_of_learn h]
    exact h.1
  have hw : ¬ (t.buildVocab (some column)).WillLearn := by
    rw [MappingTokenizer.WillLearn, hdirect]
    simp
  rw [MappingTokenizer.tableFor, if_neg hw, MappingTokenizer.configTable, hmode, if_neg (by decide),
    if_pos hdirect, hmap, MappingTokenizer.buildVocab_of_learn h]
  rfl

/-- Building twice on a column gives the same assignment exactly if the step does not learn from
it, or the default is one of its texts or comes after all of them. -/
theorem build_twice_iff (fit : B → Column → B × Except PyError Unit)
    (t : AnyTokenizer B) (c : Option Column) :
    (∀ s i, Assigns ((t.buildVocab fit c).buildVocab fit c).base.idxToToken s i ↔
        Assigns (t.buildVocab fit c).base.idxToToken s i) ↔
      (t.Learns → ∀ column, c = some column →
        t.defaultLabel ∈ MappingTokenizer.texts column ∨
          ∀ s ∈ MappingTokenizer.texts column, s ≤ t.defaultLabel) := by
  simp only [AnyTokenizer.idxToToken_buildVocab]
  by_cases hl : t.Learns → c = none
  · rw [tableFor_buildVocab hl]
    refine ⟨fun _ hw column hc => ?_, fun _ _ _ => Iff.rfl⟩
    rw [hl hw] at hc
    cases hc
  · rw [Classical.not_imp] at hl
    obtain ⟨hw, hc⟩ := hl
    obtain ⟨column, rfl⟩ := Option.ne_none_iff_exists'.mp hc
    cases t with
    | numerical t => exact hw.elim
    | step t =>
      cases t with
      | fixedVocab t => exact hw.elim
      | timeDelta t => exact hw.elim
      | categoricalHash t => exact hw.elim
      | mapping t =>
        have hfirst : t.tableFor (some column) = t.labelTable (t.dataLabels column) := by
          rw [MappingTokenizer.tableFor]
          exact if_pos hw
        have hsecond : ((AnyTokenizer.step (B := B) (.mapping t)).buildVocab fit
            (some column)).tableFor (some column) =
            t.labelTable (sortedStr (t.dataLabels column)) := tableFor_learned hw column
        rw [hsecond, AnyTokenizer.tableFor, hfirst]
        have hiff := t.pairwise_dataLabels_iff column
        constructor
        · rintro h - c hc
          cases hc
          have heq := labels_eq_of_assigns h
          exact hiff.mp (heq ▸ pairwise_sortedStr _)
        · intro h
          rw [sortedStr_eq_self (hiff.mpr (h hw column rfl))]
          exact fun _ _ => Iff.rfl

/-! ### The property and the double build -/

/-- For a new tokenizer of any class, after every sequence of calls that are sound where they are
made, `vocab` is the inverse of the table.  For a tokenizer in any state, building twice is building
once exactly if nothing is learned, or the default is a text of the column or comes last. -/
theorem vocabExact_and_build_twice {B : Type} (fit : B → Column → B × Except PyError Unit) :
    (∀ (t : AnyTokenizer B) (calls : List VocabCall), t.base = .init → SoundCalls fit t calls →
      VocabExact (t.afterCalls fit calls).base) ∧
    (∀ (t : AnyTokenizer B) (c : Option Column),
      (∀ s i, Assigns ((t.buildVocab fit c).buildVocab fit c).base.idxToToken s i ↔
          Assigns (t.buildVocab fit c).base.idxToToken s i) ↔
        (t.Learns → ∀ column, c = some column →
          t.defaultLabel ∈ MappingTokenizer.texts column ∨
            ∀ s ∈ MappingTokenizer.texts column, s ≤ t.defaultLabel)) := by
  refine ⟨fun t calls ht hc => ?_, build_twice_iff fit⟩
  have hinit : CacheInv t.base := by
    rw [ht]
    exact ⟨trivial, nofun⟩
  exact (cacheInv_afterCalls hinit hc).vocabExact

/-- A fixed vocabulary that is built again after its vocabulary was read; and a step that learns
two texts before its default. -/
theorem vocabExact_and_build_twice_example :
    VocabExact ((AnyTokenizer.step (B := Unit) (fixedStep "DOW" 0 6 0)).afterCalls
        (fun b _ => (b, .ok ())) [.buildVocab none, .vocab, .buildVocab none]).base ∧
      ∀ s i, Assigns ((((AnyTokenizer.step (B := Unit)
          (.mapping (.init "P" none none none "UNK" none))).buildVocab (fun b _ => (b, .ok ()))
          (some [some (.str "B"), none, some (.str "A")])).buildVocab (fun b _ => (b, .ok ()))
          (some [some (.str "B"), none, some (.str "A")])).base.idxToToken) s i ↔
        Assigns ((AnyTokenizer.step (B := Unit)
          (.mapping (.init "P" none none none "UNK" none))).buildVocab (fun b _ => (b, .ok ()))
          (some [some (.str "B"), none, some (.str "A")])).base.idxToToken s i := by
  have h := vocabExact_and_build_twice (B := Unit) (fun b _ => (b, .ok ()))
  have hrange : (0 : ℤ) ≤ 6 := by decide
  refine ⟨h.1 _ _ rfl ⟨⟨hrange, .inl rfl⟩, trivial, ⟨hrange, .inr rfl⟩, trivial⟩, ?_⟩
  refine (h.2 _ _).mpr (fun _ column hc => .inr ?_)
  cases hc
  decide

/-- The column of one text, built, read and built again: the vocabulary that was read gives the
text the index 0, the table now gives it 1. -/
theorem vocab_stale_after_build :
    ¬ VocabExact ((AnyTokenizer.step (B := Unit)
        (.mapping (.init "P" none none none "UNK" none))).afterCalls (fun b _ => (b, .ok ()))
        [.buildVocab (some [some (.str "ZZ")]), .vocab, .buildVocab (some [some (.str "ZZ")])]).base ∧
      ¬ ∀ s i, Assigns ((((AnyTokenizer.step (B := Unit)
          (.mapping (.init "P" none none none "UNK" none))).buildVocab (fun b _ => (b, .ok ()))
          (some [some (.str "ZZ")])).buildVocab (fun b _ => (b, .ok ()))
          (some [some (.str "ZZ")])).base.idxToToken) s i ↔
        Assigns ((AnyTokenizer.step (B := Unit)
          (.mapping (.init "P" none none none "UNK" none))).buildVocab (fun b _ => (b, .ok ()))
          (some [some (.str "ZZ")])).base.idxToToken s i := by
  constructor
  · rintro ⟨v, b, hv, hinv⟩
    obtain rfl : v = .flat (Dict.ofList [("P_ZZ", 0), ("P_UNK", 1)]) := by
      cases hv
      decide +kernel
    have h := (hinv "P_ZZ" 0).mp (by decide)
    revert h
    decide +kernel
  · intro h
    obtain ⟨e, he, hget⟩ := (h "P_ZZ" 0).mpr ⟨_, rfl, by decide +kernel⟩
    cases he
    revert hget
    decide +kernel

end RayTfm.Tfm
