import RayTfm.Lib.Dict
import RayTfm.Data.Batcher

/-! # Zipping two tables

The model of `TableBlockAccessor.zip` (`table_block.py`) and of the `_zip` methods of the two
formats (`arrow_block.py`, `pandas_block.py`).  A row is the list of its cells by column; the rows
of one table have the same columns.  A block without rows does not say what its columns are, and
nothing of them would reach a row. Arrow puts columns side by side by position, Pandas by the labels
of its index (`PandasIndex`), which is the same for blocks with the default index, as those have
that were sliced or concatenated.

`zipRow` is what the column loop means for a single row. -/

namespace RayTfm.Data

/-- A row: its cells, each with the name of its column. -/
abbrev Row (V : Type) := List (String × V)

variable {V : Type}

/-! ### Unique column names -/

/-- A column name with a number. -/
def numberedName (colName : String) (i : ℕ) : String := s!"{colName}_{i}"

/-- The loop that makes a column name unique. -/
def uniqueLoop (columnNames : List String) (colName : String) : ℕ → ℕ → String → String
  | 0, _, newName => newName
  | rounds + 1, i, newName =>
    if newName ∈ columnNames then uniqueLoop columnNames colName rounds (i + 1) (numberedName colName i)
    else newName

/-- More rounds than there are names are always enough, see `uniqueName_not_mem`. -/
def uniqueName (columnNames : List String) (colName : String) : String :=
  uniqueLoop columnNames colName (columnNames.length + 1) 1 colName

theorem numberedName_injective (colName : String) : Function.Injective (numberedName colName) := by
  intro i j h
  have hlist := congrArg String.toList h
  simp only [numberedName, String.toList_append, Nat.toString_eq_ofList_toDigits,
    String.toList_ofList] at hlist
  have hdigits := List.append_cancel_left hlist
  have hback : ∀ k, Nat.ofDigitChars 10 (Nat.toDigits 10 k) 0 = k :=
    fun k => Nat.ofDigitChars_toDigits (by decide) (by decide)
  rw [← hback i, hdigits, hback]

section uniqueName
variable {columnNames : List String} {colName : String}

theorem mem_of_uniqueLoop_mem {rounds i : ℕ} {newName : String}
    (h : uniqueLoop columnNames colName rounds i newName ∈ columnNames) : newName ∈ columnNames := by
  cases rounds with
  | zero => exact h
  | succ rounds =>
    by_contra hmem
    rw [uniqueLoop, if_neg hmem] at h
    exact hmem h

theorem numberedName_mem_of_uniqueLoop_mem {rounds i : ℕ} {newName : String}
    (h : uniqueLoop columnNames colName rounds i newName ∈ columnNames) :
    ∀ k < rounds, numberedName colName (i + k) ∈ columnNames := by
  induction rounds generalizing i newName with
  | zero =>
    intro k hk
    omega
  | succ rounds ih =>
    intro k hk
    have hmem := mem_of_uniqueLoop_mem h
    rw [uniqueLoop, if_pos hmem] at h
    cases k with
    | zero => exact mem_of_uniqueLoop_mem h
    | succ k =>
      have := ih h k (by omega)
      rwa [show i + (k + 1) = i + 1 + k by omega]

theorem uniqueName_not_mem : uniqueName columnNames colName ∉ columnNames := by
  intro h
  have hall := numberedName_mem_of_uniqueLoop_mem h
  have hinj : Function.Injective (fun k => numberedName colName (1 + k)) :=
    (numberedName_injective colName).comp (add_right_injective 1)
  have hnodup : ((List.range (columnNames.length + 1)).map
    (fun k => numberedName colName (1 + k))).Nodup :=
    List.nodup_range.map hinj
  have hsub : (List.range (columnNames.length + 1)).map (fun k => numberedName colName (1 + k)) ⊆
      columnNames := by
    intro name hname
    obtain ⟨k, hk, rfl⟩ := List.mem_map.mp hname
    exact hall k (List.mem_range.mp hk)
  have hlen := (hnodup.subperm hsub).length_le
  rw [List.length_map, List.length_range] at hlen
  omega

end uniqueName

/-! ### The index of Pandas blocks -/

/-- The labels of the index of a block, and what stands for a label that is not there. -/
structure PandasIndex (V : Type) where
  labels : Block (Row V) → List ℕ
  missing : V

namespace PandasIndex

/-- Blocks have the default index. -/
def Default (P : PandasIndex V) : Prop := ∀ b, P.labels b = List.range b.rows.length

/-- The default index, with what stands for a missing label. -/
def ofMissing (missing : V) : PandasIndex V := ⟨fun b => List.range b.rows.length, missing⟩

/-- `r[col_name] = col`, where the column goes to the labels of `r`. -/
def align (P : PandasIndex V) (labels labels' : List ℕ) (col : List V) : List V :=
  if labels = labels' then col
  else labels.map (fun label => ((labels'.zip col).lookup label).getD P.missing)

theorem align_self (P : PandasIndex V) (labels : List ℕ) : P.align labels labels = id := by
  funext col
  exact if_pos rfl

end PandasIndex

/-! ### The column loop -/

namespace Block

/-- The names of the columns. -/
def columnNames (b : Block (Row V)) : List String :=
  match b.rows with
  | [] => []
  | row :: _ => row.map Prod.fst

/-- The column with a name. -/
def column (b : Block (Row V)) (colName : String) : List V := b.rows.filterMap (List.lookup colName)

def appendColumn (b : Block (Row V)) (colName : String) (col : List V) : Block (Row V) :=
  { b with rows := List.zipWith (fun row v => row ++ [(colName, v)]) b.rows col }

/-- The loop body of `_zip`: one column of `s` goes to `r`, under a name that is not in use
there. -/
def zipColumn (align : List V → List V) (s r : Block (Row V)) (colName : String) : Block (Row V) :=
  r.appendColumn (uniqueName r.columnNames colName) (align (s.column colName))

/-- `_zip`, with what becomes of a column on the way. -/
def zipColumns (align : List V → List V) (r s : Block (Row V)) : Block (Row V) :=
  s.columnNames.foldl (s.zipColumn align) r

/-- `normalize_block_types` on two blocks.  Where the formats differ, both occur once and the sort
by frequency is stable, so the format of the first block is chosen. -/
def normalizeBlockTypes (a b : Block (Row V)) : Block (Row V) × Block (Row V) :=
  if a.format = b.format then (a, b) else (a, { b with format := a.format })

/-- `TableBlockAccessor.zip`; an Arrow block that becomes a Pandas one gets the default index. -/
def zip (P : PandasIndex V) (a other : Block (Row V)) : Except PyError (Block (Row V)) :=
  let p := normalizeBlockTypes a other
  if p.2.rows.length ≠ p.1.rows.length then
    .error (.valueError
      s!"Cannot zip self (length {p.1.rows.length}) with block of length {p.2.rows.length}")
  else if a.format = .arrow then .ok (p.1.zipColumns id p.2)
  else
    let labels := P.labels a
    let labels' := if other.format = .pandas then P.labels other else List.range other.rows.length
    if labels ≠ labels' ∧ ¬ labels'.Nodup ∧ p.2.columnNames ≠ [] then
      .error (.valueError "cannot reindex on an axis with duplicate labels")
    else .ok (p.1.zipColumns (P.align labels labels') p.2)

end Block

/-- One more cell for a row, under a name that is not in use there. -/
def addCell (row : Row V) (cell : String × V) : Row V :=
  row ++ [(uniqueName (row.map Prod.fst) cell.1, cell.2)]

/-- Two rows side by side. -/
def zipRow (a b : Row V) : Row V := b.foldl addCell a

/-- The column names of two tables side by side. -/
def zipNames (names names' : List String) : List String :=
  names'.foldl (fun names name => names ++ [uniqueName names name]) names

theorem map_fst_zipRow (a b : Row V) :
    (zipRow a b).map Prod.fst = zipNames (a.map Prod.fst) (b.map Prod.fst) := by
  unfold zipRow zipNames
  induction b generalizing a with
  | nil => rfl
  | cons cell b ih =>
    rw [List.foldl_cons, List.map_cons, List.foldl_cons, ih, addCell, List.map_append]
    rfl

variable {names names' : List String}

theorem nodup_zipNames (h : names.Nodup) : (zipNames names names').Nodup := by
  unfold zipNames
  induction names' generalizing names with
  | nil => exact h
  | cons name names' ih =>
    rw [List.foldl_cons]
    apply ih
    apply List.nodup_append.mpr
    refine ⟨h, List.nodup_singleton _, fun a ha b hb => ?_⟩
    rw [List.mem_singleton] at hb
    rintro rfl
    exact uniqueName_not_mem (hb ▸ ha)

/-- The rows have the given columns. -/
def HasColumns (names : List String) (rows : List (Row V)) : Prop :=
  ∀ row ∈ rows, row.map Prod.fst = names

instance (names : List String) (rows : List (Row V)) : Decidable (HasColumns names rows) :=
  inferInstanceAs (Decidable (∀ row ∈ rows, row.map Prod.fst = names))

theorem HasColumns.zipWith {rows rows' : List (Row V)}
    (h : HasColumns names rows) (h' : HasColumns names' rows') :
    HasColumns (zipNames names names') (List.zipWith zipRow rows rows') := by
  intro row hrow
  rw [← List.map_uncurry_zip_eq_zipWith] at hrow
  obtain ⟨⟨a, b⟩, hab, rfl⟩ := List.mem_map.mp hrow
  rw [Function.uncurry, map_fst_zipRow, h a (List.of_mem_zip hab).1, h' b (List.of_mem_zip hab).2]

/-- One more cell for a row, taken from another row by its name. -/
def addNamed (b row : Row V) (colName : String) : Row V :=
  match b.lookup colName with
  | none => row
  | some v => addCell row (colName, v)

theorem foldl_addNamed {b : Row V} (hb : (b.map Prod.fst).Nodup) (a : Row V) :
    (b.map Prod.fst).foldl (addNamed b) a = zipRow a b := by
  have hloop : ∀ (cells : Row V) (a : Row V), (∀ cell ∈ cells, b.lookup cell.1 = some cell.2) →
      (cells.map Prod.fst).foldl (addNamed b) a = cells.foldl addCell a := by
    intro cells
    induction cells with
    | nil =>
      intro a _
      rfl
    | cons cell cells ih =>
      intro a hcells
      obtain ⟨hcell, hcells⟩ := List.forall_mem_cons.mp hcells
      rw [List.map_cons, List.foldl_cons, List.foldl_cons, ih _ hcells, addNamed, hcell]
  apply hloop
  intro cell hcell
  exact Dict.get?_eq_some_iff (d := ⟨b, hb⟩) |>.mpr hcell

namespace Block

variable {names : List String} {b : Block (Row V)}

theorem columnNames_eq (h : HasColumns names b.rows)
    (hne : b.rows ≠ []) : b.columnNames = names := by
  obtain ⟨row, rows, hrows⟩ := List.exists_cons_of_ne_nil hne
  rw [columnNames, hrows]
  exact h row (by rw [hrows]; exact List.mem_cons_self)

theorem rows_zipColumn {r s : Block (Row V)} {colName : String}
    (hr : HasColumns names r.rows) (hs : ∀ b ∈ s.rows, (b.lookup colName).isSome = true) :
    (s.zipColumn id r colName).rows = List.zipWith (fun a b => addNamed b a colName) r.rows s.rows := by
  obtain hnil | hne := eq_or_ne r.rows []
  · simp [zipColumn, appendColumn, hnil]
  · have hloop : ∀ (rows rows' : List (Row V)), HasColumns names rows →
        (∀ b ∈ rows', (b.lookup colName).isSome = true) →
        List.zipWith (fun row v => row ++ [(uniqueName names colName, v)]) rows
            (rows'.filterMap (List.lookup colName)) =
          List.zipWith (fun a b => addNamed b a colName) rows rows' := by
      intro rows
      induction rows with
      | nil =>
        intro rows' _ _
        rfl
      | cons a rows ih =>
        intro rows' hrows hrows'
        cases rows' with
        | nil => rfl
        | cons b rows' =>
          obtain ⟨ha, hrows⟩ := List.forall_mem_cons.mp hrows
          obtain ⟨hb, hrows'⟩ := List.forall_mem_cons.mp hrows'
          obtain ⟨v, hv⟩ := Option.isSome_iff_exists.mp hb
          rw [List.filterMap_cons_some hv, List.zipWith_cons_cons, List.zipWith_cons_cons,
            ih rows' hrows hrows', addNamed, hv]
          simp only [addCell, ha]
    unfold zipColumn appendColumn column
    rw [columnNames_eq hr hne, id_eq]
    exact hloop r.rows s.rows hr hs

theorem zipWith_zipWith_left {α β γ δ : Type} (f : γ → β → δ) (g : α → β → γ) :
    ∀ (l : List α) (l' : List β),
      List.zipWith f (List.zipWith g l l') l' = List.zipWith (fun a b => f (g a b) b) l l'
  | [], _ => rfl
  | _ :: _, [] => rfl
  | a :: l, b :: l' => congrArg (f (g a b) b :: ·) (zipWith_zipWith_left f g l l')

theorem hasColumns_appendColumn (h : HasColumns names b.rows)
    (colName : String) (col : List V) : HasColumns (names ++ [colName])
    (b.appendColumn colName col).rows := by
  intro row hrow
  rw [appendColumn, ← List.map_uncurry_zip_eq_zipWith] at hrow
  obtain ⟨⟨a, v⟩, hav, rfl⟩ := List.mem_map.mp hrow
  have ha := h a (List.of_mem_zip hav).1
  simp only [Function.uncurry, List.map_append, ha, List.map_cons, List.map_nil]

variable {names' : List String}

theorem rows_zipColumns {r s : Block (Row V)} (hr : HasColumns names r.rows)
    (hs : HasColumns names' s.rows) (hnodup : names'.Nodup) (hlen : r.rows.length = s.rows.length) :
    (r.zipColumns id s).rows = List.zipWith zipRow r.rows s.rows := by
  have hlookup : ∀ c ∈ names', ∀ b ∈ s.rows, (b.lookup c).isSome = true := by
    intro c hc b hb
    rw [← hs b hb] at hc
    obtain ⟨cell, hcell, rfl⟩ := List.mem_map.mp hc
    exact List.lookup_isSome_iff.mpr ⟨cell, hcell, beq_self_eq_true _⟩
  have hloop : ∀ (cols names : List String) (r : Block (Row V)), HasColumns names r.rows →
      (∀ c ∈ cols, c ∈ names') → r.rows.length = s.rows.length →
      (cols.foldl (s.zipColumn id) r).rows =
        List.zipWith (fun a b => cols.foldl (addNamed b) a) r.rows s.rows := by
    intro cols
    induction cols with
    | nil =>
      intro names r _ _ hlen
      apply List.ext_getElem
      · rw [List.length_zipWith, hlen, min_self]
        exact hlen
      · intro i _ _
        rw [List.getElem_zipWith]
        rfl
    | cons c cols ih =>
      intro names r hr hcols hlen
      obtain ⟨hc, hcols⟩ := List.forall_mem_cons.mp hcols
      have hstep := rows_zipColumn hr (hlookup c hc)
      have hr' := hasColumns_appendColumn hr (uniqueName r.columnNames c) (s.column c)
      rw [List.foldl_cons, ih _ (s.zipColumn id r c) hr' hcols
        (by rw [hstep, List.length_zipWith, hlen, min_self]), hstep, zipWith_zipWith_left]
      rfl
  obtain hnil | hne := eq_or_ne s.rows []
  · have hr0 : r.rows = [] := List.length_eq_zero_iff.mp (by rw [hlen, hnil]; rfl)
    rw [zipColumns, columnNames, hnil]
    simp [hr0]
  · rw [zipColumns, columnNames_eq hs hne, hloop names' names r hr (fun _ h => h) hlen,
      ← List.map_uncurry_zip_eq_zipWith, ← List.map_uncurry_zip_eq_zipWith]
    apply List.map_congr_left
    rintro ⟨a, b⟩ hab
    have hb := hs b (List.of_mem_zip hab).2
    rw [← hb] at hnodup ⊢
    exact foldl_addNamed hnodup a

/-- Two tables with as many rows each, side by side; the result has the format of the first. -/
theorem zip_spec {P : PandasIndex V} (hP : P.Default) {a : Block (Row V)}
    (ha : HasColumns names a.rows) (hb : HasColumns names' b.rows) (hnodup : names'.Nodup)
    (hlen : a.rows.length = b.rows.length) :
    ∃ c, a.zip P b = .ok c ∧ c.format = a.format ∧ c.rows = List.zipWith zipRow a.rows b.rows := by
  have hfoldl : ∀ (s : Block (Row V)) (cols : List String) (r : Block (Row V)),
      (cols.foldl (s.zipColumn id) r).format = r.format := by
    intro s cols
    induction cols with
    | nil => exact fun _ => rfl
    | cons c cols ih =>
      intro r
      rw [List.foldl_cons, ih]
      rfl
  have hcase : ∃ fmt, normalizeBlockTypes a b = (a, { b with format := fmt }) := by
    unfold normalizeBlockTypes
    split_ifs
    · exact ⟨b.format, rfl⟩
    · exact ⟨a.format, rfl⟩
  obtain ⟨fmt, hnorm⟩ := hcase
  refine ⟨a.zipColumns id { b with format := fmt }, ?_, hfoldl _ _ a,
    rows_zipColumns (s := { b with format := fmt }) ha hb hnodup hlen⟩
  have hlabels : (if b.format = .pandas then P.labels b else List.range b.rows.length) =
    P.labels a := by
    rw [hP a, hlen, hP b, ite_self]
  rw [zip, hnorm, hlabels]
  dsimp only
  rw [PandasIndex.align_self, if_neg (not_not.mpr hlen.symm)]
  split_ifs with _ hlabels
  · rfl
  · exact absurd rfl hlabels.1
  · rfl

end Block
end RayTfm.Data
