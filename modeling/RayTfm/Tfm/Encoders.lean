import RayTfm.Tfm.GpuTokenizer

/-! # Encoding single transactions

Three functions lay out the fields of a single transaction as `<bos> fields <eos> <pad> …`:
`_pad` of `ray_embed.py`, which writes three slices of an array of padding, `encode` of
`tokenizer/pipeline.py`, which writes it column by column, and `build_sequences` on a group of one
transaction.  The first two truncate differently, but all agree as long as the fields fit
(`encoders_agree`).  The embedding of a transaction is the hidden state at the last position that
is not padding; if no field is padding, this is the position of the end id, for truncated
transactions as well. -/

namespace RayTfm.Tfm

/-- A two-dimensional array of token ids. -/
structure IdTable where
  rows : List (List ℤ)
  numFields : ℕ
  length_eq : ∀ row ∈ rows, row.length = numFields

/-! ### Writing to arrays -/

/-- `np.full((n, length), v)`. -/
def full (n length : ℕ) (v : ℤ) : List (List ℤ) := List.replicate n (List.replicate length v)

/-- `a[:, j] = v` for a number. -/
def fillColumn (a : List (List ℤ)) (j : ℕ) (v : ℤ) : List (List ℤ) := a.map (fun row => row.set j v)

/-- `a[:, j] = col` for a column. -/
def setColumn (a : List (List ℤ)) (j : ℕ) (col : List ℤ) : List (List ℤ) :=
  List.zipWith (fun row v => row.set j v) a col

/-- `a[:, j:j + k] = block` for a block of width `k`. -/
def setBlock (a : List (List ℤ)) (j : ℕ) (block : List (List ℤ)) : List (List ℤ) :=
  List.zipWith (fun row b => row.take j ++ b ++ row.drop (j + b.length)) a block

/-- The row of a transaction: as many fields as fit between the begin and the end id. -/
def encodedRow (L : ℕ) (fields : List ℤ) : List ℤ :=
  bosTokenId :: (fields.take (L - 2) ++
    eosTokenId :: List.replicate (L - 2 - (fields.take (L - 2)).length) padTokenId)

theorem set_append_replicate {l : List ℤ} {m : ℕ} (h : l.length < m) (v : ℤ) :
    (l ++ List.replicate (m - l.length) padTokenId).set l.length v =
      l ++ v :: List.replicate (m - 1 - l.length) padTokenId := by
  obtain ⟨k, hk⟩ : ∃ k, m - l.length = k + 1 := ⟨m - l.length - 1, by omega⟩
  have hk' : m - 1 - l.length = k := by omega
  rw [hk, hk', List.set_append_right _ _ (le_refl _), Nat.sub_self, List.replicate_succ,
    List.set_cons_zero]

/-! ### The embedding extractor -/

/-- The actor that embeds transactions; the model's last hidden states, one for each position of
each row, are a parameter. -/
structure EmbeddingExtractor (H : Type) where
  backbone : List (List ℤ) → List (List ℤ) → List (List H)
  maxLength : ℕ

namespace EmbeddingExtractor
variable {H : Type}

/-- `_pad`.  For a length of 1 the number of fields is −1: all columns but the last are written to
no column, which numpy accepts for a single column. -/
def pad (e : EmbeddingExtractor H) (tok : IdTable) : Except PyError (List (List ℤ)) :=
  let n := tok.rows.length
  let L := e.maxLength
  if L = 0 then .error .indexError
  else
    let ids := fillColumn (full n L padTokenId) 0 bosTokenId
    if L = 1 then
      if tok.numFields ≤ 2 then .ok (fillColumn ids 0 eosTokenId)
      else .error (.valueError ("could not broadcast input array from shape (" ++ toString n ++ "," ++
        toString (tok.numFields - 1) ++ ") into shape (" ++ toString n ++ ",0)"))
    else
      let k := min tok.numFields (L - 2)
      let ids := setBlock ids 1 (tok.rows.map (fun row => row.take k))
      .ok (fillColumn ids (1 + k) eosTokenId)

/-- `(t != PAD_TOKEN_ID).long()` on one row. -/
def attentionMask (row : List ℤ) : List ℤ := row.map (fun i => if i ≠ padTokenId then 1 else 0)

/-- `(mask.sum(1) - 1).clamp(min=0)` on one row. -/
def lastTokenIndex (row : List ℤ) : ℤ := max 0 ((attentionMask row).sum - 1)

/-- `h[i, j]` for one row. -/
def stateAt (states : List H) (j : ℤ) : Except PyError H :=
  match states[j.toNat]? with
  | some state => .ok state
  | none => .error .indexError

/-- `__call__` with the pooling `last_token`. -/
def call (e : EmbeddingExtractor H) (tok : IdTable) : Except PyError (List H) := do
  let ids ← e.pad tok
  let h := e.backbone ids (ids.map attentionMask)
  (h.zip ids).mapM (fun p => stateAt p.1 (lastTokenIndex p.2))

variable {fields : List ℤ}

theorem pad_row {L k : ℕ} (hL : 2 ≤ L) (hk : k = min fields.length (L - 2)) :
    ((((List.replicate L padTokenId).set 0 bosTokenId).take 1 ++ fields.take k ++
      ((List.replicate L padTokenId).set 0 bosTokenId).drop (1 + (fields.take k).length)).set (1 + k)
        eosTokenId) = encodedRow L fields := by
  obtain ⟨m, rfl⟩ : ∃ m, L = m + 2 := ⟨L - 2, by omega⟩
  have htake : fields.take k = fields.take m := by
    rw [hk, Nat.add_sub_cancel]
    obtain h | h := le_total fields.length m
    · rw [min_eq_left h, List.take_of_length_le h, List.take_length]
    · rw [min_eq_right h]
  have hlen : (fields.take m).length = k := by
    rw [List.length_take, hk, Nat.add_sub_cancel, min_comm]
  have hrow : (List.replicate (m + 2) padTokenId).set 0 bosTokenId =
      bosTokenId :: List.replicate (m + 1) padTokenId := rfl
  rw [htake, hrow, hlen, encodedRow, Nat.add_sub_cancel, hlen, Nat.add_comm 1 k]
  have hset := set_append_replicate (l := fields.take m) (m := m + 1)
    (by rw [List.length_take]; omega) eosTokenId
  rw [hlen] at hset
  simpa using hset

theorem pad_eq {e : EmbeddingExtractor H} (hL : 2 ≤ e.maxLength) (tok : IdTable) :
    e.pad tok = .ok (tok.rows.map (encodedRow e.maxLength)) := by
  have hfull : ∀ rows : List (List ℤ), full rows.length e.maxLength padTokenId =
      rows.map (fun _ => List.replicate e.maxLength padTokenId) := by
    intro rows
    rw [List.map_const', full]
  unfold pad
  simp only
  rw [if_neg (by omega), if_neg (by omega), hfull, fillColumn, fillColumn, setBlock, List.map_map,
    List.zipWith_map, List.zipWith_self, List.map_map]
  refine congrArg Except.ok (List.map_congr_left (fun row hrow => ?_))
  exact pad_row hL (by rw [tok.length_eq row hrow])

/-- The last position that is not padding is that of the end id, and only padding follows it. -/
theorem lastTokenIndex_encodedRow (h : ∀ i ∈ fields, i ≠ padTokenId) (L : ℕ) :
    let k := 1 + min fields.length (L - 2)
    lastTokenIndex (encodedRow L fields) = k ∧ (encodedRow L fields)[k]? = some eosTokenId ∧
      ∀ i ∈ (encodedRow L fields).drop (k + 1), i = padTokenId := by
  have hlen : (fields.take (L - 2)).length = min fields.length (L - 2) := by
    rw [List.length_take, min_comm]
  have hfields : ∀ l : List ℤ, (∀ i ∈ l, i ≠ padTokenId) → (attentionMask l).sum = l.length := by
    intro l hl
    have hones : attentionMask l = List.replicate l.length 1 := by
      rw [attentionMask, List.map_congr_left (fun i hi => if_pos (hl i hi)), List.map_const']
    rw [hones, List.sum_replicate, nsmul_eq_mul, mul_one]
  have hpad : ∀ m, (attentionMask (List.replicate m padTokenId)).sum = 0 := by
    intro m
    rw [attentionMask, List.map_replicate, if_neg (by decide), List.sum_replicate, smul_zero]
  have hmask : ∀ (i : ℤ) (l : List ℤ), attentionMask (i :: l) =
      (if i ≠ padTokenId then 1 else 0) :: attentionMask l := fun _ _ => rfl
  have happend : ∀ l l' : List ℤ, attentionMask (l ++ l') = attentionMask l ++ attentionMask l' :=
    fun _ _ => List.map_append
  refine ⟨?_, ?_, ?_⟩
  · have hsum := hfields (fields.take (L - 2)) (fun i hi => h i (List.mem_of_mem_take hi))
    rw [lastTokenIndex, encodedRow, hmask, happend, hmask, List.sum_cons, List.sum_append,
      List.sum_cons, hsum, hpad, if_pos (by decide), if_pos (by decide), hlen]
    omega
  · rw [encodedRow, Nat.add_comm 1, List.getElem?_cons_succ, List.getElem?_append_right hlen.le,
      hlen, Nat.sub_self, List.getElem?_cons_zero]
  · intro i hi
    rw [encodedRow, Nat.add_comm 1, List.drop_succ_cons, ← hlen, ← List.drop_drop,
      List.drop_left] at hi
    exact List.eq_of_mem_replicate hi

/-- What a causal decoder does with a row: a state for every position, which depends on nothing
behind it. -/
structure Causal (f : List ℤ → List ℤ → List H) : Prop where
  length : ∀ ids mask, (f ids mask).length = ids.length
  upTo : ∀ ids mask k, (f ids mask)[k]? = (f (ids.take (k + 1)) (mask.take (k + 1)))[k]?

theorem take_encodedRow {L : ℕ} (hL : fields.length + 2 ≤ L) :
    (encodedRow L fields).take (fields.length + 2) = encodedRow (fields.length + 2) fields := by
  have htake : fields.take (L - 2) = fields := List.take_of_length_le (by omega)
  rw [encodedRow, encodedRow, htake, Nat.add_sub_cancel, List.take_length, Nat.sub_self,
    List.take_succ_cons, List.take_append, List.take_of_length_le (by omega),
    Nat.add_sub_cancel_left, List.take_succ_cons]
  rfl

/-- A decoder that is causal, and reads the rows one by one, embeds a transaction by its own ids,
whatever the other transactions of the batch and the length of the rows are. -/
theorem call_eq_map [Inhabited H] {f : List ℤ → List ℤ → List H} (hf : Causal f) (n : ℕ) :
    ∃ embedding : List ℤ → H, ∀ (L : ℕ) (tok : IdTable), n + 2 ≤ L → tok.numFields = n →
      (∀ row ∈ tok.rows, ∀ i ∈ row, i ≠ padTokenId) →
      (⟨List.zipWith f, L⟩ : EmbeddingExtractor H).call tok = .ok (tok.rows.map embedding) := by
  let states := fun L fields => f (encodedRow L fields) (attentionMask (encodedRow L fields))
  refine ⟨fun fields => ((states (n + 2) fields)[n + 1]?).getD default, fun L tok hL hn hids => ?_⟩
  have hzip : (List.zipWith f (tok.rows.map (encodedRow L))
    ((tok.rows.map (encodedRow L)).map attentionMask)).zip
      (tok.rows.map (encodedRow L)) = tok.rows.map
        (fun fields => (states L fields, encodedRow L fields)) := by
    rw [List.map_map, List.zipWith_map, List.zipWith_self, List.zip_map']
    rfl
  unfold call
  rw [pad_eq (show 2 ≤ L by omega), ok_bind]
  change List.mapM _ ((List.zipWith f (tok.rows.map (encodedRow L)) _).zip _) = _
  rw [hzip, List.mapM_map]
  refine mapM_eq_ok (fun fields hmem => ?_)
  have hlen : fields.length = n := (tok.length_eq fields hmem).trans hn
  have hlast := (lastTokenIndex_encodedRow (hids fields hmem) L).1
  rw [hlen, min_eq_left (by omega), Nat.add_comm 1] at hlast
  have hstates : (states L fields)[n + 1]? = (states (n + 2) fields)[n + 1]? := by
    subst hlen
    simp only [states]
    rw [hf.upTo, attentionMask, ← List.map_take, take_encodedRow hL]
    rfl
  have hlt : n + 1 < (states (n + 2) fields).length := by
    rw [hf.length, encodedRow]
    simp [hlen]
  simp only [Function.comp_apply]
  rw [hlast, stateAt, Int.toNat_natCast, hstates, List.getElem?_eq_getElem hlt]
  rfl

/-- A decoder whose states are sums of ids: two fields in a row of length seven. -/
theorem call_eq_map_sums : ∃ embedding : List ℤ → ℤ,
    (⟨List.zipWith (fun ids _ => ids.mapIdx (fun k _ => (ids.take (k + 1)).sum)),
      7⟩ : EmbeddingExtractor ℤ).call
      ⟨[[7, 8], [9, 7]], 2, by decide⟩ = .ok ([[7, 8], [9, 7]].map embedding) := by
  obtain ⟨embedding, h⟩ :=
    call_eq_map (f := fun ids _ => ids.mapIdx (fun k _ => (ids.take (k + 1)).sum))
    ⟨fun _ _ => List.length_mapIdx, fun ids _ k => by simp [List.take_take]⟩ 2
  exact ⟨embedding, h 7 ⟨[[7, 8], [9, 7]], 2, by decide⟩ (by decide) rfl (by decide)⟩

end EmbeddingExtractor

/-! ### The pipeline -/

namespace TokenizerPipeline

/-- `self.special_token_ids[tok]`. -/
def specialTokenId (p : TokenizerPipeline) (tok : String) : Except PyError ℤ :=
  match p.specialTokenIds.get? tok with
  | some i => .ok i
  | none => .error .keyError

/-- `host_col.map(vocab).fillna(unk_id)`; without a vocabulary the first cell raises. -/
def columnIds (vocab : Option (Dict String ℤ)) (unkId : ℤ) (col : TokenColumn) :
    Except PyError (List ℤ) :=
  match vocab with
  | some vocab => .ok (col.map (fun tok => (tok.bind vocab.get?).getD unkId))
  | none => if col = [] then .ok [] else .error .typeError

/-- The loop over the columns: the next free column of the array, and the array. -/
def encodeLoop (vocab : Option (Dict String ℤ)) (unkId : ℤ) (maxLength : ℕ) :
    List TokenColumn → ℕ → List (List ℤ) → Except PyError (ℕ × List (List ℤ))
  | [], colOffset, padded => .ok (colOffset, padded)
  | col :: cols, colOffset, padded =>
    if maxLength ≤ colOffset then .ok (colOffset, padded)
    else do
      let ids ← columnIds vocab unkId col
      encodeLoop vocab unkId maxLength cols (colOffset + 1) (setColumn padded colOffset ids)

/-- `encode` on a frame of `n` rows. -/
def encode (p : TokenizerPipeline) (n : ℕ) (tokenDf : TokenFrame) (maxLength : ℕ)
    (addSpecial : Bool) : Except PyError (List (List ℤ)) := do
  let padId ← p.specialTokenId "<pad>"
  let bosId ← p.specialTokenId "<bos>"
  let eosId ← p.specialTokenId "<eos>"
  let unkId ← p.specialTokenId "<unk>"
  let padded := full n maxLength padId
  if addSpecial ∧ maxLength = 0 then .error .indexError
  else
    let s ← encodeLoop (p.globalVocab.map GlobalVocab.vocab) unkId maxLength tokenDf.values
      (if addSpecial then 1 else 0) (if addSpecial then fillColumn padded 0 bosId else padded)
    .ok (if addSpecial ∧ s.1 < maxLength then fillColumn s.2 s.1 eosId else s.2)

/-- The special ids of the pipeline are those of `ray_common.py`. -/
structure HasSpecialIds (p : TokenizerPipeline) : Prop where
  pad : p.specialTokenIds.get? "<pad>" = some padTokenId
  bos : p.specialTokenIds.get? "<bos>" = some bosTokenId
  eos : p.specialTokenIds.get? "<eos>" = some eosTokenId
  unk : p.specialTokenIds.get? "<unk>" = some unkTokenId

/-- The table holds the ids of the tokens of the frame, column by column. -/
structure Encodes (vocab : Dict String ℤ) (tokenDf : TokenFrame) (tok : IdTable) : Prop where
  length_eq : ∀ col ∈ tokenDf.values, col.length = tok.rows.length
  numFields : tokenDf.values.length = tok.numFields
  rows : tok.rows = GPUTokenizer.stack tok.rows.length
    (tokenDf.values.map (fun col => col.map (tokenId vocab)))

end TokenizerPipeline

theorem stack_concat {n : ℕ} (cols : List (List ℤ)) {col : List ℤ} (h : col.length = n) :
    GPUTokenizer.stack n (cols ++ [col]) =
      List.zipWith (fun row v => row ++ [v]) (GPUTokenizer.stack n cols) col := by
  subst h
  refine List.ext_getElem (by simp [GPUTokenizer.stack]) (fun i hi hi' => ?_)
  simp only [GPUTokenizer.stack, List.length_map, List.length_range] at hi
  simp [GPUTokenizer.stack, hi]

theorem setColumn_append {rows : List (List ℤ)} {j m : ℕ} (hj : j < m)
    (hrows : ∀ row ∈ rows, row.length = j) (col : List ℤ) :
    setColumn (rows.map (fun row => bosTokenId :: (row ++ List.replicate (m - j) padTokenId)))
        (1 + j) col =
      (List.zipWith (fun row v => row ++ [v]) rows col).map
        (fun row => bosTokenId :: (row ++ List.replicate (m - (j + 1)) padTokenId)) := by
  rw [setColumn, List.zipWith_map_left, List.map_zipWith]
  induction rows generalizing col with
  | nil => rfl
  | cons row rows ih =>
    cases col with
    | nil => rfl
    | cons v col =>
      have hset := set_append_replicate (l := row) (m := m)
        (by rw [hrows row List.mem_cons_self]; exact hj) v
      rw [hrows row List.mem_cons_self] at hset
      rw [List.zipWith_cons_cons, List.zipWith_cons_cons, ih (fun r hr => hrows r (.tail _ hr)),
        Nat.add_comm 1 j, List.set_cons_succ, hset, Nat.sub_sub, Nat.add_comm 1 j]
      simp

theorem length_of_mem_stack {n : ℕ} {cols : List (List ℤ)} :
    ∀ row ∈ GPUTokenizer.stack n cols, row.length = cols.length := by
  intro row hrow
  obtain ⟨i, -, rfl⟩ := List.mem_map.mp hrow
  exact List.length_map _

namespace TokenizerPipeline

theorem encodeLoop_eq (vocab : Dict String ℤ) {n L : ℕ} {cols : List TokenColumn}
    (hcols : ∀ col ∈ cols, col.length = n) (done : List (List ℤ))
    (hL : done.length + cols.length + 2 ≤ L) :
    encodeLoop (some vocab) unkTokenId L cols (1 + done.length)
        ((GPUTokenizer.stack n done).map
          (fun row => bosTokenId :: (row ++ List.replicate (L - 1 - done.length) padTokenId))) =
      .ok (1 + (done.length + cols.length),
        (GPUTokenizer.stack n (done ++ cols.map (fun col => col.map (tokenId vocab)))).map
          (fun row => bosTokenId ::
            (row ++ List.replicate (L - 1 - (done.length + cols.length)) padTokenId))) := by
  induction cols generalizing done with
  | nil => simp [encodeLoop]
  | cons col cols ih =>
    simp only [List.length_cons] at hL ⊢
    have hcol : (col.map (tokenId vocab)).length = n := by
      rw [List.length_map, hcols col List.mem_cons_self]
    have hids : columnIds (some vocab) unkTokenId col = .ok (col.map (tokenId vocab)) := rfl
    rw [encodeLoop, if_neg (by omega), hids, ok_bind,
      setColumn_append (by omega) length_of_mem_stack, ← stack_concat _ hcol]
    have hloop := ih (fun c hc => hcols c (.tail _ hc))
      (done ++ [col.map (tokenId vocab)])
      (by simp only [List.length_append, List.length_singleton]; omega)
    simp only [List.length_append, List.length_singleton, List.append_assoc,
      List.singleton_append] at hloop
    rw [Nat.add_assoc 1, hloop, List.map_cons, Nat.add_assoc, Nat.add_comm 1 cols.length]

theorem encode_eq {p : TokenizerPipeline} (hp : p.HasSpecialIds) {g : GlobalVocab}
    (hg : p.globalVocab = some g) {tokenDf : TokenFrame} {tok : IdTable} {L : ℕ}
    (hdf : Encodes g.vocab tokenDf tok) (hL : tok.numFields + 2 ≤ L) :
    p.encode tok.rows.length tokenDf L true = .ok (tok.rows.map (encodedRow L)) := by
  have hspecial : ∀ {t i}, p.specialTokenIds.get? t = some i → p.specialTokenId t = .ok i := by
    intro t i h
    rw [specialTokenId, h]
  have hstart : fillColumn (full tok.rows.length L padTokenId) 0 bosTokenId =
      (GPUTokenizer.stack tok.rows.length []).map
        (fun row => bosTokenId :: (row ++ List.replicate (L - 1 - 0) padTokenId)) := by
    obtain ⟨m, rfl⟩ : ∃ m, L = m + 1 := ⟨L - 1, by omega⟩
    simp [fillColumn, full, GPUTokenizer.stack, List.replicate_succ]
  have hloop := encodeLoop_eq g.vocab hdf.length_eq [] (L := L)
    (by rw [hdf.numFields, List.length_nil]; omega)
  rw [List.nil_append, List.length_nil, ← hstart, ← hdf.rows, hdf.numFields, Nat.zero_add,
    Nat.add_zero] at hloop
  have hrow : ∀ row ∈ tok.rows,
      (bosTokenId :: (row ++ List.replicate (L - 1 - tok.numFields) padTokenId)).set
        (1 + tok.numFields) eosTokenId = encodedRow L row := by
    intro row hmem
    have hlen := tok.length_eq row hmem
    have hset := set_append_replicate (l := row) (m := L - 1) (by omega) eosTokenId
    have htake : row.take (L - 2) = row := List.take_of_length_le (by omega)
    rw [hlen] at hset
    rw [encodedRow, htake, hlen, Nat.add_comm 1, List.set_cons_succ, hset, Nat.sub_sub L 1 1]
  unfold encode
  rw [hspecial hp.pad, hspecial hp.bos, hspecial hp.eos, hspecial hp.unk]
  simp only [ok_bind, hg, Option.map_some, if_true]
  rw [if_neg (by omega), hloop, ok_bind]
  rw [if_pos ⟨trivial, by omega⟩, fillColumn, List.map_map]
  exact congrArg Except.ok (List.map_congr_left hrow)

end TokenizerPipeline

/-! ### Groups of one transaction -/

theorem buildSequences_singleton (r : TokenizedRow) {L c : ℕ} (hc : 1 ≤ c)
    (hL : r.tokenIds.length + 2 ≤ L) :
    buildSequences [r] L c = .ok [encodedRow L r.tokenIds] := by
  have hsort : sortBy TokenizedRow.ts [r] = [r] := sortBy_eq_self _ (List.pairwise_singleton _ _)
  have hrow : padTo L (chunkIds [r.tokenIds]) = encodedRow L r.tokenIds := by
    have htake : r.tokenIds.take (L - 2) = r.tokenIds := List.take_of_length_le (by omega)
    have hlen : (bosTokenId :: (r.tokenIds ++ [eosTokenId])).length = r.tokenIds.length + 2 := by
      simp
    rw [chunkIds_eq, padTo, encodedRow, htake, List.intercalate_singleton,
      List.take_of_length_le (by rw [hlen]; exact hL), hlen]
    simp [Nat.sub_sub, Nat.add_comm]
  rw [buildSequences_eq _ _ hc, hsort, List.map_singleton,
    chunks_of_length_le (List.cons_ne_nil _ _) hc, List.map_singleton, hrow]

/-! ### The encoders agree -/

/-- If the fields fit, the three encoders give the same rows: the embedding extractor, the
pipeline on any frame with these ids, and the sequences of groups of one transaction.  Whether or
not the fields fit, the position that the extractor pools from holds the end id. -/
theorem encoders_agree {H : Type} (e : EmbeddingExtractor H) (tok : IdTable)
    (hids : ∀ row ∈ tok.rows, ∀ i ∈ row, i ≠ padTokenId) :
    (tok.numFields + 2 ≤ e.maxLength →
      ∃ rows, e.pad tok = .ok rows ∧
        (∀ (p : TokenizerPipeline) (g : GlobalVocab) (tokenDf : TokenizerPipeline.TokenFrame),
          p.HasSpecialIds → p.globalVocab = some g →
          TokenizerPipeline.Encodes g.vocab tokenDf tok →
          p.encode tok.rows.length tokenDf e.maxLength true = .ok rows) ∧
        (∀ (txns : List TokenizedRow) (chunkSize : ℕ), 1 ≤ chunkSize →
          txns.map TokenizedRow.tokenIds = tok.rows →
          txns.mapM (fun r => buildSequences [r] e.maxLength chunkSize) =
            .ok (rows.map (fun row => [row])))) ∧
    (2 ≤ e.maxLength →
      ∃ rows, e.pad tok = .ok rows ∧ rows.length = tok.rows.length ∧
        ∀ row ∈ rows,
          let k := 1 + min tok.numFields (e.maxLength - 2)
          EmbeddingExtractor.lastTokenIndex row = k ∧ row[k]? = some eosTokenId ∧
            ∀ i ∈ row.drop (k + 1), i = padTokenId) := by
  constructor
  · intro hL
    refine ⟨_, EmbeddingExtractor.pad_eq (by omega) tok, fun p g tokenDf hp hg hdf =>
      TokenizerPipeline.encode_eq hp hg hdf hL, fun txns c hc htxns => ?_⟩
    rw [mapM_eq_ok (g := fun r => [encodedRow e.maxLength r.tokenIds]), ← htxns, List.map_map,
      List.map_map]
    · rfl
    · intro r hr
      apply buildSequences_singleton r hc
      rw [tok.length_eq r.tokenIds (htxns ▸ List.mem_map_of_mem hr)]
      exact hL
  · intro hL
    refine ⟨_, EmbeddingExtractor.pad_eq hL tok, List.length_map _, fun row hrow => ?_⟩
    obtain ⟨fields, hmem, rfl⟩ := List.mem_map.mp hrow
    have h := EmbeddingExtractor.lastTokenIndex_encodedRow (hids fields hmem) e.maxLength
    rw [tok.length_eq fields hmem] at h
    exact h

/-- A pipeline with a small vocabulary. -/
def examplePipeline (vocab : List (String × ℤ)) : TokenizerPipeline :=
  { TokenizerPipeline.init none false 0 with
    globalVocab := some ⟨Dict.ofList vocab, Dict.ofList (vocab.map Prod.swap)⟩ }

/-- Two fields in rows of length five; and in rows of length three, where one field is cut. -/
theorem encoders_agree_example :
    (∃ rows, (⟨fun _ _ => [], 5⟩ : EmbeddingExtractor Unit).pad ⟨[[7, 4]], 2, by decide⟩ = .ok rows ∧
      (examplePipeline [("A_1", 7)]).encode 1
        (Dict.ofList [("a", [some "A_1"]), ("b", [some "B_1"])]) 5 true = .ok rows ∧
      [(⟨0, 0, [7, 4], 0⟩ : TokenizedRow)].mapM (fun r => buildSequences [r] 5 315) =
        .ok (rows.map (fun row => [row]))) ∧
    ∃ rows, (⟨fun _ _ => [], 3⟩ : EmbeddingExtractor Unit).pad ⟨[[7, 4]], 2, by decide⟩ = .ok rows ∧
      ∀ row ∈ rows, EmbeddingExtractor.lastTokenIndex row = 2 ∧ row[2]? = some eosTokenId := by
  have hids : ∀ row ∈ [[7, 4]], ∀ i ∈ row, i ≠ padTokenId := by decide
  constructor
  · obtain ⟨rows, hpad, hencode, hbuild⟩ :=
      (encoders_agree (⟨fun _ _ => [], 5⟩ : EmbeddingExtractor Unit) ⟨[[7, 4]], 2, by decide⟩ hids).1
        (by decide)
    exact ⟨rows, hpad, hencode (examplePipeline [("A_1", 7)]) _ _ ⟨rfl, rfl, rfl, rfl⟩ rfl
      ⟨by decide, rfl, by decide⟩, hbuild _ 315 (by decide) rfl⟩
  · obtain ⟨rows, hpad, -, hlast⟩ :=
      (encoders_agree (⟨fun _ _ => [], 3⟩ : EmbeddingExtractor Unit) ⟨[[7, 4]], 2, by decide⟩ hids).2
        (by decide)
    exact ⟨rows, hpad, fun row hrow => ⟨(hlast row hrow).1, (hlast row hrow).2.1⟩⟩

end RayTfm.Tfm
